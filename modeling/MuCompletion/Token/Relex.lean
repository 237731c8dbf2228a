import MuCompletion.Text.Edit
import MuCompletion.Token.Scan

/-!
# Scanning after an edit

After an edit only the tokens around it can differ. Scanning restarts one token before the edit,
since that token may have looked ahead into it, and stops where a new token begins exactly where an
old one began, moved by the edit. All tokens from there on are the old ones, moved.
-/

namespace MuCompletion

/-- Which tokens an edit replaced. -/
structure Relexed where
  /-- The number of tokens before the replaced ones, which the edit left alone. -/
  first : Nat
  /-- The number of old tokens that were taken out. -/
  replaced : Nat
  /-- The number of new tokens that were put in their place. -/
  produced : Nat
  /-- The bytes of the old text that the replaced tokens covered. -/
  old : Span
  /-- The bytes of the new text that the new tokens cover. -/
  new : Span
  deriving DecidableEq, Repr

/-- Scan from offset `start` until a token begins where an old token begins. Offsets before
`resumeAt` are scanned in any case; `old` holds the old tokens not yet passed. The answer is the new
tokens, and the old tokens from the meeting point on, none if the scan went to the end. -/
def resync (resumeAt : Nat) (delta : Int) (start : Nat) (old : List Token) :
    List Char → List Token × List Token
  | [] => ([], [])
  | first :: cs =>
    let oldStart := shiftOffset (-delta) start
    let ahead := if resumeAt ≤ start then old.dropWhile (·.span.start < oldStart) else old
    let met := resumeAt ≤ start && (ahead.head?.map (·.span.start)) == some oldStart
    if met then ([], ahead)
    else
      let lexeme := Lexeme.scan first cs
      let (produced, kept) :=
        resync resumeAt delta (start + Text.byteLength lexeme.chars) ahead lexeme.rest
      (lexeme.toToken start :: produced, kept)
termination_by cs => cs.length
decreasing_by
  have := Lexeme.length_rest_scan first cs
  simp only [List.length_cons]
  omega

/-- The number of tokens that an edit at or after `anchor` leaves alone: all but the token that
touches the anchor and the one before it. -/
def untouched (anchor : Nat) (tokens : List Token) : Nat :=
  if anchor = 0 then 0
  else min (tokens.takeWhile (·.span.stop < anchor)).length (tokens.length - 1) - 1

/-- Bring `tokens`, the tokens of an old text, up to date with the new text. All of `region`, a range
of the old text, is scanned again. -/
def relex (tokens : List Token) (newText : String) (change : TextChange) (region : Span) :
    Relexed × List Token :=
  let delta := change.delta
  let newLength := Text.byteLength newText.toList
  let oldLength := shiftOffset (-delta) newLength
  let first := untouched (min region.start change.start) tokens
  let kept := tokens.take first
  let old := tokens.drop first
  let start := match old with
    | token :: _ => token.span.start
    | [] => 0
  let resumeAt :=
    max change.newStop (shiftOffset delta (min (max region.stop change.oldStop) oldLength))
  let scanStart := Text.floorOffset start newText.toList
  let (produced, rest) := resync resumeAt delta scanStart old (Text.after start newText.toList)
  let (oldStop, newStop) := match rest with
    | token :: _ => (token.span.start, shiftOffset delta token.span.start)
    | [] => (oldLength, newLength)
  (⟨first, old.length - rest.length, produced.length, ⟨start, oldStop⟩, ⟨start, newStop⟩⟩,
    kept ++ produced ++ rest.map (·.shift delta))

end MuCompletion
