import MuCompletion.Text.Bytes
import MuCompletion.Token.Basic

/-!
# What is being typed at a cursor

Completion extends the word before the cursor. Inside a literal or a comment nothing is completed,
nor at the end of one that more text would still belong to.
-/

namespace MuCompletion

/-- A place where a completion is asked for. -/
structure CompletionContext where
  /-- The cursor, within the text and on a character boundary. -/
  cursor : Nat
  /-- The part of the word before the cursor; empty outside a word. -/
  typed : String
  /-- The bytes of the whole word that is being typed. -/
  word : Option Span
  deriving DecidableEq, Repr

/-- Whether an unescaped quote closes a literal, given what follows its opening quote. -/
def closesLiteral (quote : Char) : List Char → Bool
  | [] => false
  | ['\\'] => false
  | '\\' :: _ :: cs => closesLiteral quote cs
  | c :: cs => c == quote || closesLiteral quote cs

/-- Whether nothing that follows a literal or a comment belongs to it any more: a literal has its
closing quote, a block comment its end mark. A line comment never ends before its line does. -/
def isComplete (token : Token) : Bool :=
  match token.kind, token.text.toList with
  | .string, quote :: cs => closesLiteral quote cs
  | .comment, '/' :: '*' :: cs => ['*', '/'].isSuffixOf cs
  | _, _ => false

/-- What is being typed at a cursor in a text with the given tokens; nothing inside a literal or a
comment. -/
def CompletionContext.at? (text : String) (tokens : List Token) (cursor : Nat) :
    Option CompletionContext :=
  let cursor := Text.floorOffset cursor text.toList
  let outside : CompletionContext := ⟨cursor, "", none⟩
  if cursor = 0 then some outside
  else
    match tokens.find? (cursor ≤ ·.span.stop) with
    | none => some outside
    | some token =>
      if token.kind.isWord then
        some ⟨cursor, String.ofList (Text.slice token.span.start cursor text.toList),
          some token.span⟩
      else if token.kind = .string || token.kind = .comment then
        if cursor = token.span.stop && isComplete token then some outside else none
      else some outside

end MuCompletion
