import Mathlib.Data.List.TakeWhile
import MuCompletion.Proofs.Token.Stream
import MuCompletion.Token.Relex

/-! # Scanning after an edit

An edit keeps a final part of the text and, through the tokens that lie before it, a first part of
the stream. Scanning in between produces the tokens of the new text up to the place where it meets an
old token, and from there on both texts are the same. The tokens put together this way are those of
the new text, whatever region was asked for.
-/

namespace MuCompletion

open Text

theorem ahead_suffix (late : Prop) [Decidable late] (place : Nat) (old : List Token) :
    (if late then old.dropWhile (·.span.start < place) else old) <:+ old := by
  split
  · exact List.dropWhile_suffix _
  · exact List.suffix_refl old

/-- Scanning produces the tokens up to the place where it stops: the end of the text, or the start of
an old token at or after `resumeAt`. -/
theorem resync_spec (resumeAt : Nat) (delta : Int) (start : Nat) (old : List Token)
    (cs : List Char) :
    ∃ passed rest, cs = passed ++ rest ∧
      lexFrom start cs =
        (resync resumeAt delta start old cs).1 ++ lexFrom (start + byteLength passed) rest ∧
      ((resync resumeAt delta start old cs).2 = [] ∧ rest = [] ∨
        ∃ token later, (resync resumeAt delta start old cs).2 = token :: later ∧
          token :: later <:+ old ∧ resumeAt ≤ start + byteLength passed ∧
          token.span.start = shiftOffset (-delta) (start + byteLength passed)) := by
  -- `old` shrinks only from `resumeAt` on, so what remains is always a final part of it.
  fun_induction resync resumeAt delta start old cs with
  | case1 start old => exact ⟨[], [], rfl, rfl, .inl ⟨rfl, rfl⟩⟩
  | case2 start old first cs oldStart ahead met found =>
      obtain ⟨late, token, begins⟩ : resumeAt ≤ start ∧
          ∃ token, ahead.head? = some token ∧ token.span.start = oldStart := by
        simpa [met] using found
      obtain ⟨later, whole⟩ := List.head?_eq_some_iff.mp begins.1
      exact ⟨[], first :: cs, rfl, rfl, .inr ⟨token, later, whole,
        whole ▸ ahead_suffix (resumeAt ≤ start) oldStart old, late, begins.2⟩⟩
  | case3 start old first cs oldStart ahead met found lexeme produced kept more ih =>
      rw [more] at ih
      obtain ⟨passed, rest, split, stream, stops⟩ := ih
      have suffix : ahead <:+ old := ahead_suffix (resumeAt ≤ start) oldStart old
      have moved : start + byteLength lexeme.chars + byteLength passed =
          start + byteLength (lexeme.chars ++ passed) := by
        rw [byteLength_append, Nat.add_assoc]
      rw [moved] at stream stops
      refine ⟨lexeme.chars ++ passed, rest, ?_, ?_, ?_⟩
      · rw [List.append_assoc, ← split]
        exact (Lexeme.chars_append_rest first cs).symm
      · rw [lexFrom_cons, stream]
        rfl
      · rcases stops with finished | ⟨token, later, same, inside, late, begins⟩
        · exact .inl finished
        · exact .inr ⟨token, later, same, inside.trans suffix, late, begins⟩

theorem shiftOffset_mono (delta : Int) {offset offset' : Nat} (le : offset ≤ offset') :
    shiftOffset delta offset ≤ shiftOffset delta offset' := by
  simp only [shiftOffset]
  omega

theorem mem_ahead_or_lt (late : Prop) [Decidable late] (place : Nat) {old : List Token}
    {token : Token} (member : token ∈ old) :
    token ∈ (if late then old.dropWhile (·.span.start < place) else old) ∨
      token.span.start < place := by
  split
  · rw [← List.takeWhile_append_dropWhile (p := fun token : Token => token.span.start < place)
      (l := old)] at member
    rcases List.mem_append.mp member with early | late
    · exact .inr (by simpa using List.mem_takeWhile_imp early)
    · exact .inl late
  · exact .inl member

theorem start_lt_of_mem_dropWhile {place : Nat} {tokens : List Token}
    (ascending : tokens.Pairwise fun earlier later => earlier.span.start < later.span.start)
    (elsewhere : (tokens.dropWhile (·.span.start < place)).head?.map (·.span.start) ≠ some place)
    {token : Token} (member : token ∈ tokens.dropWhile (·.span.start < place)) :
    place < token.span.start := by
  have first := List.head?_dropWhile_not (fun token : Token => token.span.start < place) tokens
  have sorted := ascending.sublist
    (List.dropWhile_sublist fun token : Token => token.span.start < place)
  cases ahead : tokens.dropWhile (·.span.start < place) with
  | nil => simp [ahead] at member
  | cons head rest =>
      rw [ahead] at first elsewhere member sorted
      simp only [List.head?_cons, decide_eq_false_iff_not, Option.map_some, ne_eq,
        Option.some.injEq] at first elsewhere
      rcases List.mem_cons.mp member with rfl | later
      · omega
      · have behind := (List.pairwise_cons.mp sorted).1 token later
        omega

theorem resync_tiles (resumeAt : Nat) (delta : Int) (start : Nat) (old : List Token)
    (cs : List Char) : ∃ stop, Tiles start (resync resumeAt delta start old cs).1 stop := by
  obtain ⟨passed, rest, -, stream, -⟩ := resync_spec resumeAt delta start old cs
  have tiles := lexFrom_tiles start cs
  rw [stream] at tiles
  obtain ⟨stop, produced, -⟩ := Tiles.append_iff.mp tiles
  exact ⟨stop, produced⟩

theorem resync_parted (resumeAt : Nat) (delta : Int) (start : Nat) (old : List Token)
    (cs : List Char)
    (ascending : old.Pairwise fun earlier later => earlier.span.start < later.span.start) :
    ∀ token ∈ (resync resumeAt delta start old cs).1, resumeAt ≤ token.span.start →
      ∀ other ∈ old, other.span.start ≠ shiftOffset (-delta) token.span.start := by
  fun_induction resync resumeAt delta start old cs with
  | case1 start old => simp
  | case2 start old first cs oldStart ahead met found => simp
  | case3 start old first cs oldStart ahead met found lexeme produced kept more ih =>
      rw [more] at ih
      have tiles := resync_tiles resumeAt delta (start + byteLength lexeme.chars) ahead lexeme.rest
      rw [more] at tiles
      obtain ⟨stop, tiles⟩ := tiles
      intro token member late other inside
      have passed : other ∈ ahead ∨ other.span.start < oldStart :=
        mem_ahead_or_lt (resumeAt ≤ start) oldStart inside
      have sorted := ascending.sublist (ahead_suffix (resumeAt ≤ start) oldStart old).sublist
      rcases List.mem_cons.mp member with rfl | later
      · have behind : resumeAt ≤ start := late
        have dropped : ahead = old.dropWhile (·.span.start < oldStart) := if_pos behind
        have elsewhere : ahead.head?.map (·.span.start) ≠ some oldStart := by
          simpa [met, behind] using found
        rw [dropped] at elsewhere passed
        rcases passed with ahead | before
        · exact Nat.ne_of_gt (start_lt_of_mem_dropWhile ascending elsewhere ahead)
        · exact Nat.ne_of_lt before
      · -- What is not ahead any more begins before this token, and so before all later ones.
        rcases passed with ahead | before
        · exact ih sorted token later late other ahead
        · have beyond : oldStart ≤ shiftOffset (-delta) token.span.start :=
            shiftOffset_mono (-delta) (Nat.le_trans (Nat.le_add_right _ _) (tiles.of_mem later).1)
          exact Nat.ne_of_lt (Nat.lt_of_lt_of_le before beyond)

/-- A first part of the stream that does not depend on what follows `front`: the tokens of
`settled`. -/
structure Settled (front : List Char) where
  settled : List Char
  loose : List Char
  kept : List Token
  whole : front = settled ++ loose
  tiles : Tiles 0 kept (byteLength settled)
  stream : ∀ other, lexFrom 0 (front ++ other) =
    kept ++ lexFrom (byteLength settled) (loose ++ other)

/-- The tokens that are left alone do not depend on what stands from the anchor on. -/
theorem untouched_settled {anchor : Nat} {front : List Char} (back : List Char)
    (within : anchor ≤ byteLength front) :
    ∃ part : Settled front, part.kept.length = untouched anchor (lexFrom 0 (front ++ back)) := by
  cases counted : untouched anchor (lexFrom 0 (front ++ back)) with
  | zero => exact ⟨⟨[], front, [], rfl, rfl, fun _ => rfl⟩, rfl⟩
  | succ count =>
      have ends : count + 1 <
          ((lexFrom 0 (front ++ back)).takeWhile (·.span.stop < anchor)).length := by
        unfold untouched at counted
        split at counted <;> omega
      obtain ⟨kept, settled, loose, length, whole, tiles, stream⟩ := lexFrom_settled ends (by omega)
      rw [Nat.zero_add] at tiles
      refine ⟨⟨settled, loose, kept, whole, tiles, fun other => ?_⟩, length⟩
      rw [stream, Nat.zero_add]

theorem start_after_untouched {anchor stop : Nat} {kept : List Token} {cs : List Char}
    (tiles : Tiles 0 kept stop) (counted : kept.length = untouched anchor (kept ++ lexFrom stop cs)) :
    ((lexFrom stop cs).head?.map (·.span.start)).getD 0 = stop := by
  cases found : lexFrom stop cs with
  | nil =>
      -- At least the last of the tokens before the anchor is not left alone, so there is none.
      rw [found, List.append_nil] at counted
      have empty : kept = [] := by
        unfold untouched at counted
        apply List.length_eq_zero_iff.mp
        split at counted <;> omega
      rw [empty] at tiles
      exact tiles
  | cons token later => exact head?_lexFrom found

theorem stop_le_of_untouched {anchor stop : Nat} {kept later : List Token}
    (tiles : Tiles 0 kept stop) (counted : kept.length = untouched anchor (kept ++ later)) :
    stop ≤ anchor := by
  have fewer : kept.length ≤ ((kept ++ later).takeWhile (·.span.stop < anchor)).length := by
    rw [counted, untouched]
    split <;> omega
  have early : kept <+: (kept ++ later).takeWhile (·.span.stop < anchor) :=
    List.prefix_of_prefix_length_le (List.prefix_append kept later) (List.takeWhile_prefix _) fewer
  refine tiles.stop_le (Nat.zero_le anchor) fun token member => ?_
  have ends := List.mem_takeWhile_imp (early.subset member)
  exact Nat.le_of_lt (by simpa using ends)

theorem relex_eq_resync {tokens kept old : List Token} {newText : String} {change : TextChange}
    {region : Span} {start oldLength : Nat} (whole : tokens = kept ++ old)
    (counted : kept.length = untouched (min region.start change.start) tokens)
    (begins : (old.head?.map (·.span.start)).getD 0 = start)
    (length : shiftOffset (-change.delta) (byteLength newText.toList) = oldLength)
    {produced rest : List Token}
    (scanned : resync
        (max change.newStop
          (shiftOffset change.delta (min (max region.stop change.oldStop) oldLength)))
        change.delta (floorOffset start newText.toList) old (after start newText.toList) =
      (produced, rest)) :
    relex tokens newText change region =
      (⟨kept.length, old.length - rest.length, produced.length,
          ⟨start, (rest.head?.map (·.span.start)).getD oldLength⟩,
          ⟨start, (rest.head?.map (shiftOffset change.delta ·.span.start)).getD
            (byteLength newText.toList)⟩⟩,
        kept ++ produced ++ rest.map (·.shift change.delta)) := by
  subst whole length
  simp only [relex, ← counted, List.take_left, List.drop_left]
  cases old <;> subst begins
  all_goals
    simp only [List.head?_nil, List.head?_cons, Option.map_none, Option.map_some, Option.getD_none,
      Option.getD_some] at scanned ⊢
    rw [scanned]
    cases rest <;> rfl

/-- How an edit divides the streams of the old and the new text: `kept` stays, `replaced` gives way to
`produced`, and the tokens of `rest`, a final part of both texts, stay and move. -/
structure Splice (front removed insert back : List Char) where
  settled : List Char
  rest : List Char
  kept : List Token
  replaced : List Token
  produced : List Token
  oldStop : Nat
  newStop : Nat
  rest_suffix : rest <:+ back
  oldStop_eq : oldStop + byteLength rest = byteLength (front ++ removed ++ back)
  newStop_eq : newStop + byteLength rest = byteLength (front ++ insert ++ back)
  kept_tiles : Tiles 0 kept (byteLength settled)
  old_stream : lexFrom 0 (front ++ removed ++ back) = kept ++ replaced ++ lexFrom oldStop rest
  new_stream : lexFrom 0 (front ++ insert ++ back) = kept ++ produced ++ lexFrom newStop rest

namespace Splice

variable {front removed insert back : List Char}

/-- The splice ends at the first place from `resumeAt` on where a new token and an old one begin
together, if there is such a place. -/
structure MeetsFrom (splice : Splice front removed insert back) (resumeAt : Nat) (delta : Int) :
    Prop where
  late : splice.rest = [] ∨ resumeAt ≤ splice.newStop
  parted : ∀ token ∈ splice.produced, resumeAt ≤ token.span.start →
    ∀ other ∈ splice.replaced ++ lexFrom splice.oldStop splice.rest,
      other.span.start ≠ shiftOffset (-delta) token.span.start

/-- What the splice replaces and produces, and where. -/
def relexed (splice : Splice front removed insert back) : Relexed :=
  ⟨splice.kept.length, splice.replaced.length, splice.produced.length,
    ⟨byteLength splice.settled, splice.oldStop⟩, ⟨byteLength splice.settled, splice.newStop⟩⟩

/-- The tokens of the new text, those of `rest` by moving the old ones. -/
def tokens (splice : Splice front removed insert back) (delta : Int) : List Token :=
  splice.kept ++ splice.produced ++ (lexFrom splice.oldStop splice.rest).map (·.shift delta)

theorem oldStart (splice : Splice front removed insert back) :
    ((lexFrom splice.oldStop splice.rest).head?.map (·.span.start)).getD
      (byteLength (front ++ removed ++ back)) = splice.oldStop :=
  head?_getD_lexFrom id fun empty => by rw [← splice.oldStop_eq, empty]; rfl

theorem newStart (splice : Splice front removed insert back) {delta : Int}
    (moved : shiftOffset delta splice.oldStop = splice.newStop) :
    ((lexFrom splice.oldStop splice.rest).head?.map (shiftOffset delta ·.span.start)).getD
      (byteLength (front ++ insert ++ back)) = splice.newStop := by
  rw [head?_getD_lexFrom (shiftOffset delta) fun empty => ?_, moved]
  rw [← splice.newStop_eq, empty, moved]
  rfl

theorem stop_le_oldStop (splice : Splice front removed insert back) :
    byteLength (front ++ removed) ≤ splice.oldStop := by
  obtain ⟨more, whole⟩ := splice.rest_suffix
  have lengths := congrArg byteLength whole
  have ends := splice.oldStop_eq
  simp only [byteLength_append] at lengths ends ⊢
  omega

theorem replaced_tiles (splice : Splice front removed insert back) :
    Tiles 0 (splice.kept ++ splice.replaced) splice.oldStop :=
  tiles_of_append splice.old_stream splice.oldStop_eq

theorem produced_tiles (splice : Splice front removed insert back) :
    Tiles 0 (splice.kept ++ splice.produced) splice.newStop :=
  tiles_of_append splice.new_stream splice.newStop_eq

theorem newStop_eq_shift (splice : Splice front removed insert back) {delta : Int}
    (moves : (byteLength insert : Int) = byteLength removed + delta) :
    (splice.newStop : Int) = splice.oldStop + delta := by
  have old := splice.oldStop_eq
  have new := splice.newStop_eq
  simp only [byteLength_append] at old new
  omega

theorem settled_le_newStop (splice : Splice front removed insert back) :
    byteLength splice.settled ≤ splice.newStop :=
  (splice.produced_tiles.behind splice.kept_tiles).start_le_stop

theorem tokens_eq (splice : Splice front removed insert back) {delta : Int}
    (moves : (byteLength insert : Int) = byteLength removed + delta) :
    splice.tokens delta = lexFrom 0 (front ++ insert ++ back) := by
  have moved := splice.newStop_eq_shift moves
  have stop : shiftOffset delta splice.oldStop = splice.newStop := by
    simp only [shiftOffset]
    omega
  rw [splice.new_stream, tokens, map_shift_lexFrom delta _ _ (by omega), stop]

theorem exists_fronts (splice : Splice front removed insert back) :
    ∃ first later later', byteLength first = byteLength splice.settled ∧
      front ++ removed ++ back = first ++ later ∧ front ++ insert ++ back = first ++ later' := by
  have part : ∀ {cs : List Char} {others : List Token}, lexFrom 0 cs = splice.kept ++ others →
      ∃ first later, byteLength first = byteLength splice.settled ∧ cs = first ++ later ∧
        splice.kept = lexFrom 0 first := by
    intro cs others stream
    obtain ⟨first, later, rfl, tiles, -⟩ := lexFrom_eq_append stream
    have length := tiles.stop_unique splice.kept_tiles
    rw [Nat.zero_add] at length
    exact ⟨first, later, length, rfl, lexFrom_of_append stream tiles⟩
  obtain ⟨first, later, length, old, kept⟩ := part (splice.old_stream.trans (List.append_assoc _ _ _))
  obtain ⟨first', later', -, new, kept'⟩ := part (splice.new_stream.trans (List.append_assoc _ _ _))
  obtain rfl := lexFrom_inj (kept.symm.trans kept')
  exact ⟨first, later, later', length, old, new⟩

theorem slice_before (splice : Splice front removed insert back) {start stop : Nat}
    (ordered : start ≤ stop) (before : stop ≤ byteLength splice.settled) :
    slice start stop (front ++ insert ++ back) = slice start stop (front ++ removed ++ back) := by
  obtain ⟨first, later, later', length, old, new⟩ := splice.exists_fronts
  rw [← length] at before
  rw [old, new, slice_append_of_le ordered before, slice_append_of_le ordered before]

theorem slice_behind (splice : Splice front removed insert back) (start stop : Nat) :
    slice (start + splice.newStop) (stop + splice.newStop) (front ++ insert ++ back) =
      slice (start + splice.oldStop) (stop + splice.oldStop) (front ++ removed ++ back) := by
  have part : ∀ {cs : List Char} {place : Nat}, back <:+ cs →
      place + byteLength splice.rest = byteLength cs →
      slice (start + place) (stop + place) cs = slice start stop splice.rest := by
    intro cs place ends length
    obtain ⟨first, rfl⟩ := splice.rest_suffix.trans ends
    rw [byteLength_append, Nat.add_right_cancel_iff] at length
    rw [length, slice_add_byteLength]
  rw [part (List.suffix_append _ _) splice.newStop_eq, part (List.suffix_append _ _) splice.oldStop_eq]

end Splice

namespace Settled

variable {front removed insert back : List Char} (part : Settled front)

/-- The splice of a scan that goes on to the end of the text. -/
def spliceToEnd : Splice front removed insert back where
  settled := part.settled
  rest := []
  kept := part.kept
  replaced := lexFrom (byteLength part.settled) (part.loose ++ (removed ++ back))
  produced := lexFrom (byteLength part.settled) (part.loose ++ (insert ++ back))
  oldStop := byteLength (front ++ removed ++ back)
  newStop := byteLength (front ++ insert ++ back)
  rest_suffix := List.nil_suffix
  oldStop_eq := rfl
  newStop_eq := rfl
  kept_tiles := part.tiles
  old_stream := by rw [lexFrom_nil, List.append_nil, List.append_assoc, part.stream]
  new_stream := by rw [lexFrom_nil, List.append_nil, List.append_assoc, part.stream]

/-- The splice of a scan that stops where `rest` begins in both texts. -/
def spliceAt {passed passed' rest : List Char} {replaced produced : List Token}
    (within : rest <:+ back) (before : part.loose ++ (removed ++ back) = passed ++ rest)
    (behind : part.loose ++ (insert ++ back) = passed' ++ rest)
    (old : lexFrom (byteLength part.settled) (part.loose ++ (removed ++ back)) =
      replaced ++ lexFrom (byteLength part.settled + byteLength passed) rest)
    (new : lexFrom (byteLength part.settled) (part.loose ++ (insert ++ back)) =
      produced ++ lexFrom (byteLength part.settled + byteLength passed') rest) :
    Splice front removed insert back where
  settled := part.settled
  rest := rest
  kept := part.kept
  replaced := replaced
  produced := produced
  oldStop := byteLength part.settled + byteLength passed
  newStop := byteLength part.settled + byteLength passed'
  rest_suffix := within
  oldStop_eq := by
    have lengths := congrArg byteLength before
    have whole := congrArg byteLength part.whole
    simp only [byteLength_append] at lengths whole ⊢
    omega
  newStop_eq := by
    have lengths := congrArg byteLength behind
    have whole := congrArg byteLength part.whole
    simp only [byteLength_append] at lengths whole ⊢
    omega
  kept_tiles := part.tiles
  old_stream := by rw [List.append_assoc, part.stream, old, List.append_assoc]
  new_stream := by rw [List.append_assoc, part.stream, new, List.append_assoc]

end Settled

namespace Edit.Splits

variable {edit : Edit} {text : String} {front removed back : List Char}

theorem delta_eq (split : edit.Splits text front removed back) :
    (byteLength edit.insert.toList : Int) = byteLength removed + edit.change.delta := by
  have stop := split.stop
  rw [byteLength_append, split.start] at stop
  simp only [change, TextChange.between]
  omega

theorem newStop_eq (split : edit.Splits text front removed back) :
    edit.change.newStop = byteLength (front ++ edit.insert.toList) := by
  rw [byteLength_append, split.start]
  rfl

/-- Where an offset of the new text at or after the edit meets its image in the old one, the same
characters follow. -/
theorem rest_unique (split : edit.Splits text front removed back) (part : Settled front)
    {passed rest passed' rest' : List Char}
    (before : part.loose ++ (removed ++ back) = passed ++ rest)
    (behind : part.loose ++ (edit.insert.toList ++ back) = passed' ++ rest')
    (late : edit.change.newStop ≤ byteLength part.settled + byteLength passed')
    (meets : byteLength part.settled + byteLength passed =
      shiftOffset (-edit.change.delta) (byteLength part.settled + byteLength passed')) :
    rest' <:+ back ∧ rest = rest' ∧ shiftOffset edit.change.delta
      (byteLength part.settled + byteLength passed) =
        byteLength part.settled + byteLength passed' := by
  have suffix : rest' <:+ back := by
    have both : front ++ edit.insert.toList ++ back = (part.settled ++ passed') ++ rest' := by
      calc front ++ edit.insert.toList ++ back
          = part.settled ++ (part.loose ++ (edit.insert.toList ++ back)) := by
            simp only [List.append_assoc, congrArg (· ++ (edit.insert.toList ++ back)) part.whole]
        _ = part.settled ++ passed' ++ rest' := by rw [behind, List.append_assoc]
    rw [split.newStop_eq, ← byteLength_append] at late
    obtain ⟨more, -, divides⟩ := append_eq_append_of_le both late
    exact ⟨more, divides.symm⟩
  have delta := split.delta_eq
  have lengths := congrArg byteLength before
  have lengths' := congrArg byteLength behind
  have outer := congrArg byteLength part.whole
  have inside := split.newStop_eq
  simp only [byteLength_append, shiftOffset] at lengths lengths' outer inside meets
  have tail : rest' <:+ part.loose ++ (removed ++ back) :=
    suffix.trans ((List.suffix_append removed back).trans (List.suffix_append part.loose _))
  refine ⟨suffix, suffix_unique ⟨passed, before.symm⟩ tail (by omega), ?_⟩
  simp only [shiftOffset]
  omega

/-- Scanning from where the settled tokens end finds a splice, however late it may stop. -/
theorem resync_splice (split : edit.Splits text front removed back) (part : Settled front)
    {resumeAt : Nat} (late : edit.change.newStop ≤ resumeAt) :
    ∃ splice : Splice front removed edit.insert.toList back,
      splice.settled = part.settled ∧ splice.kept = part.kept ∧
      splice.MeetsFrom resumeAt edit.change.delta ∧
      lexFrom (byteLength part.settled) (part.loose ++ (removed ++ back)) =
        splice.replaced ++ lexFrom splice.oldStop splice.rest ∧
      shiftOffset edit.change.delta splice.oldStop = splice.newStop ∧
      resync resumeAt edit.change.delta (byteLength part.settled)
          (lexFrom (byteLength part.settled) (part.loose ++ (removed ++ back)))
          (part.loose ++ (edit.insert.toList ++ back)) =
        (splice.produced, lexFrom splice.oldStop splice.rest) := by
  have delta := split.delta_eq
  have parted := resync_parted resumeAt edit.change.delta (byteLength part.settled)
    (lexFrom (byteLength part.settled) (part.loose ++ (removed ++ back)))
    (part.loose ++ (edit.insert.toList ++ back)) (lexFrom_tiles _ _).ascending
  obtain ⟨passed', rest', behind, produced, stops⟩ := resync_spec resumeAt edit.change.delta
    (byteLength part.settled) (lexFrom (byteLength part.settled) (part.loose ++ (removed ++ back)))
    (part.loose ++ (edit.insert.toList ++ back))
  generalize resync _ _ _ _ _ = result at produced stops parted ⊢
  obtain ⟨tokens, unread⟩ := result
  rcases stops with ⟨rfl, rfl⟩ | ⟨token, later, rfl, ⟨replaced, old⟩, stopped, meets⟩
  · rw [lexFrom_nil, List.append_nil] at produced
    refine ⟨part.spliceToEnd, rfl, rfl, ⟨.inl rfl, ?_⟩, ?_, ?_, ?_⟩
    · simpa [Settled.spliceToEnd, lexFrom_nil, produced] using parted
    · simp [Settled.spliceToEnd, lexFrom_nil]
    · simp only [Settled.spliceToEnd, shiftOffset, byteLength_append]
      omega
    · simp [Settled.spliceToEnd, lexFrom_nil, produced]
  · obtain ⟨passed, rest, before, -, kept⟩ := lexFrom_eq_append old.symm
    have here : token.span.start = byteLength part.settled + byteLength passed :=
      head?_lexFrom kept.symm
    obtain ⟨within, rfl, moved⟩ := split.rest_unique part before behind (Nat.le_trans late stopped)
      (here.symm.trans meets)
    rw [kept] at old ⊢
    rw [← old] at parted
    exact ⟨part.spliceAt within before behind old.symm produced, rfl, rfl, ⟨.inr stopped, parted⟩,
      old.symm, moved, rfl⟩

/-- Relexing after an edit is a splice of the old stream that begins before the edit and the region,
and ends at the first meeting place behind both. -/
theorem relex_eq_meeting (split : edit.Splits text front removed back) (region : Span) :
    ∃ splice : Splice front removed edit.insert.toList back,
      relex (lex text) (edit.apply text) edit.change region =
        (splice.relexed, splice.tokens edit.change.delta) ∧
      byteLength splice.settled ≤ min region.start edit.start ∧
      splice.MeetsFrom (max edit.change.newStop (shiftOffset edit.change.delta
        (min (max region.stop edit.stop) (byteLength text.toList)))) edit.change.delta := by
  have anchored : min region.start edit.change.start ≤ byteLength front := by
    rw [split.start]
    exact Nat.min_le_right _ _
  obtain ⟨part, counted⟩ := untouched_settled (removed ++ back) anchored
  have oldText : text.toList = front ++ (removed ++ back) := by simp [split.text]
  have newText : (edit.apply text).toList =
      part.settled ++ (part.loose ++ (edit.insert.toList ++ back)) := by
    simp [split.toList_apply, part.whole]
  have oldStream : lex text =
      part.kept ++ lexFrom (byteLength part.settled) (part.loose ++ (removed ++ back)) := by
    rw [lex, oldText, part.stream]
  have delta := split.delta_eq
  have oldLength : shiftOffset (-edit.change.delta) (byteLength (edit.apply text).toList) =
      byteLength (front ++ removed ++ back) := by
    simp only [split.toList_apply, byteLength_append, shiftOffset]
    omega
  have scanStart : floorOffset (byteLength part.settled) (edit.apply text).toList =
      byteLength part.settled := by
    rw [newText, floorOffset_byteLength_append]
  have scanned : after (byteLength part.settled) (edit.apply text).toList =
      part.loose ++ (edit.insert.toList ++ back) := by
    rw [newText, after_byteLength_append]
  rw [part.stream] at counted
  obtain ⟨splice, settled, kept, meets, old, moved, resynced⟩ :=
    split.resync_splice part (Nat.le_max_left edit.change.newStop
      (shiftOffset edit.change.delta
        (min (max region.stop edit.change.oldStop) (byteLength (front ++ removed ++ back)))))
  have relexed := @relex_eq_resync (lex text) part.kept _ (edit.apply text) edit.change region _ _
    oldStream (by rw [counted, oldStream]) (start_after_untouched part.tiles counted) oldLength
    splice.produced (lexFrom splice.oldStop splice.rest) (by rw [scanStart, scanned, resynced])
  refine ⟨splice, ?_, settled ▸ stop_le_of_untouched part.tiles counted, split.text ▸ meets⟩
  rw [relexed, splice.oldStart, split.toList_apply, splice.newStart moved, old, List.length_append,
    Nat.add_sub_cancel, ← settled, ← kept]
  rfl

theorem relex_eq (split : edit.Splits text front removed back) (region : Span) :
    ∃ splice : Splice front removed edit.insert.toList back,
      relex (lex text) (edit.apply text) edit.change region =
        (splice.relexed, splice.tokens edit.change.delta) := by
  obtain ⟨splice, spliced, -⟩ := split.relex_eq_meeting region
  exact ⟨splice, spliced⟩

end Edit.Splits

/-- After an edit that fits its text, relexing the old tokens gives the tokens of the new text. The
region may be any pair of offsets. -/
theorem relex_lex {edit : Edit} {text : String} (fits : edit.fits text = true) (region : Span) :
    (relex (lex text) (edit.apply text) edit.change region).2 = lex (edit.apply text) := by
  obtain ⟨front, removed, back, split⟩ := Edit.fits_iff.mp fits
  obtain ⟨splice, spliced⟩ := split.relex_eq region
  rw [spliced, splice.tokens_eq split.delta_eq, lex, split.toList_apply]

/-- A digit put after a point turns two marks and a number into one number, under a reversed region
beyond the text. -/
theorem relex_lex_point :
    (⟨2, 2, "5"⟩ : Edit).fits "1.e+3" = true ∧
      (relex (lex "1.e+3") "1.5e+3" (⟨2, 2, "5"⟩ : Edit).change ⟨90, 7⟩).2 = lex "1.5e+3" := by
  have fits : (⟨2, 2, "5"⟩ : Edit).fits "1.e+3" = true := by decide +kernel
  refine ⟨fits, ?_⟩
  exact relex_lex fits ⟨90, 7⟩

end MuCompletion
