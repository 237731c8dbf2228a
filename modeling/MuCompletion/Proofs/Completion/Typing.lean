import MuCompletion.Proofs.Completion.Ranking
import MuCompletion.Proofs.Scope.Edges
import MuCompletion.Proofs.Token.Shape
import MuCompletion.Server.Item

/-! # Completions while a word is typed

All cursors of a word behind its start see the same names, so as the word grows only the typed text
changes, and it only gets longer. What fits the longer text fitted the shorter one before: an editor
that has been given all candidates can pick those that still fit by itself.
-/

namespace MuCompletion

open ScopeTree Text

/-! ## What is being typed -/

theorem utf8Size_of_isWordPart {c : Char} (part : isWordPart c = true) : c.utf8Size = 1 := by
  have small : c.val ≤ 0x7f := by
    delta isWordPart Char.isAlphanum Char.isAlpha Char.isUpper Char.isLower Char.isDigit at part
    simp only [Bool.or_eq_true, Bool.and_eq_true, decide_eq_true_eq, beq_iff_eq] at part
    rcases part with ((upper | lower) | digit) | rfl
    · exact UInt32.le_trans upper.2 (by decide)
    · exact UInt32.le_trans lower.2 (by decide)
    · exact UInt32.le_trans digit.2 (by decide)
    · decide
  simp [Char.utf8Size, small]

theorem exists_split_of_le {cs : List Char} (single : ∀ c ∈ cs, c.utf8Size = 1) (offset : Nat)
    (within : offset ≤ byteLength cs) : ∃ front back, cs = front ++ back ∧ byteLength front = offset := by
  induction cs generalizing offset with
  | nil => exact ⟨[], [], rfl, (Nat.le_zero.mp within).symm⟩
  | cons c cs ih =>
      have size := single c List.mem_cons_self
      rw [byteLength_cons, size] at within
      cases offset with
      | zero => exact ⟨[], c :: cs, rfl, rfl⟩
      | succ offset =>
          obtain ⟨front, back, rfl, length⟩ :=
            ih (fun c member => single c (List.mem_cons_of_mem _ member)) offset (by omega)
          refine ⟨c :: front, back, rfl, ?_⟩
          rw [byteLength_cons, size, length, Nat.add_comm]

section

variable {text : String} {token : Token} {cursor first second : Nat}

theorem floorOffset_word (member : token ∈ lex text) (word : token.kind.isWord = true)
    (after : token.span.start ≤ cursor) (within : cursor ≤ token.span.stop) :
    floorOffset cursor text.toList = cursor := by
  obtain ⟨front, back, whole, place, shape⟩ := split_of_mem_lex member
  simp only [place, byteLength_append] at after within
  have single : ∀ c ∈ token.text.toList, c.utf8Size = 1 := fun c member =>
    utf8Size_of_isWordPart (shape.isWordPart_of_word word c member)
  obtain ⟨typed, rest, spelled, length⟩ :=
    exists_split_of_le single (cursor - byteLength front) (by omega)
  have boundary : isBoundary cursor text.toList = true := by
    apply isBoundary_iff.mpr
    refine ⟨front ++ typed, rest ++ back, ?_, ?_⟩
    · rw [whole, spelled]
      simp only [List.append_assoc]
    · rw [byteLength_append, length]
      omega
  simpa [isBoundary] using boundary

theorem at?_word (member : token ∈ lex text) (word : token.kind.isWord = true)
    (after : token.span.start < cursor) (within : cursor ≤ token.span.stop) :
    CompletionContext.at? text (lex text) cursor =
      some ⟨cursor, String.ofList (slice token.span.start cursor text.toList), some token.span⟩ := by
  have floored := floorOffset_word member word (Nat.le_of_lt after) within
  have some : cursor ≠ 0 := Nat.ne_of_gt (Nat.zero_lt_of_lt after)
  simp only [CompletionContext.at?, floored, some, if_false,
    (lex_tiles text).find?_inside member after within, word, if_true]

theorem slice_of_le (start : Nat) (ordered : first ≤ second) (cs : List Char) :
    slice start first cs <+: slice start second cs :=
  before_of_le (Nat.sub_le_sub_right ordered start) _

/-! ## What is offered -/

theorem Matches.of_longer {typed longer : List Char} {label : String} (more : typed <+: longer)
    (fits : Matches (String.ofList longer) label) : Matches (String.ofList typed) label := by
  obtain ⟨rest, rfl⟩ := more
  obtain ⟨front, back, split, same⟩ := fits
  simp only [String.toList_ofList, List.map_append] at same
  obtain ⟨typed', rest', rfl, same, -⟩ := List.map_eq_append_iff.mp same
  refine ⟨typed', rest' ++ back, ?_, ?_⟩
  · rw [split, List.append_assoc]
  · rw [same, String.toList_ofList]

theorem mem_ranked {tree : ScopeTree} {vocabulary : Vocabulary} {context : CompletionContext}
    {offer : Offer} :
    offer ∈ Offer.ranked tree vocabulary context ↔
      offer ∈ Offer.firstOfLabel (Offer.all tree vocabulary context) ∧
        Matches context.typed offer.label := by
  rw [Offer.ranked, List.mem_mergeSort, List.mem_filter, Offer.fits_iff]

/-- A list is not marked incomplete if it has everything that fits, or if nothing may be shown. -/
theorem isIncomplete_take {offers : List Offer} {limit : Nat} :
    (CompletionList.ofCandidates (Offer.candidates (offers.take limit)) limit).isIncomplete = false ↔
      limit = 0 ∨ offers.length < limit := by
  simp only [CompletionList.ofCandidates, Offer.candidates, List.length_map, List.length_zipIdx,
    List.length_take, Bool.and_eq_false_iff, decide_eq_false_iff_not, beq_eq_false_iff_ne]
  omega

theorem length_ranked_le_of_longer {tree : ScopeTree} {vocabulary : Vocabulary}
    {context longer : CompletionContext}
    (same : Offer.all tree vocabulary longer = Offer.all tree vocabulary context)
    (shorter : ∀ label, Matches longer.typed label → Matches context.typed label) :
    (Offer.ranked tree vocabulary longer).length ≤ (Offer.ranked tree vocabulary context).length := by
  simp only [Offer.ranked, List.length_mergeSort, same]
  apply List.Sublist.length_le
  apply List.monotone_filter_right
  intro offer fits
  exact Offer.fits_iff.mpr (shorter offer.label (Offer.fits_iff.mp fits))

/-- What fits the longer part of a word is what fits the shorter part and begins with the longer one. -/
theorem mem_content_ranked_of_longer {tree : ScopeTree} {vocabulary : Vocabulary}
    {context longer : CompletionContext} {content : String × SymbolKind × Option String}
    (same : Offer.all tree vocabulary longer = Offer.all tree vocabulary context)
    (shorter : ∀ label, Matches longer.typed label → Matches context.typed label) :
    content ∈ (Offer.ranked tree vocabulary longer).map Offer.content ↔
      content ∈ (Offer.ranked tree vocabulary context).map Offer.content ∧
        Matches longer.typed content.1 := by
  constructor
  · intro shown
    obtain ⟨offer, ranked, rfl⟩ := List.mem_map.mp shown
    obtain ⟨offered, fits⟩ := mem_ranked.mp ranked
    rw [same] at offered
    exact ⟨List.mem_map_of_mem (mem_ranked.mpr ⟨offered, shorter offer.label fits⟩), fits⟩
  · rintro ⟨shown, fits⟩
    obtain ⟨offer, ranked, rfl⟩ := List.mem_map.mp shown
    have offered := (mem_ranked.mp ranked).1
    rw [← same] at offered
    exact List.mem_map_of_mem (mem_ranked.mpr ⟨offered, fits⟩)

/-- While a word is typed, a list of candidates that is not marked incomplete has all that a longer part
of the word will be answered with: just what begins with that part, letter case aside. -/
theorem complete_longer (vocabulary : Vocabulary) (limit : Nat) (member : token ∈ lex text)
    (word : token.kind.isWord = true) (after : token.span.start < first) (ordered : first ≤ second)
    (within : second ≤ token.span.stop)
    (whole : (CompletionList.ofCandidates
      (complete text (lex text) (.ofTokens (lex text)) first vocabulary limit) limit).isIncomplete = false)
    (content : String × SymbolKind × Option String) :
    content ∈ (complete text (lex text) (.ofTokens (lex text)) second vocabulary limit).map
        Candidate.content ↔
      content ∈ (complete text (lex text) (.ofTokens (lex text)) first vocabulary limit).map
          Candidate.content ∧
        Matches (String.ofList (slice token.span.start second text.toList)) content.1 := by
  have found := at?_word member word after (Nat.le_trans ordered within)
  have found' := at?_word member word (Nat.lt_of_lt_of_le after ordered) within
  have closesNone : token.mark? ≠ some "\x7d" := by
    intro marked
    have mark := (ScopeBuilder.step_of_mark marked).1
    rw [mark] at word
    cases word
  have visible := visible_ofTokens_eq (lex_tiles text) member closesNone after ordered within
  have same : Offer.all (.ofTokens (lex text)) vocabulary
        ⟨second, String.ofList (slice token.span.start second text.toList), some token.span⟩ =
      Offer.all (.ofTokens (lex text)) vocabulary
        ⟨first, String.ofList (slice token.span.start first text.toList), some token.span⟩ := by
    simp only [Offer.all, visible]
  have shorter : ∀ label,
      Matches (String.ofList (slice token.span.start second text.toList)) label →
        Matches (String.ofList (slice token.span.start first text.toList)) label := by
    intro label fits
    exact fits.of_longer (slice_of_le token.span.start ordered text.toList)
  rw [complete_eq_take _ _ _ _ _ _ _ found] at whole ⊢
  rw [complete_eq_take _ _ _ _ _ _ _ found', Offer.map_content_candidates,
    Offer.map_content_candidates]
  rcases isIncomplete_take.mp whole with rfl | all
  · simp
  · have fewer := length_ranked_le_of_longer same shorter
    rw [List.take_of_length_le (Nat.le_of_lt all),
      List.take_of_length_le (Nat.le_of_lt (Nat.lt_of_le_of_lt fewer all))]
    exact mem_content_ranked_of_longer same shorter

/-- In a keyword that begins a scope, a name from outside that has been listed for `f` is listed for
`fu`. -/
theorem complete_longer_function :
    (⟨.keyword .function, "function", ⟨10, 18⟩⟩ : Token) ∈ lex "int fuel; function f \x7b\x7d" ∧
      (CompletionList.ofCandidates (complete "int fuel; function f \x7b\x7d"
        (lex "int fuel; function f \x7b\x7d") (.ofTokens (lex "int fuel; function f \x7b\x7d")) 11
          (.ofConfig .default) 50) 50).isIncomplete = false ∧
      ("fuel", .«variable», none) ∈ (complete "int fuel; function f \x7b\x7d"
        (lex "int fuel; function f \x7b\x7d") (.ofTokens (lex "int fuel; function f \x7b\x7d")) 12
          (.ofConfig .default) 50).map Candidate.content := by
  have member : (⟨.keyword .function, "function", ⟨10, 18⟩⟩ : Token) ∈
      lex "int fuel; function f \x7b\x7d" := by decide +kernel
  have found : CompletionContext.at? "int fuel; function f \x7b\x7d"
      (lex "int fuel; function f \x7b\x7d") 11 = some ⟨11, "f", some ⟨10, 18⟩⟩ := by decide +kernel
  have few : (Offer.ranked (.ofTokens (lex "int fuel; function f \x7b\x7d")) (.ofConfig .default)
      ⟨11, "f", some ⟨10, 18⟩⟩).length < 50 := by
    rw [Offer.ranked, List.length_mergeSort]
    decide +kernel
  have offered : (⟨"fuel", .«variable», none, .scope 1⟩ : Offer) ∈ Offer.firstOfLabel
      (Offer.all (.ofTokens (lex "int fuel; function f \x7b\x7d")) (.ofConfig .default)
        ⟨11, "f", some ⟨10, 18⟩⟩) := by decide +kernel
  have whole := isIncomplete_take.mpr (.inr few)
  have shown := List.mem_map_of_mem (f := Offer.content)
    (mem_ranked.mpr ⟨offered, ['f'], ['u', 'e', 'l'], rfl, rfl⟩)
  rw [← List.take_of_length_le (Nat.le_of_lt few), ← Offer.map_content_candidates] at shown
  rw [← complete_eq_take _ _ _ _ _ _ _ found] at whole shown
  refine ⟨member, whole, ?_⟩
  apply (complete_longer (.ofConfig .default) 50 member rfl (by decide : 10 < 11) (by decide)
    (by decide : 12 ≤ 18) whole ("fuel", .«variable», none)).mpr
  exact ⟨shown, ['f', 'u'], ['e', 'l'], rfl, by decide +kernel⟩

end

end MuCompletion
