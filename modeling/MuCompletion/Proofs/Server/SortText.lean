import Mathlib.Data.List.Nodup
import Mathlib.Data.Nat.Digits.Defs
import MuCompletion.Proofs.Completion.Ranking
import MuCompletion.Proofs.Completion.Vocabulary
import MuCompletion.Scope.Builder
import MuCompletion.Server.Item
import MuCompletion.Token.Scan

/-! # The order of completion items

An editor sorts items by a text that is their rank in digits. Texts of one length are in the order of
the numbers that they spell, so up to ten thousand items stay in the order of their ranks. The text of
the next rank is one digit longer and sorts before most others.
-/

namespace MuCompletion

/-- Of any two candidates the one with the lesser rank has the lesser text to sort by. -/
def InSortOrder (candidates : List Candidate) : Prop :=
  ∀ first ∈ candidates, ∀ second ∈ candidates, first.rank < second.rank →
    first.toItem.sortText < second.toItem.sortText

/-! ## Texts of ranks -/

theorem toNat_of_isDigit {c : Char} (digit : c.isDigit = true) : 48 ≤ c.toNat ∧ c.toNat ≤ 57 := by
  simpa [Char.isDigit, UInt32.le_iff_toNat_le] using digit

/-- Digits as many as other digits come before those if they spell less. -/
theorem lt_of_ofDigitChars_lt {digits digits' : List Char} {before before' : Nat}
    (length : digits.length = digits'.length) (all : ∀ c ∈ digits, c.isDigit = true)
    (all' : ∀ c ∈ digits', c.isDigit = true)
    (less : Nat.ofDigitChars 10 digits before < Nat.ofDigitChars 10 digits' before') :
    before < before' ∨ before = before' ∧ digits < digits' := by
  induction digits generalizing digits' before before' with
  | nil =>
      obtain rfl : digits' = [] := List.length_eq_zero_iff.mp length.symm
      exact .inl less
  | cons c digits ih =>
      cases digits' with
      | nil => simp at length
      | cons c' digits' =>
          have zero : '0'.toNat = 48 := rfl
          rw [Nat.ofDigitChars_cons, Nat.ofDigitChars_cons, zero] at less
          have digit := toNat_of_isDigit (all c List.mem_cons_self)
          have digit' := toNat_of_isDigit (all' c' List.mem_cons_self)
          have later := ih (Nat.succ.inj length) (fun c member => all c (List.mem_cons_of_mem _ member))
            (fun c member => all' c (List.mem_cons_of_mem _ member)) less
          have order : c < c' ↔ c.toNat < c'.toNat := Iff.rfl
          rw [List.cons_lt_cons_iff, order, ← Char.toNat_inj]
          rcases later with less | ⟨same, later⟩
          · omega
          · have same : before = before' ∧ c.toNat = c'.toNat := by omega
            exact .inr ⟨same.1, .inr ⟨same.2, later⟩⟩

theorem toList_rankText (rank : Nat) :
    (rankText rank).toList =
      List.replicate (4 - (Nat.toDigits 10 rank).length) '0' ++ Nat.toDigits 10 rank := by
  simp [rankText]

theorem ofDigitChars_rankText (rank : Nat) : Nat.ofDigitChars 10 (rankText rank).toList 0 = rank := by
  rw [toList_rankText, Nat.ofDigitChars_append, Nat.ofDigitChars_replicate_zero, Nat.mul_zero]
  exact Nat.ofDigitChars_ten_toDigits

theorem length_rankText {rank : Nat} (short : rank < 10000) : (rankText rank).toList.length = 4 := by
  have digits := (Nat.length_toDigits_le_iff (b := 10) (n := rank) (k := 4) (by decide) (by decide)).mpr short
  rw [toList_rankText, List.length_append, List.length_replicate]
  omega

theorem isDigit_rankText {rank : Nat} : ∀ c ∈ (rankText rank).toList, c.isDigit = true := by
  intro c member
  rw [toList_rankText, List.mem_append] at member
  rcases member with leading | digit
  · rw [List.eq_of_mem_replicate leading]
    rfl
  · exact Nat.isDigit_of_mem_toDigits (by decide) (by decide) digit

theorem rankText_lt {first second : Nat} (less : first < second) (short : second < 10000) :
    rankText first < rankText second := by
  have lengths := (length_rankText (Nat.lt_trans less short)).trans (length_rankText short).symm
  rw [String.lt_iff_toList_lt]
  have spelled : Nat.ofDigitChars 10 (rankText first).toList 0 <
      Nat.ofDigitChars 10 (rankText second).toList 0 := by
    rwa [ofDigitChars_rankText, ofDigitChars_rankText]
  rcases lt_of_ofDigitChars_lt lengths isDigit_rankText isDigit_rankText spelled with less | same
  · exact absurd less (Nat.lt_irrefl 0)
  · exact same.2

/-! ## Lists of candidates -/

theorem rank_lt_of_mem {offers : List Offer} {candidate : Candidate}
    (member : candidate ∈ Offer.candidates offers) : candidate.rank < offers.length := by
  obtain ⟨⟨offer, rank⟩, listed, rfl⟩ := List.mem_map.mp member
  simpa using List.snd_lt_of_mem_zipIdx listed

theorem exists_rank_eq {offers : List Offer} (rank : Nat) (fewer : rank < offers.length) :
    ∃ candidate ∈ Offer.candidates offers, candidate.rank = rank := by
  have listed : (offers[rank], rank) ∈ offers.zipIdx := by
    rw [List.mk_mem_zipIdx_iff_getElem?]
    exact List.getElem?_eq_getElem fewer
  exact ⟨_, List.mem_map_of_mem listed, rfl⟩

theorem inSortOrder_candidates {offers : List Offer} :
    InSortOrder (Offer.candidates offers) ↔ offers.length ≤ 10000 := by
  constructor
  · intro ordered
    by_contra many
    obtain ⟨first, member, rank⟩ := exists_rank_eq 9999 (Nat.lt_of_succ_lt (Nat.lt_of_not_le many))
    obtain ⟨second, member', rank'⟩ := exists_rank_eq 10000 (Nat.lt_of_not_le many)
    have less := ordered first member second member' (by omega)
    simp only [Candidate.toItem, rank, rank'] at less
    exact absurd less (by decide)
  · intro few first member second member' less
    have last := rank_lt_of_mem member'
    exact rankText_lt less (by omega)

/-- The candidates of a completion keep their order in an editor exactly if there are no more than
ten thousand of them. -/
theorem complete_inSortOrder_iff (text : String) (tokens : List Token) (tree : ScopeTree)
    (cursor : Nat) (vocabulary : Vocabulary) (limit : Nat) :
    InSortOrder (complete text tokens tree cursor vocabulary limit) ↔
      (complete text tokens tree cursor vocabulary limit).length ≤ 10000 := by
  cases found : CompletionContext.at? text tokens cursor with
  | none => simp [complete, found, InSortOrder]
  | some context =>
      rw [complete_eq_take text tokens tree vocabulary context cursor limit found,
        inSortOrder_candidates]
      simp [Offer.candidates]

/-! ## Too many candidates -/

/-- A word with a number at its end. -/
def numberedWord (number : Nat) : String :=
  String.ofList ('w' :: Nat.toDigits 10 number)

/-- Ten thousand words and one besides those of the language, and room for all of them. -/
def Config.crowded : Config :=
  (Config.default.withMaxCandidates 10001).withExtraKeywords ((List.range 10001).map numberedWord)

theorem numberedWord_injective : Function.Injective numberedWord := by
  intro first second same
  have digits : Nat.toDigits 10 first = Nat.toDigits 10 second :=
    (List.cons.inj (String.ofList_inj.mp same)).2
  have numbers := congrArg (Nat.ofDigitChars 10 · 0) digits
  simpa using numbers

theorem length_le_ranked_withExtraKeywords (config : Config) {words : List String}
    (once : words.Nodup) (some : ∀ word ∈ words, word ≠ "") (tree : ScopeTree) :
    words.length ≤
      (Offer.ranked tree (.ofConfig (config.withExtraKeywords words)) ⟨0, "", none⟩).length := by
  have ranking := ranking_ranked tree (.ofConfig (config.withExtraKeywords words)) ⟨0, "", none⟩
  have listed : words ⊆
      (Offer.ranked tree (.ofConfig (config.withExtraKeywords words)) ⟨0, "", none⟩).map
        (·.label) := by
    intro word member
    have label : word ∈ (Vocabulary.ofConfig (config.withExtraKeywords words)).keywords.map
        (·.label) :=
      Vocabulary.mem_labels_foldl_add.mpr
        (.inr ⟨List.mem_append_right _ member, some word member⟩)
    obtain ⟨entry, found, rfl⟩ := List.mem_map.mp label
    exact ranking.words entry (List.mem_append_left _ found) ⟨[], _, rfl, rfl⟩
  exact List.length_map (α := Offer) (·.label) ▸ List.Nodup.length_le_of_subset once listed

/-- With as many words as that, the last candidate sorts before the one before it. -/
theorem not_complete_inSortOrder_crowded :
    ¬InSortOrder (complete "" (lex "") (.ofTokens (lex "")) 0 (.ofConfig .crowded)
      Config.crowded.maxCandidates) := by
  have found : CompletionContext.at? "" (lex "") 0 = some ⟨0, "", none⟩ := rfl
  rw [complete_eq_take _ _ _ _ _ _ _ found, inSortOrder_candidates, List.length_take]
  have once : ((List.range 10001).map numberedWord).Nodup :=
    List.Nodup.map numberedWord_injective List.nodup_range
  have some : ∀ word ∈ (List.range 10001).map numberedWord, word ≠ "" := by
    intro word member
    obtain ⟨number, -, rfl⟩ := List.mem_map.mp member
    simp [numberedWord]
  have many := length_le_ranked_withExtraKeywords (Config.default.withMaxCandidates 10001) once some
    (.ofTokens (lex ""))
  rw [List.length_map, List.length_range] at many
  have limit : Config.crowded.maxCandidates = 10001 := rfl
  rw [limit]
  unfold Config.crowded
  omega

end MuCompletion
