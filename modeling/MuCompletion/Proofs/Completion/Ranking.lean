import Mathlib.Data.Prod.Lex
import Mathlib.Data.String.Basic
import Mathlib.Order.Lex
import MuCompletion.Completion.Candidate

/-! # The ranking behind a completion

What a completion offers is one ranking, of which it shows as much as its limit allows. The ranking
holds each offered label once, as the nearest name, else as a keyword, else as a type, and it holds
every label that begins with the typed text. Its order is strict: exact case, then the place of the
source, then the label.
-/

namespace MuCompletion

/-- The value is the first of the list, among those that pass the test, with its label. -/
def FirstOf {α : Type} (test : α → Prop) (label : α → String) (values : List α) (value : α) : Prop :=
  ∃ before after, values = before ++ value :: after ∧ test value ∧
    ∀ earlier ∈ before, test earlier → label earlier ≠ label value

theorem FirstOf.mem {α : Type} {test : α → Prop} {label : α → String} {values : List α} {value : α}
    (first : FirstOf test label values value) : value ∈ values := by
  obtain ⟨before, after, rfl, -⟩ := first
  exact List.mem_append_right _ List.mem_cons_self

theorem firstOf_cons {α : Type} {test : α → Prop} {label : α → String} {head value : α}
    {rest : List α} :
    FirstOf test label (head :: rest) value ↔
      test head ∧ head = value ∨
        FirstOf test label rest value ∧ (test head → label head ≠ label value) := by
  constructor
  · rintro ⟨before, after, split, passes, first⟩
    cases before with
    | nil =>
        obtain ⟨rfl, rfl⟩ := List.cons.inj split
        exact .inl ⟨passes, rfl⟩
    | cons earlier before =>
        obtain ⟨rfl, rfl⟩ := List.cons.inj split
        refine .inr ⟨⟨before, after, rfl, passes, fun other member => ?_⟩,
          first head List.mem_cons_self⟩
        exact first other (List.mem_cons_of_mem _ member)
  · rintro (⟨passes, rfl⟩ | ⟨⟨before, after, rfl, passes, first⟩, other⟩)
    · exact ⟨[], rest, rfl, passes, by simp⟩
    · exact ⟨head :: before, after, rfl, passes, List.forall_mem_cons.mpr ⟨other, first⟩⟩

/-- An offer at a cursor: a name that can be seen and is not the word being typed, unless an earlier
one hides it, a keyword that no such name hides, or a type that neither a name nor a keyword hides. -/
inductive Offered (tree : ScopeTree) (vocabulary : Vocabulary) (context : CompletionContext) :
    Offer → Prop where
  | name {seen : VisibleSymbol}
      (first : FirstOf (context.word ≠ some ·.span) (·.symbol.name) (tree.visible context.cursor)
        seen) :
      Offered tree vocabulary context ⟨seen.symbol.name, seen.symbol.kind,
        seen.symbol.documentation, .scope seen.distance⟩
  | keyword {entry : VocabularyEntry}
      (first : FirstOf (fun _ => True) (·.label) vocabulary.keywords entry)
      (unnamed : ∀ seen ∈ tree.visible context.cursor, context.word ≠ some seen.span →
        seen.symbol.name ≠ entry.label) :
      Offered tree vocabulary context ⟨entry.label, .keyword, entry.documentation, .keyword⟩
  | «type» {entry : VocabularyEntry}
      (first : FirstOf (fun _ => True) (·.label) vocabulary.types entry)
      (unnamed : ∀ seen ∈ tree.visible context.cursor, context.word ≠ some seen.span →
        seen.symbol.name ≠ entry.label)
      (noKeyword : ∀ keyword ∈ vocabulary.keywords, keyword.label ≠ entry.label) :
      Offered tree vocabulary context ⟨entry.label, .«type», entry.documentation, .«type»⟩

/-- The label begins with the typed text, the case of ASCII letters aside. -/
def Matches (typed label : String) : Prop :=
  ∃ front back, label.toList = front ++ back ∧
    front.map Char.toLower = typed.toList.map Char.toLower

/-- Scopes by their distance, then the keywords, then the types. -/
def OfferSource.place : OfferSource → ℕ ×ₗ ℕ
  | scope distance => toLex (0, distance)
  | keyword => toLex (1, 0)
  | «type» => toLex (2, 0)

/-- What ranks an offer: whether it differs from the typed text in case, its source and its label. -/
def Offer.key (typed : String) (offer : Offer) : Bool ×ₗ (ℕ ×ₗ ℕ) ×ₗ String :=
  toLex (!decide (typed.toList <+: offer.label.toList), toLex (offer.source.place, offer.label))

/-- The offers of a completion in the order in which it shows them. -/
structure Ranking (tree : ScopeTree) (vocabulary : Vocabulary) (context : CompletionContext)
    (ranked : List Offer) : Prop where
  sorted : ranked.Pairwise fun first second => first.key context.typed < second.key context.typed
  once : (ranked.map (·.label)).Nodup
  offered : ∀ offer, offer ∈ ranked ↔
    Offered tree vocabulary context offer ∧ Matches context.typed offer.label
  names : ∀ seen ∈ tree.visible context.cursor, context.word ≠ some seen.span →
    Matches context.typed seen.symbol.name → seen.symbol.name ∈ ranked.map (·.label)
  words : ∀ entry ∈ vocabulary.keywords ++ vocabulary.types,
    Matches context.typed entry.label → entry.label ∈ ranked.map (·.label)

/-- Offers as the candidates that show them. -/
def Offer.candidates (offers : List Offer) : List Candidate :=
  offers.zipIdx.map fun (offer, rank) => ⟨offer.label, offer.kind, rank, offer.documentation⟩

/-- What a candidate shows besides its rank. -/
def Candidate.content (candidate : Candidate) : String × SymbolKind × Option String :=
  (candidate.label, candidate.kind, candidate.documentation)

/-- What an offer shows as a candidate. -/
def Offer.content (offer : Offer) : String × SymbolKind × Option String :=
  (offer.label, offer.kind, offer.documentation)

theorem Offer.map_content_candidates (offers : List Offer) :
    (candidates offers).map Candidate.content = offers.map content := by
  have shown : (offers.zipIdx.map Prod.fst).map content = offers.map content := by
    rw [List.zipIdx_map_fst]
  rw [List.map_map] at shown
  rw [candidates, List.map_map]
  exact shown

theorem Offer.rank_candidates {offers : List Offer} {place : Nat} {candidate : Candidate}
    (found : (candidates offers)[place]? = some candidate) : candidate.rank = place := by
  simp only [candidates, List.getElem?_map, List.getElem?_zipIdx, Option.map_map] at found
  obtain ⟨offer, -, rfl⟩ := Option.map_eq_some_iff.mp found
  exact Nat.zero_add place

namespace Offer

/-! ## One offer for each label -/

theorem mem_firstOfLabel_map {α : Type} {test : α → Bool} {make : α → Offer} {values : List α}
    {offer : Offer} :
    offer ∈ firstOfLabel ((values.filter test).map make) ↔
      ∃ value, FirstOf (test · = true) (fun value => (make value).label) values value ∧
        make value = offer := by
  induction values with
  | nil => simp [firstOfLabel, FirstOf]
  | cons head rest ih =>
      cases passes : test head with
      | false => simp [passes, ih, firstOf_cons]
      | true =>
          simp only [List.filter_cons_of_pos passes, List.map_cons, firstOfLabel, List.mem_cons,
            List.mem_filter, ih, firstOf_cons, passes, bne_iff_ne, true_and, forall_const]
          constructor
          · rintro (rfl | ⟨⟨value, first, rfl⟩, other⟩)
            · exact ⟨head, .inl rfl, rfl⟩
            · exact ⟨value, .inr ⟨first, other.symm⟩, rfl⟩
          · rintro ⟨value, rfl | ⟨first, other⟩, rfl⟩
            · exact .inl rfl
            · exact .inr ⟨⟨value, first, rfl⟩, other.symm⟩

theorem mem_firstOfLabel_append {front back : List Offer} {offer : Offer} :
    offer ∈ firstOfLabel (front ++ back) ↔
      offer ∈ firstOfLabel front ∨
        offer ∈ firstOfLabel back ∧ ∀ earlier ∈ front, earlier.label ≠ offer.label := by
  induction front with
  | nil => simp [firstOfLabel]
  | cons head front ih =>
      simp only [List.cons_append, firstOfLabel, List.mem_cons, List.mem_filter, ih, bne_iff_ne,
        forall_eq_or_imp]
      constructor
      · rintro (rfl | ⟨first | ⟨first, others⟩, other⟩)
        · exact .inl (.inl rfl)
        · exact .inl (.inr ⟨first, other⟩)
        · exact .inr ⟨first, other.symm, others⟩
      · rintro ((rfl | ⟨first, other⟩) | ⟨first, other, others⟩)
        · exact .inl rfl
        · exact .inr ⟨.inl first, other⟩
        · exact .inr ⟨.inr ⟨first, others⟩, other.symm⟩

theorem label_mem_firstOfLabel {offers : List Offer} {offer : Offer} (member : offer ∈ offers) :
    ∃ first ∈ firstOfLabel offers, first.label = offer.label := by
  induction offers with
  | nil => cases member
  | cons head rest ih =>
      simp only [firstOfLabel, List.mem_cons, List.mem_filter, bne_iff_ne]
      by_cases same : head.label = offer.label
      · exact ⟨head, .inl rfl, same⟩
      · rcases List.mem_cons.mp member with rfl | later
        · exact absurd rfl same
        · obtain ⟨first, found, label⟩ := ih later
          exact ⟨first, .inr ⟨found, label ▸ Ne.symm same⟩, label⟩

theorem nodup_firstOfLabel (offers : List Offer) :
    ((firstOfLabel offers).map (·.label)).Nodup := by
  induction offers with
  | nil => exact List.nodup_nil
  | cons head rest ih =>
      refine List.nodup_cons.mpr ⟨fun member => ?_, ih.sublist (List.filter_sublist.map _)⟩
      obtain ⟨other, found, same⟩ := List.mem_map.mp member
      have differs := (List.mem_filter.mp found).2
      simp [same] at differs

section

variable {tree : ScopeTree} {vocabulary : Vocabulary} {context : CompletionContext}

theorem mem_firstOfLabel_all {offer : Offer} :
    offer ∈ firstOfLabel (all tree vocabulary context) ↔
      Offered tree vocabulary context offer := by
  have everyEntry (entries : List VocabularyEntry) (make : VocabularyEntry → Offer) :
      entries.map make = (entries.filter fun _ => true).map make := by rw [List.filter_true]
  simp only [all, mem_firstOfLabel_append]
  rw [everyEntry vocabulary.keywords, everyEntry vocabulary.types]
  simp only [mem_firstOfLabel_map, List.mem_append, List.mem_map, List.mem_filter, bne_iff_ne, ne_eq]
  constructor
  · rintro ((⟨seen, first, rfl⟩ | ⟨⟨entry, first, rfl⟩, unnamed⟩) | ⟨⟨entry, first, rfl⟩, others⟩)
    · exact .name first
    · exact .keyword first fun seen visible other => unnamed _ ⟨seen, ⟨visible, other⟩, rfl⟩
    · refine .type first (fun seen visible other => ?_) fun keyword listed => ?_
      · exact others _ (.inl ⟨seen, ⟨visible, other⟩, rfl⟩)
      · exact others _ (.inr ⟨keyword, ⟨listed, trivial⟩, rfl⟩)
  · intro offered
    cases offered with
    | @name seen first => exact .inl (.inl ⟨seen, first, rfl⟩)
    | @keyword entry first unnamed =>
        refine .inl (.inr ⟨⟨entry, first, rfl⟩, ?_⟩)
        rintro _ ⟨seen, ⟨visible, other⟩, rfl⟩
        exact unnamed seen visible other
    | @«type» entry first unnamed noKeyword =>
        refine .inr ⟨⟨entry, first, rfl⟩, ?_⟩
        rintro _ (⟨seen, ⟨visible, other⟩, rfl⟩ | ⟨keyword, ⟨listed, -⟩, rfl⟩)
        · exact unnamed seen visible other
        · exact noKeyword keyword listed

end

/-! ## The order -/

theorem fits_iff {typed : String} {offer : Offer} :
    offer.fits typed = true ↔ Matches typed offer.label := by
  simp only [fits, Matches, beq_iff_eq]
  constructor
  · intro same
    exact ⟨_, _, (List.take_append_drop typed.length offer.label.toList).symm, same⟩
  · rintro ⟨front, back, split, same⟩
    have length : front.length = typed.length := by
      simpa [String.length_toList] using congrArg List.length same
    rw [split, ← length, List.take_left, same]

theorem isExact_iff {typed : String} {offer : Offer} :
    offer.isExact typed = decide (typed.toList <+: offer.label.toList) := by
  rw [isExact, Bool.eq_iff_iff, beq_iff_eq, decide_eq_true_iff, List.prefix_iff_eq_take,
    String.length_toList, eq_comm]

theorem precedes_iff {first second : OfferSource} :
    first.precedes second = true ↔ first.place < second.place := by
  cases first <;> cases second <;>
    simp [OfferSource.precedes, OfferSource.place, Prod.Lex.lt_iff]

theorem place_injective : Function.Injective OfferSource.place := by
  intro first second same
  cases first <;> cases second <;> simp_all [OfferSource.place]

theorem ranksBefore_iff {typed : String} {first second : Offer} :
    first.ranksBefore typed second = true ↔ first.key typed ≤ second.key typed := by
  simp only [ranksBefore, key, isExact_iff, Prod.Lex.toLex_le_toLex]
  generalize decide (typed.toList <+: first.label.toList) = exact
  generalize decide (typed.toList <+: second.label.toList) = exact'
  by_cases same : first.source = second.source
  · cases exact <;> cases exact' <;> simp [same]
  · have apart : first.source.place ≠ second.source.place := fun place => same (place_injective place)
    cases exact <;> cases exact' <;> simp [same, apart, precedes_iff]

theorem pairwise_ranked (typed : String) (offers : List Offer) :
    (offers.mergeSort (ranksBefore typed)).Pairwise fun first second =>
      first.key typed ≤ second.key typed := by
  have sorted := @List.pairwise_mergeSort _ (ranksBefore typed) ?_ ?_ offers
  · exact sorted.imp ranksBefore_iff.mp
  · intro first second third before before'
    rw [ranksBefore_iff] at before before' ⊢
    exact before.trans before'
  · intro first second
    rw [Bool.or_eq_true, ranksBefore_iff, ranksBefore_iff]
    exact le_total _ _

end Offer

section

variable (text : String) (tokens : List Token) (tree : ScopeTree) (vocabulary : Vocabulary)
  (context : CompletionContext)

/-- All that fits, in the order in which completions show it. -/
def Offer.ranked : List Offer :=
  ((firstOfLabel (all tree vocabulary context)).filter (fits context.typed)).mergeSort
    (ranksBefore context.typed)

theorem complete_eq_take (cursor : Nat) (limit : Nat)
    (found : CompletionContext.at? text tokens cursor = some context) :
    complete text tokens tree cursor vocabulary limit =
      Offer.candidates ((Offer.ranked tree vocabulary context).take limit) := by
  simp only [complete, found]
  rfl

theorem nodup_ranked : ((Offer.ranked tree vocabulary context).map (·.label)).Nodup := by
  have sorted := List.mergeSort_perm ((Offer.firstOfLabel (Offer.all tree vocabulary context)).filter
    (Offer.fits context.typed)) (Offer.ranksBefore context.typed)
  have once := Offer.nodup_firstOfLabel (Offer.all tree vocabulary context)
  exact (sorted.map _).nodup_iff.mpr (once.sublist (List.filter_sublist.map _))

theorem label_mem_ranked (offer : Offer) (member : offer ∈ Offer.all tree vocabulary context)
    (fits : Matches context.typed offer.label) :
    offer.label ∈ (Offer.ranked tree vocabulary context).map (·.label) := by
  obtain ⟨first, found, label⟩ := Offer.label_mem_firstOfLabel member
  refine List.mem_map.mpr ⟨first, List.mem_mergeSort.mpr (List.mem_filter.mpr ⟨found, ?_⟩), label⟩
  rw [Offer.fits_iff, label]
  exact fits

theorem ranking_ranked : Ranking tree vocabulary context (Offer.ranked tree vocabulary context) := by
  have once := nodup_ranked tree vocabulary context
  constructor
  · have ordered := Offer.pairwise_ranked context.typed
      ((Offer.firstOfLabel (Offer.all tree vocabulary context)).filter (Offer.fits context.typed))
    refine (ordered.and (List.pairwise_map.mp once)).imp fun ⟨before, other⟩ => ?_
    exact lt_of_le_of_ne before fun same => other (congrArg (fun key => (ofLex (ofLex key).2).2) same)
  · exact once
  · intro offer
    rw [Offer.ranked, List.mem_mergeSort, List.mem_filter, Offer.mem_firstOfLabel_all, Offer.fits_iff]
  · intro seen visible other fits
    refine label_mem_ranked tree vocabulary context ⟨seen.symbol.name, seen.symbol.kind,
      seen.symbol.documentation, .scope seen.distance⟩ ?_ fits
    simp only [Offer.all, List.mem_append, List.mem_map, List.mem_filter, bne_iff_ne]
    exact .inl (.inl ⟨seen, ⟨visible, other⟩, rfl⟩)
  · intro entry listed fits
    rcases List.mem_append.mp listed with keyword | type
    · refine label_mem_ranked tree vocabulary context
        ⟨entry.label, .keyword, entry.documentation, .keyword⟩ ?_ fits
      simp only [Offer.all, List.mem_append, List.mem_map]
      exact .inl (.inr ⟨entry, keyword, rfl⟩)
    · refine label_mem_ranked tree vocabulary context
        ⟨entry.label, .«type», entry.documentation, .«type»⟩ ?_ fits
      simp only [Offer.all, List.mem_append, List.mem_map]
      exact .inr ⟨entry, type, rfl⟩

theorem rank_complete {cursor limit place : Nat} {candidate : Candidate}
    (found : (complete text tokens tree cursor vocabulary limit)[place]? = some candidate) :
    candidate.rank = place := by
  cases typing : CompletionContext.at? text tokens cursor with
  | none => simp [complete, typing] at found
  | some context =>
      rw [complete_eq_take text tokens tree vocabulary context cursor limit typing] at found
      exact Offer.rank_candidates found

theorem exists_offered_of_mem {cursor limit : Nat} {candidate : Candidate}
    (shown : candidate ∈ complete text tokens tree cursor vocabulary limit) :
    ∃ context offer rank, Offered tree vocabulary context offer ∧
      candidate = ⟨offer.label, offer.kind, rank, offer.documentation⟩ := by
  cases found : CompletionContext.at? text tokens cursor with
  | none => simp [complete, found] at shown
  | some context =>
      rw [complete_eq_take text tokens tree vocabulary context cursor limit found] at shown
      obtain ⟨⟨offer, rank⟩, listed, rfl⟩ := List.mem_map.mp shown
      have ranked := List.mem_of_mem_take (List.fst_mem_of_mem_zipIdx listed)
      have offered := ((ranking_ranked tree vocabulary context).offered offer).mp ranked
      exact ⟨context, offer, rank, offered.1, rfl⟩

end

theorem candidates_take_prefix (offers : List Offer) {limit more : Nat} (le : limit ≤ more) :
    Offer.candidates (offers.take limit) <+: Offer.candidates (offers.take more) := by
  obtain ⟨rest, split⟩ := List.take_prefix_take_left (l := offers) le
  rw [← split, Offer.candidates, Offer.candidates, List.zipIdx_append, List.map_append]
  exact List.prefix_append _ _

/-- Where something is typed, a completion shows the first candidates of one ranking, as many as its
limit allows, so that a smaller limit shows a first part of what a larger one shows. Elsewhere it
shows nothing. -/
theorem complete_ranking (text : String) (tokens : List Token) (tree : ScopeTree) (cursor : Nat)
    (vocabulary : Vocabulary) :
    match CompletionContext.at? text tokens cursor with
    | none => ∀ limit, complete text tokens tree cursor vocabulary limit = []
    | some context => ∃ ranked, Ranking tree vocabulary context ranked ∧
        (∀ limit, complete text tokens tree cursor vocabulary limit =
          Offer.candidates (ranked.take limit)) ∧
        ∀ limit more, complete text tokens tree cursor vocabulary limit <+:
          complete text tokens tree cursor vocabulary (limit + more) := by
  cases found : CompletionContext.at? text tokens cursor with
  | none =>
      intro limit
      simp only [complete, found]
  | some context =>
      refine ⟨Offer.ranked tree vocabulary context, ranking_ranked tree vocabulary context,
        fun limit => complete_eq_take text tokens tree vocabulary context cursor limit found,
        fun limit more => ?_⟩
      rw [complete_eq_take text tokens tree vocabulary context cursor _ found,
        complete_eq_take text tokens tree vocabulary context cursor _ found]
      exact candidates_take_prefix _ (Nat.le_add_right limit more)

end MuCompletion
