import Mathlib.Data.List.Nodup
import Mathlib.Data.List.Sort
import MuCompletion.Proofs.Completion.Ranking
import MuCompletion.Proofs.Completion.Vocabulary
import MuCompletion.Scope.Builder
import MuCompletion.Token.Scan

/-! # Completions with extra words

Without a limit, extra words and extra types leave every candidate in its place, with what it stands
for and its documentation, but for one thing: a word that is added to the keywords takes the place of
a type that is spelled like it.
-/

namespace MuCompletion

/-- All candidates at a cursor: the limit is the number of visible names and words of the tables. -/
def completeAll (text : String) (tokens : List Token) (tree : ScopeTree) (cursor : Nat)
    (vocabulary : Vocabulary) : List Candidate :=
  complete text tokens tree cursor vocabulary
    ((tree.visible (Text.floorOffset cursor text.toList)).length + vocabulary.keywords.length +
      vocabulary.types.length)

/-- The longer list has all that the shorter one shows, in the same order. -/
def Extends (shorter longer : List Candidate) : Prop :=
  (shorter.map Candidate.content).Sublist (longer.map Candidate.content)

/-! ## Without a limit -/

theorem Offer.candidates_take (offers : List Offer) (limit : Nat) :
    candidates (offers.take limit) = (candidates offers).take limit := by
  apply List.ext_getElem?
  intro rank
  simp only [candidates, List.getElem?_map, List.getElem?_zipIdx, List.getElem?_take]
  split <;> rfl

theorem Offer.length_firstOfLabel_le (offers : List Offer) :
    (firstOfLabel offers).length ≤ offers.length := by
  induction offers with
  | nil => exact Nat.le_refl 0
  | cons offer rest ih =>
      have fewer := List.length_filter_le (·.label != offer.label) (firstOfLabel rest)
      simp only [firstOfLabel, List.length_cons]
      omega

section

variable (text : String) (tokens : List Token) (tree : ScopeTree) (cursor : Nat)
  (vocabulary : Vocabulary)

theorem length_ranked_le (context : CompletionContext) :
    (Offer.ranked tree vocabulary context).length ≤
      (tree.visible context.cursor).length + vocabulary.keywords.length +
        vocabulary.types.length := by
  have first := Offer.length_firstOfLabel_le (Offer.all tree vocabulary context)
  have fitting := List.length_filter_le (Offer.fits context.typed)
    (Offer.firstOfLabel (Offer.all tree vocabulary context))
  have named := List.length_filter_le (fun seen => context.word != some seen.span)
    (tree.visible context.cursor)
  simp only [Offer.all, List.length_append, List.length_map] at first
  simp only [Offer.ranked, List.length_mergeSort]
  simp only [Offer.all] at fitting ⊢
  omega

theorem completeAll_eq (context : CompletionContext)
    (found : CompletionContext.at? text tokens cursor = some context) :
    completeAll text tokens tree cursor vocabulary =
      Offer.candidates (Offer.ranked tree vocabulary context) := by
  have floored : context.cursor = Text.floorOffset cursor text.toList := by
    simp only [CompletionContext.at?] at found
    grind
  have few := length_ranked_le tree vocabulary context
  rw [floored] at few
  rw [completeAll, complete_eq_take text tokens tree vocabulary context cursor _ found,
    List.take_of_length_le few]

/-- What a limit leaves of all candidates are the first ones. -/
theorem complete_eq_take_completeAll (limit : Nat) :
    complete text tokens tree cursor vocabulary limit =
      (completeAll text tokens tree cursor vocabulary).take limit := by
  cases found : CompletionContext.at? text tokens cursor with
  | none => simp only [completeAll, complete, found, List.take_nil]
  | some context =>
      rw [completeAll_eq text tokens tree cursor vocabulary context found,
        complete_eq_take text tokens tree vocabulary context cursor _ found]
      exact Offer.candidates_take _ limit

end

/-! ## With more words -/

theorem FirstOf.of_prefix {α : Type} {test : α → Prop} {label : α → String} {values more : List α}
    {value : α} (first : FirstOf test label values value) (longer : values <+: more) :
    FirstOf test label more value := by
  obtain ⟨before, after, rfl, passes, others⟩ := first
  obtain ⟨added, rfl⟩ := longer
  exact ⟨before, after ++ added, by simp, passes, others⟩

/-- The configuration with more words and more types. -/
def Config.withExtras (config : Config) (keywords types : List String) : Config :=
  (config.withExtraKeywords keywords).withExtraTypes types

section

variable {tree : ScopeTree} {config : Config} {context : CompletionContext}
  {keywords types : List String} {offer : Offer}

theorem keywords_withExtras (config : Config) (keywords types : List String) :
    (Vocabulary.ofConfig (config.withExtras keywords types)).keywords =
      keywords.foldl Vocabulary.add (Vocabulary.ofConfig config).keywords :=
  List.foldl_append

theorem types_withExtras (config : Config) (keywords types : List String) :
    (Vocabulary.ofConfig (config.withExtras keywords types)).types =
      types.foldl Vocabulary.add (Vocabulary.ofConfig config).types :=
  List.foldl_append

theorem Offered.withExtras (types : List String)
    (offered : Offered tree (.ofConfig config) context offer)
    (unspelled : offer.source = .«type» → offer.label ∉ keywords) :
    Offered tree (.ofConfig (config.withExtras keywords types)) context offer := by
  have longer := Vocabulary.prefix_foldl_add (Vocabulary.ofConfig config).keywords keywords
  have longer' := Vocabulary.prefix_foldl_add (Vocabulary.ofConfig config).types types
  rw [← keywords_withExtras config keywords types] at longer
  rw [← types_withExtras config keywords types] at longer'
  cases offered with
  | name first => exact .name first
  | keyword first unnamed => exact .keyword (first.of_prefix longer) unnamed
  | @«type» entry first unnamed noKeyword =>
      refine .type (first.of_prefix longer') unnamed ?_
      intro keyword listed same
      have label := List.mem_map_of_mem (f := (·.label)) listed
      rw [keywords_withExtras, Vocabulary.mem_labels_foldl_add, same] at label
      rcases label with old | ⟨added, -⟩
      · obtain ⟨keyword', listed', same'⟩ := List.mem_map.mp old
        exact noKeyword keyword' listed' same'
      · exact unspelled rfl added

/-- A word spelled like a type that was offered takes its place. -/
theorem Offered.type_replaced {replaced : Offer}
    (offered : Offered tree (.ofConfig config) context replaced) (source : replaced.source = .«type»)
    (added : replaced.label ∈ keywords)
    (offered' : Offered tree (.ofConfig (config.withExtras keywords types)) context offer) :
    offer.content ≠ replaced.content := by
  cases offered with
  | name | keyword => cases source
  | @«type» entry first unnamed noKeyword =>
      have some := Vocabulary.types_ne_empty config entry first.mem
      have keyword : entry.label ∈
          (Vocabulary.ofConfig (config.withExtras keywords types)).keywords.map (·.label) := by
        rw [keywords_withExtras]
        exact Vocabulary.mem_labels_foldl_add.mpr (.inr ⟨added, some⟩)
      obtain ⟨keyword, found, same⟩ := List.mem_map.mp keyword
      intro content
      cases offered' with
      | @name seen first' =>
          -- A visible name with this label would have hidden the type before.
          have visible := first'.mem
          obtain ⟨-, -, -, passes, -⟩ := first'
          exact unnamed seen visible passes (congrArg Prod.fst content)
      | keyword => simp [Offer.content] at content
      | «type» _ _ noKeyword' =>
          exact noKeyword' keyword found (same.trans (congrArg Prod.fst content).symm)

theorem ranked_sublist {vocabulary more : Vocabulary}
    (kept : ∀ offer, Offered tree vocabulary context offer → Matches context.typed offer.label →
      Offered tree more context offer) :
    (Offer.ranked tree vocabulary context).Sublist (Offer.ranked tree more context) := by
  have ranking := ranking_ranked tree vocabulary context
  have ranking' := ranking_ranked tree more context
  have strict : Std.Antisymm fun first second : Offer =>
      first.key context.typed < second.key context.typed :=
    ⟨fun _ _ before after => absurd after (lt_asymm before)⟩
  refine List.sublist_of_subperm_of_pairwise (List.subperm_of_subset ?_ ?_) ranking.sorted
    ranking'.sorted
  · exact ranking.once.of_map _
  · intro offer member
    obtain ⟨offered, fits⟩ := (ranking.offered offer).mp member
    exact (ranking'.offered offer).mpr ⟨kept offer offered fits, fits⟩

theorem not_extends_of_replaced {text : String} {tokens : List Token} {cursor : Nat}
    (types : List String) (found : CompletionContext.at? text tokens cursor = some context)
    (offered : Offered tree (.ofConfig config) context offer) (fits : Matches context.typed offer.label)
    (source : offer.source = .«type») (added : offer.label ∈ keywords) :
    ¬Extends (completeAll text tokens tree cursor (.ofConfig config))
      (completeAll text tokens tree cursor (.ofConfig (config.withExtras keywords types))) := by
  rw [Extends, completeAll_eq _ _ _ _ _ _ found, completeAll_eq _ _ _ _ _ _ found,
    Offer.map_content_candidates, Offer.map_content_candidates]
  intro longer
  have ranking := ranking_ranked tree (.ofConfig config) context
  have ranking' := ranking_ranked tree (.ofConfig (config.withExtras keywords types)) context
  have member := (ranking.offered _).mpr ⟨offered, fits⟩
  have shown := longer.subset (List.mem_map_of_mem (f := Offer.content) member)
  obtain ⟨other, member', same⟩ := List.mem_map.mp shown
  exact offered.type_replaced source added ((ranking'.offered other).mp member').1 same

end

/-- Extra words and extra types keep all candidates, with what they stand for, their documentation
and their order, exactly if no type that was offered is spelled by an added word. -/
theorem completeAll_extends_iff (text : String) (tokens : List Token) (tree : ScopeTree)
    (cursor : Nat) (config : Config) (keywords types : List String) :
    Extends (completeAll text tokens tree cursor (.ofConfig config))
        (completeAll text tokens tree cursor (.ofConfig (config.withExtras keywords types))) ↔
      ∀ context, CompletionContext.at? text tokens cursor = some context →
        ∀ offer, Offered tree (.ofConfig config) context offer →
          Matches context.typed offer.label → offer.source = .«type» → offer.label ∉ keywords := by
  constructor
  · intro longer context found offer offered fits source added
    exact not_extends_of_replaced types found offered fits source added longer
  · intro unspelled
    cases found : CompletionContext.at? text tokens cursor with
    | none => simp [Extends, completeAll, complete, found]
    | some context =>
        rw [Extends, completeAll_eq _ _ _ _ _ _ found, completeAll_eq _ _ _ _ _ _ found,
          Offer.map_content_candidates, Offer.map_content_candidates]
        refine (ranked_sublist fun offer offered fits => ?_).map _
        exact offered.withExtras types (unspelled context found offer offered fits)

/-- An added word takes the place of the type that it spells. -/
theorem not_completeAll_extends_int64 :
    ¬Extends
      (completeAll "int64" (lex "int64") (.ofTokens (lex "int64")) 5 (.ofConfig .default))
      (completeAll "int64" (lex "int64") (.ofTokens (lex "int64")) 5
        (.ofConfig (Config.default.withExtras ["int64"] []))) := by
  have found : CompletionContext.at? "int64" (lex "int64") 5 = some ⟨5, "int64", some ⟨0, 5⟩⟩ := by
    decide +kernel
  have listed : (⟨"int64", .«type», some BuiltinType.int64.description, .«type»⟩ : Offer) ∈
      Offer.firstOfLabel (Offer.all (.ofTokens (lex "int64")) (.ofConfig .default)
        ⟨5, "int64", some ⟨0, 5⟩⟩) := by
    decide +kernel
  have fits : Matches "int64" "int64" := ⟨"int64".toList, [], by simp, rfl⟩
  exact not_extends_of_replaced [] found (Offer.mem_firstOfLabel_all.mp listed) fits rfl
    (List.mem_singleton.mpr rfl)

end MuCompletion
