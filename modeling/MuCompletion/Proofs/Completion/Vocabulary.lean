import Mathlib.Data.List.Nodup
import MuCompletion.Completion.Vocabulary

/-! # Tables with extra words

Words are added to a table at its end. What stood in the table stays at its place, every word that is
not empty is found afterwards, and nothing else is. Each new word is added where it occurs first, so the
tables of a configuration depend on nothing but the extra words in their order, however they were set.
-/

namespace MuCompletion

/-- The words of a list that a table with the labels `known` lacks, in the order in which they occur
first. -/
structure Additions (known words new : List String) : Prop where
  mem_iff : ∀ word, word ∈ new ↔ word ∈ words ∧ word ≠ "" ∧ word ∉ known
  ordered : new.Pairwise fun first second => words.idxOf first < words.idxOf second

namespace Additions

variable {known words new : List String} {word : String}

theorem nil (known : List String) : Additions known [] [] :=
  ⟨by simp, .nil⟩

theorem nodup (additions : Additions known words new) : new.Nodup :=
  additions.ordered.imp fun {first second} before same => by simp [same] at before

theorem idxOf_lt_cons {first second : String} (before : words.idxOf first < words.idxOf second)
    (other : word ≠ first) (other' : word ≠ second) :
    (word :: words).idxOf first < (word :: words).idxOf second := by
  rw [List.idxOf_cons_ne words other, List.idxOf_cons_ne words other']
  exact Nat.succ_lt_succ before

theorem skip (additions : Additions known words new) (skipped : word = "" ∨ word ∈ known) :
    Additions known (word :: words) new where
  mem_iff := by
    intro other
    rw [additions.mem_iff, List.mem_cons]
    constructor
    · rintro ⟨listed, some, unknown⟩
      exact ⟨.inr listed, some, unknown⟩
    · rintro ⟨rfl | listed, some, unknown⟩
      · exact absurd skipped (not_or.mpr ⟨some, unknown⟩)
      · exact ⟨listed, some, unknown⟩
  ordered := by
    have other : ∀ added ∈ new, word ≠ added := by
      rintro added member rfl
      obtain ⟨-, some, unknown⟩ := (additions.mem_iff word).mp member
      exact absurd skipped (not_or.mpr ⟨some, unknown⟩)
    refine additions.ordered.imp_of_mem fun member member' before => ?_
    exact idxOf_lt_cons before (other _ member) (other _ member')

theorem cons (additions : Additions (known ++ [word]) words new) (some : word ≠ "")
    (unknown : word ∉ known) : Additions known (word :: words) (word :: new) where
  mem_iff := by
    intro other
    rw [List.mem_cons, additions.mem_iff, List.mem_cons, List.mem_append, List.mem_singleton]
    constructor
    · rintro (rfl | ⟨listed, some, unlisted⟩)
      · exact ⟨.inl rfl, some, unknown⟩
      · exact ⟨.inr listed, some, fun known => unlisted (.inl known)⟩
    · rintro ⟨rfl | listed, some, unlisted⟩
      · exact .inl rfl
      · by_cases same : other = word
        · exact .inl same
        · exact .inr ⟨listed, some, not_or.mpr ⟨unlisted, same⟩⟩
  ordered := by
    have other : ∀ added ∈ new, word ≠ added := by
      rintro added member rfl
      exact ((additions.mem_iff word).mp member).2.2 (by simp)
    refine .cons (fun added member => ?_) ?_
    · rw [List.idxOf_cons_self, List.idxOf_cons_ne words (other added member)]
      exact Nat.succ_pos _
    · refine additions.ordered.imp_of_mem fun member member' before => ?_
      exact idxOf_lt_cons before (other _ member) (other _ member')

end Additions

namespace Vocabulary

variable {table : List VocabularyEntry} {words : List String} {label : String}

theorem labels_undocumented (words : List String) :
    (words.map fun word => (⟨word, none⟩ : VocabularyEntry)).map (·.label) = words := by
  rw [List.map_map]
  exact List.map_id words

/-- A table gains the words that it lacks, without documentation. -/
theorem exists_additions (table : List VocabularyEntry) (words : List String) :
    ∃ new, Additions (table.map (·.label)) words new ∧
      words.foldl add table = table ++ new.map (⟨·, none⟩) := by
  induction words generalizing table with
  | nil => exact ⟨[], .nil _, by simp⟩
  | cons word rest ih =>
      by_cases skipped : word = "" ∨ word ∈ table.map (·.label)
      · obtain ⟨new, additions, same⟩ := ih table
        have unchanged : add table word = table := if_pos (by simpa using skipped)
        refine ⟨new, additions.skip skipped, ?_⟩
        rw [List.foldl_cons, unchanged, same]
      · have appended : add table word = table ++ [⟨word, none⟩] := by
          simpa [add] using skipped
        obtain ⟨new, additions, same⟩ := ih (table ++ [⟨word, none⟩])
        obtain ⟨some, unknown⟩ := not_or.mp skipped
        rw [List.map_append] at additions
        refine ⟨word :: new, additions.cons some unknown, ?_⟩
        rw [List.foldl_cons, appended, same, List.append_assoc, List.map_cons, List.singleton_append]

theorem prefix_foldl_add (table : List VocabularyEntry) (words : List String) :
    table <+: words.foldl add table := by
  obtain ⟨new, -, same⟩ := exists_additions table words
  rw [same]
  exact List.prefix_append _ _

theorem mem_labels_foldl_add :
    label ∈ (words.foldl add table).map (·.label) ↔
      label ∈ table.map (·.label) ∨ label ∈ words ∧ label ≠ "" := by
  obtain ⟨new, additions, same⟩ := exists_additions table words
  rw [same, List.map_append, List.mem_append, labels_undocumented, additions.mem_iff]
  by_cases known : label ∈ table.map (·.label)
  · simp only [known, true_or]
  · simp only [known, false_or, not_false_eq_true, and_true]

theorem mem_foldl_add {entry : VocabularyEntry} (member : entry ∈ words.foldl add table) :
    entry ∈ table ∨ entry.label ∈ words ∧ entry.documentation = none := by
  obtain ⟨new, additions, same⟩ := exists_additions table words
  rw [same, List.mem_append] at member
  rcases member with old | added
  · exact .inl old
  · obtain ⟨word, listed, rfl⟩ := List.mem_map.mp added
    exact .inr ⟨((additions.mem_iff word).mp listed).1, rfl⟩

/-- The table has the entries of `language`, and behind them the extra words that these lack, without
documentation. -/
structure Extended (language : List VocabularyEntry) (extras : List String)
    (table : List VocabularyEntry) : Prop where
  added : ∃ new, Additions (language.map (·.label)) extras new ∧
    table = language ++ new.map (⟨·, none⟩)
  once : (table.map (·.label)).Nodup

theorem extended_foldl_add (once : (table.map (·.label)).Nodup) (words : List String) :
    Extended table words (words.foldl add table) := by
  obtain ⟨new, additions, same⟩ := exists_additions table words
  refine ⟨⟨new, additions, same⟩, ?_⟩
  rw [same, List.map_append, labels_undocumented]
  refine once.append additions.nodup fun label known added => ?_
  exact ((additions.mem_iff label).mp added).2.2 known

theorem types_ne_empty (config : Config) :
    ∀ entry ∈ (ofConfig config).types, entry.label ≠ "" := by
  intro entry listed
  have label : entry.label ∈ (ofConfig config).types.map (·.label) := List.mem_map_of_mem listed
  rcases mem_labels_foldl_add.mp label with language | ⟨-, some⟩
  · have spelled : ∀ label ∈ builtin.types.map (·.label), label ≠ "" := by decide
    exact spelled _ language
  · exact some

end Vocabulary

/-! ## Settings -/

namespace Config

/-- One step in setting up a configuration. -/
inductive Setting where
  | maxCandidates (count : Nat)
  | incremental (incremental : Bool)
  | extraKeywords (words : List String)
  | extraTypes (names : List String)

/-- The words that a setting adds to the keywords. -/
def Setting.keywords : Setting → List String
  | extraKeywords words => words
  | _ => []

/-- The names that a setting adds to the types. -/
def Setting.types : Setting → List String
  | extraTypes names => names
  | _ => []

def set (config : Config) : Setting → Config
  | .maxCandidates count => config.withMaxCandidates count
  | .incremental incremental => config.withIncremental incremental
  | .extraKeywords words => config.withExtraKeywords words
  | .extraTypes names => config.withExtraTypes names

/-- The configuration after settings, from the default on. -/
def ofSettings (settings : List Setting) : Config :=
  settings.foldl set default

theorem extras_foldl_set (config : Config) (settings : List Setting) :
    (settings.foldl set config).extraKeywords =
        config.extraKeywords ++ settings.flatMap Setting.keywords ∧
      (settings.foldl set config).extraTypes =
        config.extraTypes ++ settings.flatMap Setting.types := by
  induction settings generalizing config with
  | nil => simp
  | cons setting rest ih =>
      obtain ⟨keywords, types⟩ := ih (config.set setting)
      rw [List.foldl_cons, keywords, types]
      cases setting <;> simp [set, withMaxCandidates, withIncremental, withExtraKeywords,
        withExtraTypes, Setting.keywords, Setting.types]

theorem extras_ofSettings (settings : List Setting) :
    (ofSettings settings).extraKeywords = settings.flatMap Setting.keywords ∧
      (ofSettings settings).extraTypes = settings.flatMap Setting.types :=
  extras_foldl_set default settings

end Config

namespace Vocabulary

open Config

/-- The tables of a configuration are those of the language, and behind them the extra words that the
language does not have, each once and where it was given first. Neither how the words of a table were
divided among settings nor any other settings in between make a difference to it. -/
theorem ofConfig_ofSettings (settings : List Setting) :
    Extended builtin.keywords (settings.flatMap Setting.keywords)
        (ofConfig (ofSettings settings)).keywords ∧
      Extended builtin.types (settings.flatMap Setting.types) (ofConfig (ofSettings settings)).types ∧
      ∀ other : List Setting,
        (other.flatMap Setting.keywords = settings.flatMap Setting.keywords →
          (ofConfig (ofSettings other)).keywords = (ofConfig (ofSettings settings)).keywords) ∧
        (other.flatMap Setting.types = settings.flatMap Setting.types →
          (ofConfig (ofSettings other)).types = (ofConfig (ofSettings settings)).types) := by
  obtain ⟨keywords, types⟩ := extras_ofSettings settings
  simp only [ofConfig, keywords, types]
  refine ⟨extended_foldl_add (by decide) _, extended_foldl_add (by decide) _, fun other => ?_⟩
  obtain ⟨keywords', types'⟩ := extras_ofSettings other
  constructor
  · intro same
    rw [keywords', same]
  · intro same
    rw [types', same]

end Vocabulary

end MuCompletion
