import MuCompletion.Proofs.Completion.Ranking
import MuCompletion.Proofs.Completion.Vocabulary
import MuCompletion.Proofs.Scope.Chain
import MuCompletion.Proofs.Scope.Documentation
import MuCompletion.Proofs.Token.Comment
import MuCompletion.Proofs.Token.Shape

/-! # Candidates on one line

Names of a text are words, and the words of the language and what describes them go over one line. A
newline comes into a candidate in two ways only: an extra word is spelled with one, or the comments that
document a name say more than one line.
-/

namespace MuCompletion

/-- Neither the label nor the documentation goes over several lines. -/
def Candidate.OnOneLine (candidate : Candidate) : Prop :=
  '\n' ∉ candidate.label.toList ∧ ∀ doc ∈ candidate.documentation, '\n' ∉ doc.toList

/-- The candidate is an extra word that is spelled over several lines. -/
def Candidate.SpelledOverLines (config : Config) (candidate : Candidate) : Prop :=
  candidate.label ∈ config.extraKeywords ++ config.extraTypes ∧ '\n' ∈ candidate.label.toList

/-- The candidate is a name of the text, other than a parameter, and the comments that document it say
several lines. -/
def Candidate.DocumentedOverLines (text : String) (candidate : Candidate) : Prop :=
  ∃ before name earlier opener, name.text = candidate.label ∧
    Documented (lex text) before name candidate.kind candidate.documentation ∧
    (Pending.after before).readsParameters = false ∧ OpenedBehind earlier opener before ∧
    2 ≤ (saidLines ((commentsBehind earlier).map (·.text))).length

section

variable {text : String} {candidate : Candidate} {before : List Token} {name : Token}

theorem newline_mem_documentationBehind_iff (earlier : List Token) :
    (∃ doc ∈ documentationBehind earlier, '\n' ∈ doc.toList) ↔
      2 ≤ (saidLines ((commentsBehind earlier).map (·.text))).length := by
  rw [← newline_mem_documentation?_iff, documentationBehind, List.map_map]
  rfl

theorem Candidate.DocumentedOverLines.newline_mem (spread : candidate.DocumentedOverLines text) :
    ∃ doc ∈ candidate.documentation, '\n' ∈ doc.toList := by
  obtain ⟨before, name, earlier, opener, -, documented, unread, opened, several⟩ := spread
  obtain ⟨-, earlier', opener', unique, same⟩ := documented.declared unread
  obtain ⟨rfl, rfl⟩ := (unique earlier opener).mp opened
  rw [same]
  exact (newline_mem_documentationBehind_iff earlier).mpr several

theorem Documented.documentedOverLines (named : name.text = candidate.label)
    (documented : Documented (lex text) before name candidate.kind candidate.documentation)
    (newline : ∃ doc ∈ candidate.documentation, '\n' ∈ doc.toList) :
    candidate.DocumentedOverLines text := by
  cases reads : (Pending.after before).readsParameters with
  | true =>
      obtain ⟨doc, documentation, -⟩ := newline
      rw [(documented.parameter reads).2] at documentation
      cases documentation
  | false =>
      obtain ⟨-, earlier, opener, unique, same⟩ := documented.declared reads
      rw [same] at newline
      exact ⟨before, name, earlier, opener, named, documented, reads, (unique _ _).mpr ⟨rfl, rfl⟩,
        (newline_mem_documentationBehind_iff earlier).mp newline⟩

/-! ## Names -/

theorem explained_of_visible {offset : Nat} {seen : VisibleSymbol}
    (visible : seen ∈ (ScopeTree.ofTokens (lex text)).visible offset) :
    '\n' ∉ seen.symbol.name.toList ∧ ∃ before name, name.text = seen.symbol.name ∧
      Documented (lex text) before name seen.symbol.kind seen.symbol.documentation := by
  obtain ⟨⟨entry, distance⟩, chained, shown⟩ := List.mem_flatMap.mp visible
  obtain ⟨⟨symbol, span⟩, placed, rfl⟩ := List.mem_map.mp shown
  have around := ((surrounds_chain text offset).holds entry).mp (List.fst_mem_of_mem_zipIdx chained)
  have inside : entry ∈ (ScopeTree.ofTokens (lex text)).entries := by
    rcases around with rfl | ⟨inside, -⟩
    · exact List.mem_cons_self
    · exact inside
  obtain ⟨node, within, rfl⟩ := mem_entries.mp inside
  constructor
  · obtain ⟨token, member, identifier, text, -⟩ := (names_ofTokens _ within).named _ placed
    obtain ⟨_, _, -, -, shape⟩ := split_of_mem_lex member
    have parts := shape.isWordPart_of_word (by rw [identifier]; rfl)
    rw [← text]
    exact fun newline => absurd (parts _ newline) (by decide)
  · obtain ⟨symbol, listed, same⟩ := List.mem_map.mp placed
    obtain ⟨rfl, -⟩ := Prod.mk.inj same
    obtain ⟨before, name, named, -, documented⟩ :=
      keeps_explained.within_ofTokens (lex_tiles text) within symbol listed
    exact ⟨before, name, named, documented⟩

/-! ## Words -/

/-- The word goes over one line, and so does what documents it. -/
def VocabularyEntry.OnOneLine (entry : VocabularyEntry) : Prop :=
  '\n' ∉ entry.label.toList ∧ ∀ doc ∈ entry.documentation, '\n' ∉ doc.toList

theorem newline_not_mem_ofList {cs : List Char} (plain : '\n' ∉ cs) :
    '\n' ∉ (String.ofList cs).toList := by
  rwa [String.toList_ofList]

theorem onOneLine_keyword (keyword : Keyword) :
    VocabularyEntry.OnOneLine ⟨keyword.spelling, some keyword.description⟩ := by
  refine ⟨?_, fun doc described => Option.some.inj described ▸ ?_⟩
  · cases keyword <;> exact newline_not_mem_ofList (by decide)
  · cases keyword <;> exact newline_not_mem_ofList (by decide)

theorem onOneLine_type (type : BuiltinType) :
    VocabularyEntry.OnOneLine ⟨type.spelling, some type.description⟩ := by
  refine ⟨?_, fun doc described => Option.some.inj described ▸ ?_⟩
  · cases type <;> exact newline_not_mem_ofList (by decide)
  · cases type <;> exact newline_not_mem_ofList (by decide)

theorem onOneLine_of_listed {config : Config} {entry : VocabularyEntry}
    (listed : entry ∈ (Vocabulary.ofConfig config).keywords ∨ entry ∈ (Vocabulary.ofConfig config).types) :
    entry.OnOneLine ∨
      entry.label ∈ config.extraKeywords ++ config.extraTypes ∧ entry.documentation = none := by
  rcases listed with keyword | type
  · rcases Vocabulary.mem_foldl_add keyword with language | ⟨extra, bare⟩
    · obtain ⟨found, -, rfl⟩ := List.mem_map.mp language
      exact .inl (onOneLine_keyword found)
    · exact .inr ⟨List.mem_append_left _ extra, bare⟩
  · rcases Vocabulary.mem_foldl_add type with language | ⟨extra, bare⟩
    · obtain ⟨found, -, rfl⟩ := List.mem_map.mp language
      exact .inl (onOneLine_type found)
    · exact .inr ⟨List.mem_append_right _ extra, bare⟩

/-! ## Candidates -/

/-- A candidate goes over one line unless it is an extra word that does not or a name whose comments
say several lines. -/
theorem onOneLine_iff {config : Config} {cursor limit : Nat}
    (shown : candidate ∈ complete text (lex text) (.ofTokens (lex text)) cursor (.ofConfig config) limit) :
    candidate.OnOneLine ↔
      ¬candidate.SpelledOverLines config ∧ ¬candidate.DocumentedOverLines text := by
  constructor
  · rintro ⟨label, documentation⟩
    refine ⟨fun spelled => label spelled.2, fun spread => ?_⟩
    obtain ⟨doc, documents, newline⟩ := spread.newline_mem
    exact documentation doc documents newline
  · rintro ⟨unspelled, undocumented⟩
    obtain ⟨context, offer, rank, offered, rfl⟩ :=
      exists_offered_of_mem text _ _ _ shown
    have word {entry : VocabularyEntry} {kind : SymbolKind}
        (listed : entry ∈ (Vocabulary.ofConfig config).keywords ∨
          entry ∈ (Vocabulary.ofConfig config).types)
        (unspelled : ¬Candidate.SpelledOverLines config ⟨entry.label, kind, rank, entry.documentation⟩) :
        Candidate.OnOneLine ⟨entry.label, kind, rank, entry.documentation⟩ := by
      rcases onOneLine_of_listed listed with oneLine | ⟨extra, bare⟩
      · exact oneLine
      · exact ⟨fun newline => unspelled ⟨extra, newline⟩, by simp [bare]⟩
    cases offered with
    | name first =>
        obtain ⟨plain, before, name, named, documented⟩ := explained_of_visible (first.mem)
        refine ⟨plain, fun doc documents newline => undocumented ?_⟩
        exact documented.documentedOverLines named ⟨doc, documents, newline⟩
    | keyword first => exact word (.inl (first.mem)) unspelled
    | type first => exact word (.inr (first.mem)) unspelled

end

end MuCompletion
