import MuCompletion.Document.Basic
import MuCompletion.Proofs.Scope.Reuse

/-! # Documents after edits

A document that was read from its text is, after an edit that fits, the document read from the new
text, one version later. It makes no difference how much of the text the edit made it read again.
-/

namespace MuCompletion

namespace Document

/-- The document of a text at a version. -/
def read (version : Nat) (text : String) : Document :=
  ⟨version, text, lex text, .ofTokens (lex text)⟩

theorem ofText_eq (text : String) : ofText text = read 0 text := rfl

theorem apply_of_splits {edit : Edit} {text : String} {front removed back : List Char}
    (split : edit.Splits text front removed back) (version : Nat) (incremental : Bool) :
    ∃ outcome : EditOutcome, outcome.version = version + 1 ∧
      (read version text).apply edit incremental =
        .ok (read (version + 1) (edit.apply text), outcome) := by
  have fits : edit.fits text = true := Edit.fits_iff.mpr ⟨front, removed, back, split⟩
  have checked : edit.check (read version text).text = .ok () := by
    simp [Edit.check, read, fits]
  simp only [apply, checked, bind, Except.bind]
  simp only [read]
  generalize Region.ofEdit incremental text (some (.ofTokens (lex text))) edit = region
  obtain ⟨splice, spliced⟩ := split.relex_eq region.span
  have tokens : splice.tokens edit.change.delta = lex (edit.apply text) := by
    rw [splice.tokens_eq split.delta_eq, lex, split.toList_apply]
  have tree : ((ScopeTree.ofTokens (lex text)).update (lex (edit.apply text)) splice.relexed.old
      edit.change.delta).tree = .ofTokens (lex (edit.apply text)) := by
    rw [← tokens, lex, split.text, splice.update_eq split.delta_eq, splice.tokens_eq split.delta_eq]
  simp only [spliced, tokens]
  obtain ⟨kind, span⟩ := region
  cases kind with
  | full => exact ⟨_, rfl, rfl⟩
  | line | paragraph =>
      simp only [tree]
      exact ⟨_, rfl, rfl⟩

theorem apply_of_not_fits (document : Document) {edit : Edit}
    (unfit : edit.fits document.text = false) (incremental : Bool) :
    document.apply edit incremental =
      .error (.editOutOfBounds edit.start edit.stop (Text.byteLength document.text.toList)) := by
  simp [apply, Edit.check, unfit, bind, Except.bind]

end Document

end MuCompletion
