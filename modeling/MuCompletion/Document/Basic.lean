import MuCompletion.Document.Region
import MuCompletion.Scope.Reuse
import MuCompletion.Token.Relex

/-!
# Documents

An open document is a text with its tokens and its scope tree. An edit brings all three up to date
together and counts the version up. A document is a value: whoever keeps one keeps that version.
-/

namespace MuCompletion

/-- One version of an open document. -/
structure Document where
  /-- The number of edits since the document was opened. -/
  version : Nat
  text : String
  tokens : List Token
  tree : ScopeTree

/-- What an edit did to a document. -/
structure EditOutcome where
  version : Nat
  region : Region
  relexed : Relexed
  /-- The scopes that the new version shares with the old one, by their new and old numbers. -/
  shared : List (Nat × Nat)

namespace Document

/-- Read a document from its text. -/
def ofText (text : String) : Document :=
  let tokens := lex text
  ⟨0, text, tokens, .ofTokens tokens⟩

/-- Apply an edit. An edit that does not fit the text leaves the document alone. -/
def apply (document : Document) (edit : Edit) (incremental : Bool) :
    Except RequestError (Document × EditOutcome) := do
  edit.check document.text
  let region := Region.ofEdit incremental document.text (some document.tree) edit
  let text := edit.apply document.text
  let change := edit.change
  let (relexed, tokens) := relex document.tokens text change region.span
  let update : ScopeUpdate := match region.kind with
    | .full => ⟨.ofTokens tokens, []⟩
    | .line | .paragraph => document.tree.update tokens relexed.old change.delta
  let version := document.version + 1
  pure (⟨version, text, tokens, update.tree⟩, ⟨version, region, relexed, update.shared⟩)

end Document

end MuCompletion
