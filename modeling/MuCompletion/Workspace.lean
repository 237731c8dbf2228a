import MuCompletion.Completion.Candidate
import MuCompletion.Document.Basic

/-!
# Workspaces

A workspace holds the open documents and the configuration. A request about a document that is not
open, and an edit that does not fit its document, are refused and change nothing.
-/

namespace MuCompletion

/-- The open documents and the settings that they are read with. -/
structure Workspace where
  config : Config
  /-- The words that every completion may offer. -/
  vocabulary : Vocabulary
  /-- The open documents by their ids; an id stands once. -/
  documents : List (String × Document)

namespace Workspace

/-- A workspace without documents. -/
def ofConfig (config : Config) : Workspace :=
  ⟨config, .ofConfig config, []⟩

/-- The open document of an id. -/
def document? (workspace : Workspace) (id : String) : Option Document :=
  workspace.documents.lookup id

/-- The open document of an id, or the reason why there is none. -/
def document (workspace : Workspace) (id : String) : Except RequestError Document :=
  match workspace.document? id with
  | some document => .ok document
  | none => .error (.unknownDocument id)

/-- Whether a document with the id is open. -/
def contains (workspace : Workspace) (id : String) : Bool :=
  (workspace.document? id).isSome

/-- The workspace with a document in place of the one with the same id, if there is one. -/
def put (workspace : Workspace) (id : String) (document : Document) : Workspace :=
  { workspace with
    documents := (id, document) :: workspace.documents.filter (·.1 != id) }

/-- Open a document, or open it again from a new text. -/
def «open» (workspace : Workspace) (id text : String) : Workspace :=
  workspace.put id (.ofText text)

/-- Forget a document. -/
def close (workspace : Workspace) (id : String) : Except RequestError Workspace := do
  let _ ← workspace.document id
  pure { workspace with documents := workspace.documents.filter (·.1 != id) }

/-- Apply an edit to a document. -/
def edit (workspace : Workspace) (id : String) (edit : Edit) :
    Except RequestError (Workspace × EditOutcome) := do
  let document ← workspace.document id
  let (document, outcome) ← document.apply edit workspace.config.incremental
  pure (workspace.put id document, outcome)

/-- The candidates at a cursor in a document. -/
def candidates (workspace : Workspace) (document : Document) (cursor : Nat) : List Candidate :=
  complete document.text document.tokens document.tree cursor workspace.vocabulary
    workspace.config.maxCandidates

/-- The version of a document and the candidates at a cursor in it. -/
def complete (workspace : Workspace) (id : String) (cursor : Nat) :
    Except RequestError (Nat × List Candidate) := do
  let document ← workspace.document id
  pure (document.version, workspace.candidates document cursor)

/-- The version of a document. -/
def version (workspace : Workspace) (id : String) : Except RequestError Nat := do
  pure (← workspace.document id).version

/-- Whether a document is open at exactly this version. -/
def isCurrent (workspace : Workspace) (id : String) (version : Nat) : Bool :=
  match workspace.document? id with
  | some document => document.version == version
  | none => false

end Workspace

end MuCompletion
