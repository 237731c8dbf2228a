import MuCompletion.Config.Reader
import MuCompletion.Server.Item
import MuCompletion.Text.Position
import MuCompletion.Workspace

/-!
# The language server

The server keeps a workspace, and for each document the generation of its newest completion request.
A request is handled in steps; between two steps other requests may be handled. A completion request
takes a generation, records it, looks at its document, computes, and answers only if its generation
is still the newest and its document still has the version that it looked at.
-/

namespace MuCompletion

/-- The state that requests share. -/
structure Server where
  /-- The open documents and the settings. -/
  workspace : Workspace
  /-- The generation of the newest completion request of each document. -/
  newest : List (String × Nat)
  /-- The last generation that was given out. -/
  lastGeneration : Nat

/-- A change of a document: a range between two positions, or the whole text, is replaced. -/
structure ContentChange where
  /-- The ends of the range, in any order; none for the whole text. -/
  range : Option (Text.Position × Text.Position)
  /-- The text that takes its place. -/
  text : String

/-- What a client asks for. -/
inductive Request where
  /-- Begin, with settings if the client gives any. -/
  | begin (options : Option Json)
  | shutdown
  | openDocument (id text : String)
  | change (id : String) (changes : List ContentChange)
  | close (id : String)
  | completion (id : String) (position : Text.Position)

/-- What a client is told. -/
inductive Reply where
  | capabilities
  | ending
  /-- A notification was taken note of. -/
  | noted
  /-- The completions, or nothing if there is no such document or a later request took over. -/
  | completion (answer : Option CompletionList)

/-- A completion request that has looked at its document. -/
structure PendingCompletion where
  id : String
  generation : Nat
  /-- The document as it was looked at. -/
  document : Document
  position : Text.Position
  /-- The words that were offered when the document was looked at. -/
  vocabulary : Vocabulary
  /-- The limit when the document was looked at. -/
  limit : Nat

namespace PendingCompletion

/-- The completions, computed from what was looked at alone. -/
def answer (pending : PendingCompletion) : CompletionList :=
  let document := pending.document
  let cursor := pending.position.toOffset document.text.toList
  .ofCandidates (complete document.text document.tokens document.tree cursor pending.vocabulary
    pending.limit) pending.limit

end PendingCompletion

/-- What is left to do for a request. -/
inductive Task where
  /-- The request has not been looked at. -/
  | received (request : Request)
  /-- Forget the newest generation of a document that is not open any more. -/
  | forget (id : String)
  /-- Record a generation as the newest of its document. -/
  | record (id : String) (position : Text.Position) (generation : Nat)
  | look (id : String) (position : Text.Position) (generation : Nat)
  | compute (pending : PendingCompletion)
  /-- See whether the generation is still the newest. -/
  | checkNewest (pending : PendingCompletion) (answer : CompletionList)
  /-- See whether the document still has the version that was looked at. -/
  | checkVersion (pending : PendingCompletion) (answer : CompletionList)

namespace Task

/-- A bound on the number of steps that are left. -/
def stepsLeft : Task → Nat
  | received _ => 6
  | forget _ => 1
  | record .. => 5
  | look .. => 4
  | compute _ => 3
  | checkNewest .. => 2
  | checkVersion .. => 1

/-- Whether the task is about to compute completions. -/
def isComputing : Task → Bool
  | compute _ => true
  | _ => false

end Task

/-- How far a request has come. -/
inductive Progress where
  | waiting (task : Task)
  | answered (reply : Reply)

namespace Workspace

/-- Apply changes in order, each to the text that the one before left. -/
def change (workspace : Workspace) (id : String) :
    List ContentChange → Except RequestError Workspace
  | [] => .ok workspace
  | first :: rest => do
    let document ← workspace.document id
    let text := document.text.toList
    let span : Span := match first.range with
      | some (start, stop) => Text.spanBetween text start stop
      | none => ⟨0, Text.byteLength text⟩
    let (workspace, _) ← workspace.edit id ⟨span.start, span.stop, first.text⟩
    workspace.change id rest

end Workspace

namespace Server

def initial : Server :=
  ⟨.ofConfig .default, [], 0⟩

def name : String :=
  "mu-lsp"

def version : String :=
  "0.1.0"

/-- The message that the server sends once it has begun. -/
def greeting : String :=
  "Mu LSP initialized"

def reset (server : Server) (config : Config) : Server :=
  { server with workspace := .ofConfig config }

def closeDocument (server : Server) (id : String) : Server :=
  match server.workspace.close id with
  | .ok workspace => { server with workspace := workspace }
  | .error _ => server

/-- Take the first step of a request. A change that is refused leaves the server without a text that
it can trust, so it closes the document. -/
def receive (server : Server) : Request → Server × Progress
  | .begin options =>
    match options.map Config.ofJson with
    | some (.ok config) => (server.reset config, .answered .capabilities)
    | _ => (server, .answered .capabilities)
  | .shutdown => (server, .answered .ending)
  | .openDocument id text =>
    ({ server with workspace := server.workspace.open id text }, .answered .noted)
  | .change id changes =>
    match server.workspace.change id changes with
    | .ok workspace => ({ server with workspace := workspace }, .answered .noted)
    | .error _ => (server.closeDocument id, .waiting (.forget id))
  | .close id => (server.closeDocument id, .waiting (.forget id))
  | .completion id position =>
    let generation := server.lastGeneration + 1
    ({ server with lastGeneration := generation }, .waiting (.record id position generation))

def step (server : Server) : Task → Server × Progress
  | .received request => server.receive request
  | .forget id =>
    ({ server with newest := server.newest.filter (·.1 != id) }, .answered .noted)
  | .record id position generation =>
    ({ server with newest := (id, generation) :: server.newest.filter (·.1 != id) },
      .waiting (.look id position generation))
  | .look id position generation =>
    match server.workspace.document? id with
    | none => (server, .answered (.completion none))
    | some document =>
      (server, .waiting (.compute ⟨id, generation, document, position,
        server.workspace.vocabulary, server.workspace.config.maxCandidates⟩))
  | .compute pending => (server, .waiting (.checkNewest pending pending.answer))
  | .checkNewest pending answer =>
    if server.newest.lookup pending.id = some pending.generation then
      (server, .waiting (.checkVersion pending answer))
    else (server, .answered (.completion none))
  | .checkVersion pending answer =>
    if server.workspace.isCurrent pending.id pending.document.version then
      (server, .answered (.completion (some answer)))
    else (server, .answered (.completion none))

theorem stepsLeft_step {server next : Server} {task left : Task}
    (h : server.step task = (next, .waiting left)) : left.stepsLeft < task.stepsLeft := by
  cases task with
  | received request =>
    cases request with
    | begin options =>
      simp only [step, receive] at h
      split at h <;> cases h
    | shutdown => cases h
    | openDocument id text => cases h
    | change id changes =>
      simp only [step, receive] at h
      split at h
      · cases h
      · cases h; simp [Task.stepsLeft]
    | close id => cases h; simp [Task.stepsLeft]
    | completion id position => cases h; simp [Task.stepsLeft]
  | forget id => cases h
  | record id position generation => cases h; simp [Task.stepsLeft]
  | look id position generation =>
    simp only [step] at h
    split at h
    · cases h
    · cases h; simp [Task.stepsLeft]
  | compute pending => cases h; simp [Task.stepsLeft]
  | checkNewest pending answer =>
    simp only [step] at h
    split at h
    · cases h; simp [Task.stepsLeft]
    · cases h
  | checkVersion pending answer =>
    simp only [step] at h
    split at h <;> cases h

end Server

end MuCompletion
