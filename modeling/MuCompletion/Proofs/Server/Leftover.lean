import MuCompletion.Proofs.Server.Newest
import MuCompletion.Server.Session

/-! # Generations that are left over

The server records the newest generation of each document that is asked about, and forgets it when the
document is closed, or dropped after a refused change. Two requests do not keep the records to the
open documents: a completion records a generation before it sees that there is no such document, and
new settings drop all documents and no generation. What they leave behind stays until the document is
opened, closed or changed.
-/

namespace MuCompletion

/-- The request opens the document, or forgets its generation if it is not open. -/
def Request.Clears (id : String) : Request → Prop
  | .openDocument other _ | .close other => other = id
  | .change other changes => other = id ∧ changes ≠ []
  | _ => False

/-- The task only looks at the server. -/
def Task.Looks : Task → Prop
  | .look .. | .compute _ | .checkNewest .. | .checkVersion .. => True
  | _ => False

namespace Server

open Workspace

variable {server : Server} {id : String}

/-- Handle requests, each after the one before has been answered. -/
def handleAll (server : Server) (requests : List Request) : Server :=
  requests.foldl (fun server request => (server.handle request).1) server

/-- A generation is recorded for a document that is not open. -/
def Leftover (id : String) (server : Server) : Prop :=
  (server.newest.lookup id).isSome ∧ server.workspace.document? id = none

/-- The request leaves a generation behind: it records one for a document that is not open, or it
drops all documents while one is recorded. -/
def LeavesBehind (id : String) (server : Server) : Request → Prop
  | .completion other _ => other = id ∧ server.workspace.document? id = none
  | .begin options =>
    (∃ config, options.map Config.ofJson = some (.ok config)) ∧ (server.newest.lookup id).isSome
  | _ => False

/-- The server with a new generation recorded for the document. -/
def asked (server : Server) (id : String) : Server :=
  { server with
    lastGeneration := server.lastGeneration + 1
    newest := (id, server.lastGeneration + 1) :: server.newest.filter (·.1 != id) }

/-- What a completion that begins now looks at. -/
def pending (server : Server) (id : String) (document : Document) (position : Text.Position) :
    PendingCompletion :=
  ⟨id, server.lastGeneration + 1, document, position, server.workspace.vocabulary,
    server.workspace.config.maxCandidates⟩

/-! ## What a request leaves of the server -/

theorem step_looks {task : Task} (looks : task.Looks) :
    (server.step task).1 = server ∧
      ∀ left, (server.step task).2 = .waiting left → left.Looks := by
  cases task with
  | received request => exact looks.elim
  | forget other => exact looks.elim
  | record other position generation => exact looks.elim
  | look other position generation =>
      simp only [step]
      split <;> simp [Task.Looks]
  | compute pending => simp [step, Task.Looks]
  | checkNewest pending answer =>
      simp only [step]
      split <;> simp [Task.Looks]
  | checkVersion pending answer =>
      simp only [step]
      split <;> simp

theorem finish_looks {task : Task} (looks : task.Looks) : (server.finish task).1 = server := by
  fun_induction finish server task with
  | case1 server task next reply taken =>
      simpa [taken] using (@step_looks server task looks).1
  | case2 server task next left taken ih =>
      obtain ⟨still, further⟩ := @step_looks server task looks
      rw [taken] at still further
      exact (ih (further left rfl)).trans still

theorem apart_finish {task : Task} (spares : task.Spares id) :
    Apart id server (server.finish task).1 := by
  fun_induction finish server task with
  | case1 server task next reply taken =>
      simpa [taken] using (@step_spares server id task spares).1
  | case2 server task next left taken ih =>
      obtain ⟨apart, further⟩ := @step_spares server id task spares
      rw [taken] at apart further
      exact apart.trans (ih further)

theorem handle_completion (server : Server) (id : String) (position : Text.Position) :
    (server.handle (.completion id position)).1 = server.asked id := by
  have looks : (Task.look id position (server.lastGeneration + 1)).Looks := trivial
  rw [handle, finish_waiting rfl, finish_waiting rfl, finish_looks looks]
  rfl

theorem not_leftover_forget (server : Server) (id : String) :
    ¬((server.closeDocument id).finish (.forget id)).1.Leftover id := by
  rw [finish_answered rfl, Leftover, lookup_filter]
  simp

theorem not_leftover_close (server : Server) (id : String) :
    ¬(server.handle (.close id)).1.Leftover id := by
  rw [handle, finish_waiting rfl]
  exact not_leftover_forget server id

/-- After changes of a document no generation is left over: if it is open it stays open, and else they
are refused. -/
theorem not_leftover_change (server : Server) (id : String) {changes : List ContentChange}
    (some : changes ≠ []) : ¬(server.handle (.change id changes)).1.Leftover id := by
  cases found : server.workspace.document? id with
  | none =>
      have refused := change_of_closed found some
      have begun : server.step (.received (.change id changes)) =
          (server.closeDocument id, .waiting (.forget id)) := by
        simp only [step, receive, refused]
      rw [handle, finish_waiting begun]
      exact not_leftover_forget server id
  | some document =>
      obtain ⟨changed, last, done, opened, -⟩ := change_of_open found changes
      have begun : server.step (.received (.change id changes)) =
          ({ server with workspace := changed }, .answered .noted) := by
        simp only [step, receive, done]
      rw [handle, finish_answered begun, Leftover]
      simp [opened]

theorem not_leftover_open (server : Server) (id text : String) :
    ¬(server.handle (.openDocument id text)).1.Leftover id := by
  rw [handle, finish_answered rfl, Leftover]
  simp [Workspace.open, document?_put]

theorem leftover_completion_iff (server : Server) (id : String) (position : Text.Position) :
    (server.handle (.completion id position)).1.Leftover id ↔
      server.workspace.document? id = none := by
  simp [handle_completion, asked, Leftover]

theorem leftover_begin_iff {options : Option Json} {config : Config}
    (valid : options.map Config.ofJson = some (.ok config)) :
    (server.handle (.begin options)).1.Leftover id ↔ (server.newest.lookup id).isSome := by
  have begun : server.step (.received (.begin options)) =
      (server.reset config, .answered .capabilities) := by
    simp only [step, receive, valid]
  rw [handle, finish_answered begun]
  simp [Leftover, reset, Workspace.ofConfig, Workspace.document?]

/-- What a request leaves over, it leaves behind itself or found left over and did not clear. -/
theorem leftover_handle_iff (request : Request) :
    (server.handle request).1.Leftover id ↔
      server.LeavesBehind id request ∨ server.Leftover id ∧ ¬request.Clears id := by
  by_cases spares : (Task.received request).Spares id
  · have apart : Apart id server (server.handle request).1 := apart_finish spares
    have neither : ¬server.LeavesBehind id request ∧ ¬request.Clears id := by
      cases request <;> simp_all [Task.Spares, LeavesBehind, Request.Clears]
    simp [neither, Leftover, apart.document, apart.newest]
  · cases request with
    | begin options =>
        obtain ⟨config, valid⟩ : ∃ config, options.map Config.ofJson = some (.ok config) := by
          simpa [Task.Spares] using spares
        rw [leftover_begin_iff valid]
        constructor
        · exact fun recorded => .inl ⟨⟨config, valid⟩, recorded⟩
        · rintro (leaves | ⟨leftover, -⟩)
          · exact leaves.2
          · exact leftover.1
    | shutdown => exact absurd trivial spares
    | openDocument other text =>
        obtain rfl : other = id := by simpa [Task.Spares] using spares
        simp [not_leftover_open, LeavesBehind, Request.Clears]
    | change other changes =>
        obtain rfl : other = id := by simpa [Task.Spares] using spares
        by_cases empty : changes = []
        · subst empty
          have same : (server.handle (.change other [])).1 = server := by
            rw [handle, finish_answered rfl]
          simp [same, LeavesBehind, Request.Clears]
        · simp [not_leftover_change server other empty, LeavesBehind, Request.Clears, empty]
    | close other =>
        obtain rfl : other = id := by simpa [Task.Spares] using spares
        simp [not_leftover_close, LeavesBehind, Request.Clears]
    | completion other position =>
        obtain rfl : other = id := by simpa [Task.Spares] using spares
        rw [leftover_completion_iff]
        simp [LeavesBehind, Request.Clears, Leftover]

/-! ## Sequences of requests -/

theorem handleAll_append (server : Server) (first second : List Request) :
    server.handleAll (first ++ second) = (server.handleAll first).handleAll second :=
  List.foldl_append

/-- A generation is left over after a sequence of requests from the start on if and only if one of
them left it behind and none of those after it cleared it. -/
theorem leftover_handleAll_iff (requests : List Request) (id : String) :
    (initial.handleAll requests).Leftover id ↔
      ∃ before leaving after, requests = before ++ leaving :: after ∧
        (initial.handleAll before).LeavesBehind id leaving ∧
        ∀ later ∈ after, ¬later.Clears id := by
  induction requests using List.reverseRecOn with
  | nil => simp [handleAll, initial, Leftover]
  | append_singleton requests last ih =>
      rw [handleAll_append]
      change ((initial.handleAll requests).handle last).1.Leftover id ↔ _
      rw [leftover_handle_iff, ih]
      constructor
      · rintro (leaves | ⟨⟨before, leaving, after, rfl, leaves, keeps⟩, keeps'⟩)
        · exact ⟨requests, last, [], rfl, leaves, by simp⟩
        · refine ⟨before, leaving, after ++ [last], by simp, leaves, ?_⟩
          simpa [or_imp, forall_and] using ⟨keeps, keeps'⟩
      · rintro ⟨before, leaving, after, split, leaves, keeps⟩
        rcases List.eq_nil_or_concat' after with rfl | ⟨after, last', rfl⟩
        · obtain ⟨rfl, same⟩ := List.append_inj' split rfl
          obtain rfl := List.head_eq_of_cons_eq same
          exact .inl leaves
        · rw [← List.cons_append, ← List.append_assoc] at split
          obtain ⟨rfl, same⟩ := List.append_inj' split rfl
          obtain rfl := List.head_eq_of_cons_eq same
          exact .inr ⟨⟨before, leaving, after, rfl, leaves, fun later member =>
            keeps later (List.mem_append_left _ member)⟩, keeps last (by simp)⟩

/-- Not every recorded generation is that of an open document: a completion of a document that was
never opened leaves one over. -/
theorem not_newest_open :
    ¬∀ requests id, ((initial.handleAll requests).newest.lookup id).isSome →
      ∃ document, (initial.handleAll requests).workspace.document? id = some document := by
  intro opened
  have ended : initial.handleAll [.completion "file:///tmp/a.mu" ⟨0, 0⟩] =
      initial.asked "file:///tmp/a.mu" := handle_completion initial "file:///tmp/a.mu" ⟨0, 0⟩
  obtain ⟨document, found⟩ := opened [.completion "file:///tmp/a.mu" ⟨0, 0⟩] "file:///tmp/a.mu"
    (by rw [ended]; rfl)
  rw [ended] at found
  cases found

/-! ## What a generation that is left over lets through -/

theorem begin_computing (server : Server) {task : Task} (computing : task.isComputing = true) :
    server.begin task = (server, .waiting task) := by
  rw [begin, if_pos computing]

theorem begin_answered {next : Server} {task : Task} {reply : Reply}
    (idle : task.isComputing = false) (step : server.step task = (next, .answered reply)) :
    server.begin task = (next, .answered reply) := by
  rw [begin, if_neg (by simp [idle])]
  split <;> simp_all

theorem begin_waiting {next : Server} {task left : Task} (idle : task.isComputing = false)
    (step : server.step task = (next, .waiting left)) : server.begin task = next.begin left := by
  rw [begin, if_neg (by simp [idle])]
  split <;> simp_all

theorem begin_completion {document : Document} (found : server.workspace.document? id = some document)
    (position : Text.Position) :
    server.begin (.received (.completion id position)) =
      (server.asked id, .waiting (.compute (server.pending id document position))) := by
  have looked : (server.asked id).step (.look id position (server.lastGeneration + 1)) =
      (server.asked id, .waiting (.compute (server.pending id document position))) := by
    simp only [step, asked, found, pending]
  rw [begin_waiting rfl rfl, begin_waiting rfl rfl]
  exact (begin_waiting rfl looked).trans (begin_computing _ rfl)

theorem finish_compute {pending : PendingCompletion}
    (newest : server.newest.lookup pending.id = some pending.generation)
    (current : server.workspace.isCurrent pending.id pending.document.version = true) :
    server.finish (.compute pending) = (server, .completion (some pending.answer)) := by
  have passes : server.step (.checkNewest pending pending.answer) =
      (server, .waiting (.checkVersion pending pending.answer)) := by
    simp only [step, newest, if_true]
  have answers : server.step (.checkVersion pending pending.answer) =
      (server, .answered (.completion (some pending.answer))) := by
    simp only [step, current, if_true]
  rw [finish_waiting rfl, finish_waiting passes, finish_answered answers]

/-- A document is asked about, dropped by new settings and opened anew, all before the answer is
computed. Its generation is left over, and a new document has the version of one that was never
changed, so the answer is sent although it is about the dropped text. -/
theorem handleBatch_dropped {document : Document}
    (found : server.workspace.document? id = some document) (unchanged : document.version = 0)
    {options : Json} {config : Config} (valid : Config.ofJson options = .ok config)
    (position : Text.Position) (text : String) :
    (server.handleBatch
        [.completion id position, .begin (some options), .openDocument id text]).2 =
      [.completion (some (server.pending id document position).answer), .capabilities, .noted] := by
  have drops : (server.asked id).begin (.received (.begin (some options))) =
      ((server.asked id).reset config, .answered .capabilities) :=
    begin_answered rfl (by simp only [step, receive, Option.map_some, valid])
  have opens := @begin_answered ((server.asked id).reset config) _
    (.received (.openDocument id text)) _ rfl rfl
  have newest : ((server.asked id).reset config).newest.lookup id =
      some (server.lastGeneration + 1) := by
    simp [asked, reset]
  have current : ((Workspace.ofConfig config).open id text).isCurrent id document.version = true := by
    simp [isCurrent, Workspace.open, document?_put, Document.ofText, unchanged]
  simp only [handleBatch, inTurn, begin_completion found, drops, opens, conclude]
  rw [finish_compute newest current]

end Server

end MuCompletion
