import Mathlib.Data.List.Induction
import Mathlib.Tactic.IntervalCases
import MuCompletion.Proofs.Workspace
import MuCompletion.Server.Basic

/-! # Interleaved requests

Requests arrive at any time, and the steps of those that wait are taken in any order. Every text but
the first of an opened document has a greater version than those before it, so a completion whose
version still is the current one answers for the current text, as long as nobody opened the document
again: opening starts over at version zero, and keeps the newest generation.
-/

namespace MuCompletion

/-- A server with the requests that arrived so far. -/
structure Host where
  server : Server
  requests : List Progress

/-- What happens next: a request arrives, or the request at an index takes a step. -/
inductive Event where
  | arrive (request : Request)
  | advance (index : Nat)

namespace Host

def initial : Host :=
  ⟨.initial, []⟩

/-- The host after an event; a request that was answered takes no step. -/
def next (host : Host) : Event → Host
  | .arrive request => { host with requests := host.requests ++ [.waiting (.received request)] }
  | .advance index =>
    match host.requests[index]? with
    | some (.waiting task) =>
      ⟨(host.server.step task).1, host.requests.set index (host.server.step task).2⟩
    | _ => host

def run (host : Host) (events : List Event) : Host :=
  events.foldl next host

def document? (host : Host) (id : String) : Option Document :=
  host.server.workspace.document? id

/-- Whether an event opens the document, or opens it again. -/
def Opens (host : Host) (id : String) : Event → Prop
  | .arrive _ => False
  | .advance index =>
    ∃ text, host.requests[index]? = some (.waiting (.received (.openDocument id text)))

/-- None of the events opens the document. -/
def Undisturbed (id : String) (host : Host) : List Event → Prop
  | [] => True
  | event :: events => ¬host.Opens id event ∧ Undisturbed id (host.next event) events

end Host

/-! ## Versions -/

theorem Document.apply_version {document edited : Document} {edit : Edit} {incremental : Bool}
    {outcome : EditOutcome} (applied : document.apply edit incremental = .ok (edited, outcome)) :
    edited.version = document.version + 1 := by
  cases fits : edit.fits document.text with
  | false => simp [document.apply_of_not_fits fits incremental] at applied
  | true =>
      simp only [Document.apply, Edit.check, fits, if_true, bind, Except.bind, pure, Except.pure,
        Except.ok.injEq, Prod.mk.injEq] at applied
      rw [← applied.1]

namespace Workspace

/-- What is open under the id in the later workspace was open in the earlier one, or has a greater
version than what was. -/
def Grows (id : String) (workspace later : Workspace) : Prop :=
  ∀ document, later.document? id = some document →
    ∃ before, workspace.document? id = some before ∧
      (document = before ∨ before.version < document.version)

theorem Grows.refl (id : String) (workspace : Workspace) : Grows id workspace workspace := by
  intro document found
  exact ⟨document, found, .inl rfl⟩

theorem Grows.trans {id : String} {first second third : Workspace} (grows : Grows id first second)
    (grows' : Grows id second third) : Grows id first third := by
  intro document found
  obtain ⟨between, found, step⟩ := grows' document found
  obtain ⟨before, found, step'⟩ := grows between found
  refine ⟨before, found, ?_⟩
  rcases step with rfl | later
  · exact step'
  · rcases step' with rfl | later'
    · exact .inr later
    · exact .inr (Nat.lt_trans later' later)

theorem grows_edit {id other : String} {workspace edited : Workspace} {edit : Edit}
    {outcome : EditOutcome} (done : workspace.edit id edit = .ok (edited, outcome)) :
    Grows other workspace edited := by
  cases found : workspace.document? id with
  | none => simp [Workspace.edit, document, found, bind, Except.bind] at done
  | some document =>
      cases applied : document.apply edit workspace.config.incremental with
      | error error => simp [Workspace.edit, Workspace.document, found, applied, bind, Except.bind] at done
      | ok result =>
          simp only [Workspace.edit, Workspace.document, found, applied, bind, Except.bind, pure,
            Except.pure, Except.ok.injEq, Prod.mk.injEq] at done
          rw [← done.1]
          intro document' found'
          rw [document?_put] at found'
          split at found'
          · next here =>
              obtain rfl := Option.some.inj found'
              have version := Document.apply_version applied
              exact ⟨document, here ▸ found, .inr (by omega)⟩
          · exact ⟨document', found', .inl rfl⟩

theorem grows_change {id other : String} {workspace changed : Workspace}
    {changes : List ContentChange} (done : workspace.change id changes = .ok changed) :
    Grows other workspace changed := by
  induction changes generalizing workspace with
  | nil =>
      simp only [change, Except.ok.injEq] at done
      rw [← done]
      exact Grows.refl other workspace
  | cons first rest ih =>
      simp only [change, bind, Except.bind] at done
      split at done
      · simp at done
      · split at done
        · simp at done
        · next result edited => exact (grows_edit edited).trans (ih done)

end Workspace

namespace Server

open Workspace

theorem closeDocument_eq (server : Server) (id : String) :
    ∃ workspace, server.closeDocument id = { server with workspace := workspace } ∧
      ∀ other, workspace.document? other =
        if other = id then none else server.workspace.document? other := by
  unfold closeDocument
  cases found : server.workspace.document? id with
  | none =>
      simp only [Workspace.close, Workspace.document, found, bind, Except.bind]
      refine ⟨server.workspace, rfl, fun other => ?_⟩
      split
      · next here => rw [here, found]
      · rfl
  | some document =>
      simp only [Workspace.close, Workspace.document, found, bind, Except.bind, pure, Except.pure]
      exact ⟨_, rfl, document?_filter server.workspace id⟩

theorem grows_closeDocument (server : Server) (id other : String) :
    Grows other server.workspace (server.closeDocument id).workspace := by
  obtain ⟨workspace, closed, documents⟩ := server.closeDocument_eq id
  rw [closed]
  intro document found
  rw [documents] at found
  split at found
  · cases found
  · exact ⟨document, found, .inl rfl⟩

/-- Only opening a document makes it one that was not open before. -/
theorem grows_step (server : Server) (task : Task) (id : String)
    (other : ∀ text, task ≠ .received (.openDocument id text)) :
    Grows id server.workspace (server.step task).1.workspace := by
  cases task with
  | received request =>
      cases request with
      | begin options =>
          simp only [step, receive]
          split
          · intro document found
            simp [reset, Workspace.ofConfig, Workspace.document?] at found
          · exact Grows.refl id server.workspace
      | shutdown => exact Grows.refl id server.workspace
      | openDocument opened text =>
          intro document found
          have elsewhere : id ≠ opened := fun same => other text (same ▸ rfl)
          simp only [step, receive, «open», document?_put, elsewhere, if_false] at found
          exact ⟨document, found, .inl rfl⟩
      | change changed changes =>
          simp only [step, receive]
          split
          · next done => exact grows_change done
          · exact server.grows_closeDocument changed id
      | close closed => exact server.grows_closeDocument closed id
      | completion asked position => exact Grows.refl id server.workspace
  | forget | record | compute => exact Grows.refl id server.workspace
  | look | checkNewest | checkVersion =>
      simp only [step]
      split <;> exact Grows.refl id server.workspace

end Server

namespace Host

open Workspace

theorem run_append (host : Host) (first second : List Event) :
    host.run (first ++ second) = (host.run first).run second :=
  List.foldl_append

theorem grows_run {id : String} {host : Host} {events : List Event}
    (undisturbed : Undisturbed id host events) :
    Grows id host.server.workspace (host.run events).server.workspace := by
  induction events generalizing host with
  | nil => exact Grows.refl id host.server.workspace
  | cons event events ih =>
      obtain ⟨here, later⟩ := undisturbed
      refine Grows.trans ?_ (ih later)
      cases event with
      | arrive request => exact Grows.refl id host.server.workspace
      | advance index =>
          simp only [next]
          split
          · next task waits =>
              refine host.server.grows_step task id fun text same => here ⟨text, ?_⟩
              rw [waits, same]
          · exact Grows.refl id host.server.workspace

/-! ## What was looked at -/

/-- The next step of the request at `index` looks at its document, and finds the one it holds then. -/
def LooksAt (host : Host) (index : Nat) (pending : PendingCompletion) : Prop :=
  host.requests[index]? =
      some (.waiting (.look pending.id pending.position pending.generation)) ∧
    host.document? pending.id = some pending.document

/-- Among the events, the request at `index` looked at its document, and found the one it holds. -/
def LookedAt (events : List Event) (index : Nat) (pending : PendingCompletion) : Prop :=
  ∃ before between, events = before ++ .advance index :: between ∧
    (initial.run before).LooksAt index pending

/-- A request that holds a document has looked at it, and its answer is computed from that alone. -/
def Traced (events : List Event) (index : Nat) : Task → Prop
  | .compute pending => LookedAt events index pending
  | .checkNewest pending answer | .checkVersion pending answer =>
    LookedAt events index pending ∧ answer = pending.answer
  | _ => True

theorem LookedAt.append {events : List Event} {index : Nat} {pending : PendingCompletion}
    (looked : LookedAt events index pending) (event : Event) :
    LookedAt (events ++ [event]) index pending := by
  obtain ⟨before, between, rfl, looks⟩ := looked
  exact ⟨before, between ++ [event], by simp, looks⟩

theorem Traced.append {events : List Event} {index : Nat} {task : Task}
    (traced : Traced events index task) (event : Event) : Traced (events ++ [event]) index task := by
  cases task with
  | compute pending => exact LookedAt.append traced event
  | checkNewest pending answer | checkVersion pending answer =>
      exact ⟨traced.1.append event, traced.2⟩
  | received | forget | record | look => trivial

theorem Traced.step {events : List Event} {index : Nat} {task left : Task}
    (waits : (initial.run events).requests[index]? = some (.waiting task))
    (traced : Traced events index task)
    (stepped : ((initial.run events).server.step task).2 = .waiting left) :
    Traced (events ++ [.advance index]) index left := by
  cases task with
  | received request =>
      cases request with
      | begin options =>
          simp only [Server.step, Server.receive] at stepped
          split at stepped <;> cases stepped
      | shutdown | openDocument => cases stepped
      | change id changes =>
          simp only [Server.step, Server.receive] at stepped
          split at stepped <;> cases stepped
          trivial
      | close | completion =>
          cases stepped
          trivial
  | forget => cases stepped
  | record =>
      cases stepped
      trivial
  | look id position generation =>
      simp only [Server.step] at stepped
      split at stepped
      · cases stepped
      · next document found =>
          cases stepped
          exact ⟨events, [], rfl, waits, found⟩
  | compute pending =>
      cases stepped
      exact ⟨LookedAt.append traced _, rfl⟩
  | checkNewest pending answer =>
      simp only [Server.step] at stepped
      split at stepped <;> cases stepped
      exact traced.append _
  | checkVersion pending answer =>
      simp only [Server.step] at stepped
      split at stepped <;> cases stepped

theorem traced_next {events : List Event}
    (traced : ∀ index task, (initial.run events).requests[index]? = some (.waiting task) →
      Traced events index task) (event : Event) (index : Nat) (task : Task)
    (waits : (initial.run (events ++ [event])).requests[index]? = some (.waiting task)) :
    Traced (events ++ [event]) index task := by
  rw [run_append] at waits
  cases event with
  | arrive request =>
      have arrived : ((initial.run events).requests ++ [.waiting (.received request)])[index]? =
          some (.waiting task) := waits
      rw [List.getElem?_append] at arrived
      split at arrived
      · exact (traced index task arrived).append _
      · cases position : index - (initial.run events).requests.length with
        | zero =>
            simp only [position, List.getElem?_cons_zero, Option.some.injEq, Progress.waiting.injEq] at arrived
            subst arrived
            trivial
        | succ => simp [position] at arrived
  | advance other =>
      have stepped : ((initial.run events).next (.advance other)).requests[index]? =
          some (.waiting task) := waits
      simp only [next] at stepped
      split at stepped
      · next before asked =>
          rw [List.getElem?_set] at stepped
          split at stepped
          · next same =>
              subst same
              split at stepped
              · exact (traced other before asked).step asked (Option.some.inj stepped)
              · cases stepped
          · exact (traced index task stepped).append _
      · exact (traced index task stepped).append _

theorem traced_run (events : List Event) (index : Nat) (task : Task)
    (waits : (initial.run events).requests[index]? = some (.waiting task)) :
    Traced events index task := by
  induction events using List.reverseRecOn generalizing index task with
  | nil => simp [run, initial] at waits
  | append_singleton events event ih => exact traced_next ih event index task waits

/-! ## Delivery -/

/-- The next step of the request at `index`, which is `task`, answers with a list. -/
def Delivers (host : Host) (index : Nat) (task : Task) (list : CompletionList) : Prop :=
  host.requests[index]? = some (.waiting task) ∧
    (host.server.step task).2 = .answered (.completion (some list))

theorem edit_itself {id text : String} {workspace : Workspace} {version : Nat}
    (found : workspace.document id = .ok (.read version text)) :
    ∃ outcome, workspace.edit id ⟨0, Text.byteLength text.toList, text⟩ =
      .ok (workspace.put id (.read (version + 1) text), outcome) := by
  have split : (⟨0, Text.byteLength text.toList, text⟩ : Edit).Splits text [] text.toList [] :=
    ⟨by simp, rfl, by simp⟩
  have same : (⟨0, Text.byteLength text.toList, text⟩ : Edit).apply text = text := by
    apply String.toList_inj.mp
    simp [split.toList_apply]
  obtain ⟨outcome, -, applied⟩ := Document.apply_of_splits split version workspace.config.incremental
  rw [same] at applied
  refine ⟨outcome, ?_⟩
  simp [Workspace.edit, found, applied, bind, Except.bind, pure, Except.pure]

theorem change_replicate {id text : String} {workspace : Workspace} {version : Nat}
    (found : workspace.document? id = some (.read version text)) (count : Nat) :
    ∃ changed, workspace.change id (List.replicate count ⟨none, text⟩) = .ok changed ∧
      changed.document? id = some (.read (version + count) text) := by
  induction count generalizing workspace version with
  | zero => exact ⟨workspace, rfl, found⟩
  | succ count ih =>
      have opened : workspace.document id = .ok (.read version text) := by
        simp [Workspace.document, found]
      obtain ⟨outcome, edited⟩ := edit_itself opened
      have next : (workspace.put id (.read (version + 1) text)).document? id =
          some (.read (version + 1) text) := by
        simp [document?_put]
      obtain ⟨changed, done, last⟩ := ih next
      refine ⟨changed, ?_, ?_⟩
      · rw [List.replicate_succ, change, opened]
        simp only [bind, Except.bind]
        rw [show (Document.read version text).text = text from rfl, edited]
        exact done
      · rw [last, Nat.add_assoc, Nat.add_comm 1 count]

theorem run_handled {host : Host} {request : Request} {server : Server} {reply : Reply}
    (done : host.server.receive request = (server, .answered reply)) :
    host.run [.arrive request, .advance host.requests.length] =
      ⟨server, host.requests ++ [.answered reply]⟩ := by
  simp [run, next, Server.step, done]

/-- Opened again and edited up to the version that was looked at, the document passes for what it was:
the completion of the old text is delivered still. -/
theorem superseded_delivered {host : Host} {index : Nat} {pending : PendingCompletion}
    {list : CompletionList}
    (waits : host.requests[index]? = some (.waiting (.checkVersion pending list))) (text : String) :
    ∃ more, Delivers (host.run more) index (.checkVersion pending list) list ∧
      (host.run more).document? pending.id = some (.read pending.document.version text) := by
  have fresh : (host.server.workspace.open pending.id text).document? pending.id =
      some (.read 0 text) := by
    simp [«open», document?_put, Document.ofText_eq]
  obtain ⟨changed, done, found⟩ := change_replicate fresh pending.document.version
  rw [Nat.zero_add] at found
  let reopened : Server := { host.server with workspace := host.server.workspace.open pending.id text }
  let edited : Server := { reopened with workspace := changed }
  let changes := List.replicate pending.document.version (⟨none, text⟩ : ContentChange)
  have first := @run_handled host (.openDocument pending.id text) reopened .noted rfl
  have second := @run_handled ⟨reopened, host.requests ++ [.answered .noted]⟩
    (.change pending.id changes) edited .noted
    (by simp only [Server.receive, reopened, edited, changes, done])
  have current : edited.workspace.isCurrent pending.id pending.document.version = true := by
    simp [isCurrent, edited, found, Document.read]
  have within := (List.getElem?_eq_some_iff.mp waits).1
  refine ⟨[.arrive (.openDocument pending.id text), .advance host.requests.length] ++
    [.arrive (.change pending.id changes),
      .advance (host.requests ++ [Progress.answered .noted]).length], ?_⟩
  rw [run_append, first, second]
  refine ⟨⟨?_, ?_⟩, found⟩
  · rw [List.append_assoc, List.getElem?_append_left within, waits]
  · simp only [Server.step, current, if_true]

theorem task_of_delivered {server : Server} {task : Task} {list : CompletionList}
    (delivered : (server.step task).2 = .answered (.completion (some list))) :
    ∃ pending, task = .checkVersion pending list ∧
      server.workspace.isCurrent pending.id pending.document.version = true := by
  cases task with
  | received request =>
      cases request with
      | begin | change =>
          simp only [Server.step, Server.receive] at delivered
          split at delivered <;> cases delivered
      | shutdown | openDocument | close | completion => cases delivered
  | forget | record | compute => cases delivered
  | look | checkNewest =>
      simp only [Server.step] at delivered
      split at delivered <;> cases delivered
  | checkVersion pending answer =>
      simp only [Server.step] at delivered
      split at delivered
      · next current =>
          cases delivered
          exact ⟨pending, rfl, current⟩
      · cases delivered

/-- A list that is delivered was computed from the document that is open, unless that document was
opened again after the request looked at it. If it is opened again before the check, the same list may
be delivered for any text. -/
theorem delivered_current_unless_opened {events : List Event} {index : Nat} {task : Task}
    {list : CompletionList} (delivers : Delivers (initial.run events) index task list) :
    ∃ pending before between, task = .checkVersion pending list ∧ list = pending.answer ∧
      events = before ++ .advance index :: between ∧
      (initial.run before).LooksAt index pending ∧
      (Undisturbed pending.id (initial.run (before ++ [.advance index])) between →
        (initial.run events).document? pending.id = some pending.document) ∧
      ∀ text, ∃ more, Delivers (initial.run (events ++ more)) index task list ∧
        (initial.run (events ++ more)).document? pending.id =
          some (.read pending.document.version text) := by
  obtain ⟨waits, answers⟩ := delivers
  obtain ⟨pending, rfl, current⟩ := task_of_delivered answers
  obtain ⟨⟨before, between, whole, asked, found⟩, answered⟩ := traced_run events index _ waits
  refine ⟨pending, before, between, rfl, answered, whole, ⟨asked, found⟩, fun undisturbed => ?_,
    fun text => ?_⟩
  · have unchanged : (initial.run (before ++ [.advance index])).server =
        (initial.run before).server := by
      rw [run_append]
      simp only [run, List.foldl_cons, List.foldl_nil] at asked ⊢
      simp only [next, asked, Server.step]
      split <;> rfl
    have since := grows_run undisturbed
    rw [← run_append, unchanged, List.append_assoc, List.singleton_append, ← whole] at since
    unfold isCurrent at current
    split at current
    · next document open_ =>
        obtain ⟨document', found', grown⟩ := since document open_
        obtain rfl : document' = pending.document := Option.some.inj (found'.symm.trans found)
        have version : document.version = pending.document.version := by simpa using current
        -- Without an opening in between, an equal version means that no edit came in between.
        rcases grown with rfl | later
        · exact open_
        · omega
    · cases current
  · obtain ⟨more, delivered, reopened⟩ := superseded_delivered waits text
    rw [← run_append] at delivered reopened
    exact ⟨more, delivered, reopened⟩

/-- A document is opened and a completion in it looks at it. -/
def looking (id text : String) (position : Text.Position) : List Event :=
  [.arrive (.openDocument id text), .advance 0, .arrive (.completion id position), .advance 1,
    .advance 1, .advance 1]

/-- What that completion holds. -/
def looked (id text : String) (position : Text.Position) : PendingCompletion :=
  ⟨id, 1, .ofText text, position, .ofConfig .default, Config.default.maxCandidates⟩

/-- A text is opened, and the completion comes to its version check. -/
def opening (id text : String) : List Event :=
  [.arrive (.openDocument id text), .advance 2, .advance 1, .advance 1]

/-- Another document is opened between the look and the check. -/
theorem delivered_current_beside :
    let events := looking "a" "let alpha = 1;\nal" ⟨1, 2⟩ ++ opening "b" "let beta = 2;\n"
    let pending := looked "a" "let alpha = 1;\nal" ⟨1, 2⟩
    Delivers (initial.run events) 1 (.checkVersion pending pending.answer) pending.answer ∧
      (initial.run events).document? "a" = some (.ofText "let alpha = 1;\nal") := by
  intro events pending
  have delivers : Delivers (initial.run events) 1 (.checkVersion pending pending.answer)
      pending.answer := ⟨rfl, rfl⟩
  obtain ⟨_, before, between, same, -, whole, ⟨looks, -⟩, current, -⟩ :=
    delivered_current_unless_opened delivers
  obtain ⟨rfl, -⟩ := Task.checkVersion.inj same
  refine ⟨delivers, current ?_⟩
  -- The request looks in the sixth event and in no other.
  obtain ⟨time, here, rfl, rfl⟩ : ∃ time, events[time]? = some (.advance 1) ∧
      before = events.take time ∧ between = events.drop (time + 1) :=
    ⟨before.length, by simp [whole], by simp [whole], by simp [whole]⟩
  have inside : time < 10 := (List.getElem?_eq_some_iff.mp here).1
  have sixth : time = 5 := by
    interval_cases time <;> first | rfl | cases looks
  subst sixth
  refine ⟨not_false, ?_, ?_, ?_, trivial⟩
  · rintro ⟨text, opens⟩
    have other : some (Progress.waiting (.received (.openDocument "b" "let beta = 2;\n"))) =
        some (.waiting (.received (.openDocument "a" text))) := opens
    simp at other
  · rintro ⟨text, opens⟩
    cases opens
  · rintro ⟨text, opens⟩
    cases opens

/-- A list is delivered of a text that was superseded when its document was opened again. -/
theorem not_always_delivered_current :
    ¬∀ (events : List Event) (index : Nat) (task : Task) (list : CompletionList),
      Delivers (initial.run events) index task list →
      ∃ pending document, task = .checkVersion pending list ∧
        (initial.run events).document? pending.id = some document ∧
        document.text = pending.document.text := by
  intro always
  have delivers : Delivers
      (initial.run (looking "file:///tmp/a.mu" "let alpha = 1;\nal" ⟨1, 2⟩ ++
        opening "file:///tmp/a.mu" "let beta = 2;\n")) 1
      (.checkVersion (looked "file:///tmp/a.mu" "let alpha = 1;\nal" ⟨1, 2⟩)
        (looked "file:///tmp/a.mu" "let alpha = 1;\nal" ⟨1, 2⟩).answer)
      (looked "file:///tmp/a.mu" "let alpha = 1;\nal" ⟨1, 2⟩).answer := ⟨rfl, rfl⟩
  obtain ⟨pending, document, same, found, text⟩ := always _ _ _ _ delivers
  obtain ⟨rfl, -⟩ := Task.checkVersion.inj same
  obtain rfl := Option.some.inj found
  exact absurd text (by decide)

end Host

end MuCompletion
