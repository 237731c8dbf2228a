import Mathlib.Data.List.Nodup
import MuCompletion.Proofs.Server.Interleaving

/-! # The lock of the newest generations

The newest generations are recorded, looked up and forgotten under one lock. A request that comes to
such a step asks for the lock at once, with nothing awaited in between, and the lock is handed on in the
order in which it was asked for. So the requests that need the lock stand in a queue, which they join at
the end in the step before, and only the first of them goes on. Generations are taken in the step that
joins the queue, and therefore are recorded in the order in which they were taken.
-/

namespace MuCompletion

/-- Whether the task is done under the lock. -/
def Task.locks : Task → Bool
  | forget _ | record .. | checkNewest .. => true
  | received _ | look .. | compute _ | checkVersion .. => false

def Progress.locks : Progress → Bool
  | waiting task => task.locks
  | answered _ => false

namespace Host

/-- Whether the next step of the request at an index needs the lock. -/
def awaits (host : Host) (index : Nat) : Bool :=
  host.requests[index]?.any Progress.locks

theorem any_arrive (host : Host) (request : Request) (index : Nat) {holds : Progress → Bool}
    (fresh : holds (.waiting (.received request)) = false) :
    (host.next (.arrive request)).requests[index]?.any holds = host.requests[index]?.any holds := by
  simp only [next, List.getElem?_append]
  split
  · rfl
  · next beyond =>
      rw [List.getElem?_singleton, List.getElem?_eq_none (Nat.le_of_not_lt beyond)]
      split
      · exact fresh
      · rfl

theorem getElem?_advance (host : Host) {index other : Nat} (differ : index ≠ other) :
    (host.next (.advance index)).requests[other]? = host.requests[other]? := by
  simp only [next]
  split
  · exact List.getElem?_set_ne differ
  · rfl

end Host

/-- A host whose requests wait for the lock in a queue. -/
structure Queued where
  host : Host
  queue : List Nat
  once : queue.Nodup
  mem_queue : ∀ index, index ∈ queue ↔ host.awaits index = true

namespace Queued

/-- Whether an event can happen: a step that needs the lock waits until its request is the first. -/
def happens (queued : Queued) : Event → Bool
  | .arrive _ => true
  | .advance index => !queued.host.awaits index || queued.queue.head? == some index

/-- The queue after an event. Who takes a step leaves the queue, and joins it at the end if the step
after that needs the lock. -/
def queueAfter (queued : Queued) : Event → List Nat
  | .arrive _ => queued.queue
  | .advance index =>
    queued.queue.filter (· != index) ++ [index].filter (queued.host.next (.advance index)).awaits

theorem nodup_queueAfter (queued : Queued) (event : Event) : (queued.queueAfter event).Nodup := by
  cases event with
  | arrive request => exact queued.once
  | advance index =>
      refine List.nodup_append.mpr ⟨queued.once.filter _, List.Nodup.filter _ (by simp), ?_⟩
      rintro other stays _ joins rfl
      obtain rfl := List.mem_singleton.mp (List.mem_filter.mp joins).1
      simpa using (List.mem_filter.mp stays).2

theorem mem_queueAfter (queued : Queued) (event : Event) (index : Nat) :
    index ∈ queued.queueAfter event ↔ (queued.host.next event).awaits index = true := by
  cases event with
  | arrive request =>
      rw [queueAfter, queued.mem_queue, Host.awaits, Host.awaits, Host.any_arrive _ _ _ rfl]
  | advance other =>
      rw [queueAfter, List.mem_append, List.mem_filter, List.mem_filter, List.mem_singleton]
      by_cases here : index = other
      · simp [here]
      · rw [Host.awaits, Host.getElem?_advance _ (Ne.symm here), ← Host.awaits, queued.mem_queue]
        simp [here]

/-- The lock stops nobody for ever: as long as a request waits, some request can take a step. -/
theorem exists_happens (queued : Queued) {index : Nat} {task : Task}
    (waits : queued.host.requests[index]? = some (.waiting task)) :
    ∃ first left, queued.host.requests[first]? = some (.waiting left) ∧
      queued.happens (.advance first) = true := by
  by_cases awaits : queued.host.awaits index = true
  · have some := List.ne_nil_of_mem ((queued.mem_queue index).mpr awaits)
    obtain ⟨first, rest, whole⟩ := List.exists_cons_of_ne_nil some
    have member : first ∈ queued.queue := whole ▸ List.mem_cons_self
    obtain ⟨progress, here, locks⟩ :=
      (Option.any_eq_true _ _).mp ((queued.mem_queue first).mp member)
    cases progress with
    | waiting left => exact ⟨first, left, here, by simp [happens, whole]⟩
    | answered reply => cases locks
  · exact ⟨index, task, waits, by simp [happens, awaits]⟩

/-- The state after an event; what cannot happen does nothing. -/
def next (queued : Queued) (event : Event) : Queued :=
  if queued.happens event then
    ⟨queued.host.next event, queued.queueAfter event, queued.nodup_queueAfter event,
      queued.mem_queueAfter event⟩
  else queued

def run (queued : Queued) (events : List Event) : Queued :=
  events.foldl next queued

/-- Those of the events that happen. -/
def heard (queued : Queued) : List Event → List Event
  | [] => []
  | event :: events =>
    if queued.happens event then event :: (queued.next event).heard events
    else queued.heard events

/-- With the lock, the host runs as it does without, by the events that happen. -/
theorem host_run (queued : Queued) (events : List Event) :
    (queued.run events).host = queued.host.run (queued.heard events) := by
  induction events generalizing queued with
  | nil => rfl
  | cons event events ih =>
      rw [run, List.foldl_cons, heard]
      by_cases happens : queued.happens event = true
      · have stepped : (queued.next event).host = queued.host.next event := by
          rw [next, if_pos happens]
        rw [if_pos happens, Host.run, List.foldl_cons, ← stepped]
        exact ih (queued.next event)
      · rw [if_neg happens, next, if_neg happens]
        exact ih queued

end Queued

/-! ## What requests did -/

namespace Host

/-- What one step of the request at an index is noted as, if it is noted. -/
def noted (index : Nat) (number : Option Nat) : List (Nat × Nat) :=
  (number.map (index, ·)).toList

/-- The steps of a run that `pick` picks, each with its request and the number it was picked for, in
order. -/
def picked (pick : Server → Task → Option Nat) (host : Host) : List Event → List (Nat × Nat)
  | [] => []
  | .arrive request :: events => picked pick (host.next (.arrive request)) events
  | .advance index :: events =>
    (match host.requests[index]? with
      | some (.waiting task) => noted index (pick host.server task)
      | _ => []) ++ picked pick (host.next (.advance index)) events

/-- The generation that a step takes for a completion of the document. -/
def takes (id : String) (server : Server) : Task → Option Nat
  | .received (.completion asked _) => if asked = id then some (server.lastGeneration + 1) else none
  | _ => none

/-- The generation that a step records for the document. -/
def records (id : String) : Task → Option Nat
  | .record asked _ generation => if asked = id then some generation else none
  | _ => none

/-- The requests that took a generation for the document, with it, in order. -/
def taken (host : Host) (id : String) (events : List Event) : List (Nat × Nat) :=
  host.picked (takes id) events

/-- The requests that recorded a generation for the document, with it, in order. -/
def recorded (host : Host) (id : String) (events : List Event) : List (Nat × Nat) :=
  host.picked (fun _ => records id) events

theorem picked_append (pick : Server → Task → Option Nat) (host : Host) (first second : List Event) :
    host.picked pick (first ++ second) =
      host.picked pick first ++ (host.run first).picked pick second := by
  induction first generalizing host with
  | nil => rfl
  | cons event first ih =>
      cases event <;> simp [picked, ih, run]

theorem next_of_waiting {host : Host} {index : Nat} {task : Task}
    (waits : host.requests[index]? = some (.waiting task)) :
    host.next (.advance index) =
      ⟨(host.server.step task).1, host.requests.set index (host.server.step task).2⟩ := by
  simp only [next, waits]

theorem next_of_idle {host : Host} {index : Nat}
    (idle : ∀ task, host.requests[index]? ≠ some (.waiting task)) :
    host.next (.advance index) = host := by
  match found : host.requests[index]? with
  | some (.waiting task) => exact absurd found (idle task)
  | some (.answered _) | none => simp only [next, found]

theorem picked_of_waiting {host : Host} {index : Nat} {task : Task}
    (pick : Server → Task → Option Nat) (waits : host.requests[index]? = some (.waiting task)) :
    host.picked pick [.advance index] = noted index (pick host.server task) := by
  simp only [picked, waits, List.append_nil]

theorem picked_of_idle {host : Host} {index : Nat} (pick : Server → Task → Option Nat)
    (idle : ∀ task, host.requests[index]? ≠ some (.waiting task)) :
    host.picked pick [.advance index] = [] := by
  match found : host.requests[index]? with
  | some (.waiting task) => exact absurd found (idle task)
  | some (.answered _) | none => simp only [picked, found, List.append_nil]

theorem run_concat (host : Host) (events : List Event) (event : Event) :
    host.run (events ++ [event]) = (host.run events).next event :=
  host.run_append events [event]

end Host

/-! ## The order of recording -/

/-- Whether the next step records a generation for the document. -/
def Progress.isRecording (id : String) : Progress → Bool
  | waiting task => (Host.records id task).isSome
  | answered _ => false

namespace Host

variable {host : Host} {id : String} {index : Nat}

/-- Whether the request at an index is about to record a generation for the document. -/
def isRecording (host : Host) (id : String) (index : Nat) : Bool :=
  host.requests[index]?.any (Progress.isRecording id)

theorem awaits_of_isRecording (recording : host.isRecording id index = true) :
    host.awaits index = true := by
  rw [isRecording, Option.any_eq_true] at recording
  obtain ⟨progress, here, recording⟩ := recording
  rw [awaits, here]
  match progress with
  | .waiting (.record ..) => rfl
  | .waiting (.received _) | .waiting (.forget _) | .waiting (.look ..) | .waiting (.compute _)
  | .waiting (.checkNewest ..) | .waiting (.checkVersion ..) | .answered _ => cases recording

theorem isRecording_of_waiting {task : Task}
    (waits : host.requests[index]? = some (.waiting task)) :
    host.isRecording id index = (records id task).isSome := by
  rw [isRecording, waits, Option.any_some, Progress.isRecording]

theorem isRecording_of_idle (idle : ∀ task, host.requests[index]? ≠ some (.waiting task)) :
    host.isRecording id index = false := by
  match found : host.requests[index]? with
  | some (.waiting task) => exact absurd found (idle task)
  | some (.answered _) | none => simp [isRecording, found, Progress.isRecording]

/-- A request comes to record a generation in the step that takes one, and in no other. -/
theorem isRecording_step (id : String) (server : Server) (task : Task) :
    (server.step task).2.isRecording id = (takes id server task).isSome := by
  cases task with
  | received request =>
      cases request with
      | begin | change =>
          simp only [Server.step, Server.receive]
          split <;> rfl
      | shutdown | openDocument | close | completion => rfl
  | forget | record | compute => rfl
  | look | checkNewest | checkVersion =>
      simp only [Server.step]
      split <;> rfl

theorem map_fst_noted (index : Nat) (number : Option Nat) :
    (noted index number).map (·.1) = if number.isSome then [index] else [] := by
  cases number <;> rfl

theorem map_fst_recorded (host : Host) (id : String) (index : Nat) :
    (host.recorded id [.advance index]).map (·.1) =
      if host.isRecording id index then [index] else [] := by
  rw [recorded]
  by_cases waiting : ∃ task, host.requests[index]? = some (.waiting task)
  · obtain ⟨task, waits⟩ := waiting
    rw [picked_of_waiting _ waits, map_fst_noted, isRecording_of_waiting waits]
  · have idle := not_exists.mp waiting
    rw [picked_of_idle _ idle, isRecording_of_idle idle]
    rfl

theorem map_fst_taken (host : Host) (id : String) (index : Nat) :
    (host.taken id [.advance index]).map (·.1) =
      if (host.next (.advance index)).isRecording id index then [index] else [] := by
  rw [taken]
  by_cases waiting : ∃ task, host.requests[index]? = some (.waiting task)
  · obtain ⟨task, waits⟩ := waiting
    have inside := (List.getElem?_eq_some_iff.mp waits).1
    rw [picked_of_waiting _ waits, map_fst_noted, next_of_waiting waits, isRecording,
      List.getElem?_set_self inside, Option.any_some, isRecording_step]
  · have idle := not_exists.mp waiting
    rw [picked_of_idle _ idle, next_of_idle idle, isRecording_of_idle idle]
    rfl

end Host

namespace Queued

/-- The requests that are about to record a generation for the document, in the order of the queue. -/
def recording (queued : Queued) (id : String) : List Nat :=
  queued.queue.filter (queued.host.isRecording id)

variable {queued : Queued} {id : String} {index : Nat} {event : Event}

theorem recording_queueAfter (queued : Queued) (id : String) (index : Nat) :
    (queued.queueAfter (.advance index)).filter
        ((queued.host.next (.advance index)).isRecording id) =
      (queued.recording id).filter (· != index) ++
        if (queued.host.next (.advance index)).isRecording id index then [index] else [] := by
  simp only [queueAfter, recording, List.filter_append, List.filter_filter]
  congr 1
  · refine List.filter_congr fun other _ => ?_
    by_cases here : other = index
    · simp [here]
    · rw [Host.isRecording, Host.isRecording, Host.getElem?_advance _ (Ne.symm here), Bool.and_comm]
  · by_cases records : (queued.host.next (.advance index)).isRecording id index = true
    · simp [records, Host.awaits_of_isRecording records]
    · simp [records]

theorem recording_split (happens : queued.happens (.advance index) = true) :
    queued.recording id = (if queued.host.isRecording id index then [index] else []) ++
      (queued.recording id).filter (· != index) := by
  have stays {others : List Nat} (absent : index ∉ others) :
      (others.filter (queued.host.isRecording id)).filter (· != index) =
        others.filter (queued.host.isRecording id) := by
    refine List.filter_eq_self.mpr fun other member => ?_
    rw [bne_iff_ne]
    rintro rfl
    exact absent (List.mem_filter.mp member).1
  by_cases awaits : queued.host.awaits index = true
  · have first : queued.queue.head? = some index := by simpa [Queued.happens, awaits] using happens
    obtain ⟨rest, whole⟩ := List.head?_eq_some_iff.mp first
    have once := queued.once
    rw [whole, List.nodup_cons] at once
    rw [recording, whole]
    by_cases records : queued.host.isRecording id index = true <;> simp [records, stays once.1]
  · have absent := mt (queued.mem_queue index).mp awaits
    have quiet := mt (@Host.awaits_of_isRecording queued.host id index) awaits
    rw [if_neg quiet, recording, stays absent, List.nil_append]

theorem next_law (happens : queued.happens event = true) :
    (queued.host.recorded id [event]).map (·.1) ++ (queued.next event).recording id =
      queued.recording id ++ (queued.host.taken id [event]).map (·.1) := by
  have after : (queued.next event).recording id =
      (queued.queueAfter event).filter ((queued.host.next event).isRecording id) := by
    rw [next, if_pos happens, recording]
  cases event with
  | arrive request =>
      have same : (queued.host.next (.arrive request)).isRecording id = queued.host.isRecording id :=
        funext fun index => queued.host.any_arrive request index rfl
      rw [after, same]
      simp [Host.recorded, Host.taken, Host.picked, queueAfter, recording]
  | advance index =>
      rw [after, recording_queueAfter, Host.map_fst_recorded, Host.map_fst_taken, ← List.append_assoc,
        ← recording_split happens]

/-- Generations of a document are recorded in the order in which they were taken: over a run, who has
recorded and then who is about to are who was about to and then who took a generation. -/
theorem run_law (queued : Queued) (id : String) (events : List Event) :
    (queued.host.recorded id (queued.heard events)).map (·.1) ++ (queued.run events).recording id =
      queued.recording id ++ (queued.host.taken id (queued.heard events)).map (·.1) := by
  induction events generalizing queued with
  | nil => simp [Host.recorded, Host.taken, heard, Host.picked, run]
  | cons event events ih =>
      rw [heard, run, List.foldl_cons, ← run]
      by_cases happens : queued.happens event = true
      · have stepped : queued.host.run [event] = (queued.next event).host := by
          rw [next, if_pos happens]
          rfl
        have here := @next_law queued id event happens
        have later := ih (queued.next event)
        simp only [Host.recorded, Host.taken] at here later ⊢
        rw [if_pos happens, ← List.singleton_append, Host.picked_append, Host.picked_append, stepped,
          List.map_append, List.map_append, List.append_assoc, later, ← List.append_assoc, here,
          List.append_assoc]
      · rw [if_neg happens, next, if_neg happens]
        exact ih queued

end Queued

end MuCompletion
