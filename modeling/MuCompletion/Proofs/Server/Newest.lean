import Mathlib.Data.List.Nodup
import Mathlib.Tactic.IntervalCases
import MuCompletion.Proofs.Server.Change
import MuCompletion.Proofs.Server.Lock

/-! # The newest of several requests

Several completions of one document are in flight, and each has recorded its generation before any of
them looks for the newest one. In every order of their steps exactly one then answers with a list: the
last to record. Since generations are recorded under a lock that is handed on in turn, the last to
record is the one that holds the highest generation.
-/

namespace MuCompletion

/-! ## Requests on other documents -/

/-- The task is on another document, or on none, and does not drop the documents. -/
def Task.Spares (id : String) : Task → Prop
  | .received (.begin options) => ∀ config, options.map Config.ofJson ≠ some (.ok config)
  | .received .shutdown => True
  | .received (.openDocument other _) | .received (.change other _) | .received (.close other)
  | .received (.completion other _) => other ≠ id
  | .forget other | .record other _ _ | .look other _ _ => other ≠ id
  | .compute pending | .checkNewest pending _ | .checkVersion pending _ => pending.id ≠ id

def Progress.Spares (id : String) : Progress → Prop
  | .waiting task => task.Spares id
  | .answered _ => True

namespace Server

open Workspace

variable {server : Server} {id : String} {task : Task}

/-- What a step leaves of a document that it is not on. -/
structure Apart (id : String) (server next : Server) : Prop where
  document : next.workspace.document? id = server.workspace.document? id
  newest : next.newest.lookup id = server.newest.lookup id
  later : server.lastGeneration ≤ next.lastGeneration

theorem Apart.refl (id : String) (server : Server) : Apart id server server :=
  ⟨rfl, rfl, Nat.le_refl _⟩

theorem Apart.trans {middle last : Server} (first : Apart id server middle)
    (second : Apart id middle last) : Apart id server last :=
  ⟨second.document.trans first.document, second.newest.trans first.newest,
    Nat.le_trans first.later second.later⟩

theorem apart_closeDocument {other : String} (elsewhere : other ≠ id) :
    Apart id server (server.closeDocument other) := by
  obtain ⟨workspace, closed, documents⟩ := closeDocument_eq server other
  rw [closed]
  exact ⟨by rw [documents, if_neg elsewhere.symm], rfl, Nat.le_refl _⟩

theorem document?_change {workspace changed : Workspace} {other : String}
    {changes : List ContentChange} (elsewhere : other ≠ id)
    (done : workspace.change other changes = .ok changed) :
    changed.document? id = workspace.document? id := by
  cases found : workspace.document? other with
  | none =>
      cases changes with
      | nil =>
          obtain rfl := Except.ok.inj done
          rfl
      | cons first rest =>
          rw [change_of_closed found (List.cons_ne_nil first rest)] at done
          cases done
  | some document =>
      obtain ⟨changed', last, done', -, -, -, beside⟩ := change_of_open found changes
      obtain rfl := Except.ok.inj (done.symm.trans done')
      exact beside.others id elsewhere.symm

theorem step_spares (spares : task.Spares id) :
    Apart id server (server.step task).1 ∧ (server.step task).2.Spares id := by
  have still := Apart.refl id server
  cases task with
  | received request =>
      cases request with
      | begin options =>
          simp only [step, receive]
          split
          · next config valid => exact absurd valid (spares config)
          · exact ⟨still, trivial⟩
      | shutdown => exact ⟨still, trivial⟩
      | openDocument other text =>
          have elsewhere : id ≠ other := Ne.symm spares
          refine ⟨⟨?_, rfl, Nat.le_refl _⟩, trivial⟩
          simp only [step, receive, «open», document?_put, elsewhere, if_false]
      | change other changes =>
          simp only [step, receive]
          split
          · next changed done => exact ⟨⟨document?_change spares done, rfl, Nat.le_refl _⟩, trivial⟩
          · exact ⟨apart_closeDocument spares, spares⟩
      | close other => exact ⟨apart_closeDocument spares, spares⟩
      | completion other position => exact ⟨⟨rfl, rfl, Nat.le_succ _⟩, spares⟩
  | forget other =>
      have elsewhere : id ≠ other := Ne.symm spares
      refine ⟨⟨rfl, ?_, Nat.le_refl _⟩, trivial⟩
      simp only [step, lookup_filter, elsewhere, if_false]
  | record other position generation =>
      have elsewhere : id ≠ other := Ne.symm spares
      refine ⟨⟨rfl, ?_, Nat.le_refl _⟩, spares⟩
      simp only [step, List.lookup_cons, beq_eq_false_iff_ne.mpr elsewhere, lookup_filter, elsewhere,
        if_false]
  | look other position generation =>
      simp only [step]
      split
      · exact ⟨still, trivial⟩
      · exact ⟨still, spares⟩
  | compute pending => exact ⟨still, spares⟩
  | checkNewest pending answer =>
      simp only [step]
      split
      · exact ⟨still, spares⟩
      · exact ⟨still, trivial⟩
  | checkVersion pending answer =>
      simp only [step]
      split <;> exact ⟨still, trivial⟩

end Server

namespace Host

theorem takes_of_spares {id : String} {server : Server} {task : Task} (spares : task.Spares id) :
    takes id server task = none := by
  unfold takes
  split
  · exact if_neg spares
  · rfl

theorem records_of_spares {id : String} {task : Task} (spares : task.Spares id) :
    records id task = none := by
  unfold records
  split
  · exact if_neg spares
  · rfl

/-- The request at an index is a completion of the document that nothing has been done for. -/
def Asks (host : Host) (id : String) (index : Nat) : Prop :=
  ∃ position, host.requests[index]? = some (.waiting (.received (.completion id position)))

/-- All requests that ask are among those noted. -/
def Everyone (asks : Nat → Prop) (noted : List (Nat × Nat)) : Prop :=
  ∀ index, asks index → index ∈ noted.map (·.1)

/-- Completions of an open document, with no other request on it; all of them have recorded their
generations before one looks for the newest. -/
structure Race (host : Host) (id : String) (events : List Event) : Prop where
  opened : ∃ document, host.document? id = some document
  waiting : ∀ index progress, host.requests[index]? = some progress →
    host.Asks id index ∨ progress.Spares id
  arriving : ∀ request, .arrive request ∈ events → (Task.received request).Spares id
  together : ∀ time index pending answer, events[time]? = some (.advance index) →
    (host.run (events.take time)).requests[index]? = some (.waiting (.checkNewest pending answer)) →
    pending.id = id → Everyone (host.Asks id) (host.recorded id (events.take time))

/-- Every completion of the document has its answer. -/
def Settled (host : Host) (id : String) (events : List Event) : Prop :=
  ∀ index, host.Asks id index → ∃ reply, (host.run events).requests[index]? = some (.answered reply)

theorem Race.of_append {host : Host} {id : String} {events more : List Event}
    (race : Race host id (events ++ more)) : Race host id events := by
  refine ⟨race.opened, race.waiting, fun request mem => race.arriving request ?_, ?_⟩
  · exact List.mem_append_left more mem
  · intro time index pending answer here
    obtain ⟨early, -⟩ := List.getElem?_eq_some_iff.mp here
    have same : (events ++ more).take time = events.take time :=
      List.take_append_of_le_length (Nat.le_of_lt early)
    have now := race.together time index pending answer
      (by rw [List.getElem?_append_left early, here])
    rwa [same] at now

/-! ## Generations -/

/-- What was taken and recorded, and what the server keeps of it. -/
structure Ledger (asks : Nat → Prop) (id : String) (taken recorded : List (Nat × Nat))
    (server : Server) : Prop where
  asked : ∀ entry ∈ taken, asks entry.1
  once : (taken.map (·.1)).Nodup
  ascending : taken.Pairwise fun earlier later => earlier.2 < later.2
  bounded : ∀ entry ∈ taken, entry.2 ≤ server.lastGeneration
  held : ∀ entry ∈ recorded, entry ∈ taken
  newest : ∀ entry, recorded.getLast? = some entry → server.newest.lookup id = some entry.2

namespace Ledger

variable {asks : Nat → Prop} {id : String} {taken recorded : List (Nat × Nat)} {server next : Server}

theorem apart (ledger : Ledger asks id taken recorded server) (apart : Server.Apart id server next) :
    Ledger asks id taken recorded next where
  asked := ledger.asked
  once := ledger.once
  ascending := ledger.ascending
  bounded entry mem := Nat.le_trans (ledger.bounded entry mem) apart.later
  held := ledger.held
  newest entry last := apart.newest.trans (ledger.newest entry last)

theorem take (ledger : Ledger asks id taken recorded server) {index : Nat} (here : asks index)
    (fresh : index ∉ taken.map (·.1)) :
    Ledger asks id (taken ++ [(index, server.lastGeneration + 1)]) recorded
      { server with lastGeneration := server.lastGeneration + 1 } where
  asked entry mem := by
    rcases List.mem_append.mp mem with mem | mem
    · exact ledger.asked entry mem
    · obtain rfl := List.mem_singleton.mp mem
      exact here
  once := by
    rw [List.map_append]
    refine List.nodup_append.mpr ⟨ledger.once, by simp, ?_⟩
    rintro other mem last same rfl
    obtain rfl := List.mem_singleton.mp same
    exact fresh mem
  ascending := by
    refine List.pairwise_append.mpr ⟨ledger.ascending, by simp, ?_⟩
    intro entry mem last same
    obtain rfl := List.mem_singleton.mp same
    exact Nat.lt_succ_of_le (ledger.bounded entry mem)
  bounded entry mem := by
    rcases List.mem_append.mp mem with mem | mem
    · exact Nat.le_succ_of_le (ledger.bounded entry mem)
    · obtain rfl := List.mem_singleton.mp mem
      exact Nat.le_refl _
  held entry mem := List.mem_append_left _ (ledger.held entry mem)
  newest := ledger.newest

theorem record (ledger : Ledger asks id taken recorded server) {index generation : Nat}
    (took : (index, generation) ∈ taken) :
    Ledger asks id taken (recorded ++ [(index, generation)])
      { server with newest := (id, generation) :: server.newest.filter (·.1 != id) } where
  asked := ledger.asked
  once := ledger.once
  ascending := ledger.ascending
  bounded := ledger.bounded
  held entry mem := by
    rcases List.mem_append.mp mem with mem | mem
    · exact ledger.held entry mem
    · obtain rfl := List.mem_singleton.mp mem
      exact took
  newest entry last := by
    obtain rfl : (index, generation) = entry := by simpa using last
    simp

theorem index_eq (ledger : Ledger asks id taken recorded server) {entry other : Nat × Nat}
    (mem : entry ∈ taken) (mem' : other ∈ taken) (same : entry.2 = other.2) : entry = other := by
  have distinct : (taken.map (·.2)).Nodup := List.pairwise_map.mpr (ledger.ascending.imp Nat.ne_of_lt)
  exact List.inj_on_of_nodup_map distinct mem mem' same

theorem generation_eq (ledger : Ledger asks id taken recorded server) {entry other : Nat × Nat}
    (mem : entry ∈ taken) (mem' : other ∈ taken) (same : entry.1 = other.1) : entry = other :=
  List.inj_on_of_nodup_map ledger.once mem mem' same

theorem in_order (ledger : Ledger asks id taken recorded server) (everyone : Everyone asks recorded)
    (inTurn : recorded.map (·.1) <+: taken.map (·.1)) :
    recorded.map (·.1) = taken.map (·.1) := by
  obtain ⟨rest, whole⟩ := inTurn
  have apart := ledger.once
  rw [← whole] at apart
  have none : rest = [] := by
    refine List.eq_nil_iff_forall_not_mem.mpr fun index mem => ?_
    obtain ⟨entry, took, rfl⟩ := List.mem_map.mp (whole ▸ List.mem_append_right _ mem)
    exact (List.nodup_append.mp apart).2.2 _ (everyone _ (ledger.asked entry took)) _ mem rfl
  rw [← whole, none, List.append_nil]

/-- The last to record is then the last to take, and so took the highest generation. -/
theorem le_last (ledger : Ledger asks id taken recorded server)
    (order : recorded.map (·.1) = taken.map (·.1)) {winner generation : Nat}
    (last : recorded.getLast? = some (winner, generation)) :
    ∀ entry ∈ taken, entry.2 ≤ generation := by
  have ends : (taken.map (·.1)).getLast? = some winner := by simp [← order, last]
  rw [List.getLast?_map] at ends
  obtain ⟨final, ends, named⟩ := Option.map_eq_some_iff.mp ends
  obtain ⟨before, rfl⟩ := List.getLast?_eq_some_iff.mp ends
  have took : (winner, generation) ∈ before ++ [final] :=
    ledger.held _ (List.mem_of_getLast? last)
  obtain rfl := ledger.generation_eq took (List.mem_append_right before (by simp)) named.symm
  intro entry mem
  rcases List.mem_append.mp mem with mem | mem
  · have later := (List.pairwise_append.mp ledger.ascending).2.2 entry mem (winner, generation)
    exact Nat.le_of_lt (later (List.mem_singleton_self _))
  · exact Nat.le_of_eq (congrArg Prod.snd (List.mem_singleton.mp mem))

end Ledger

/-! ## One step of a race -/

/-- How far a request in a race has come, by what was taken and recorded. -/
inductive Staged (asks : Nat → Prop) (id : String) (document : Document)
    (taken recorded : List (Nat × Nat)) (index : Nat) : Progress → Prop where
  | received {position : Text.Position} (fresh : index ∉ taken.map (·.1)) :
      Staged asks id document taken recorded index (.waiting (.received (.completion id position)))
  | record {position : Text.Position} {generation : Nat} (took : (index, generation) ∈ taken)
      (unheard : index ∉ recorded.map (·.1)) :
      Staged asks id document taken recorded index (.waiting (.record id position generation))
  | look {position : Text.Position} {generation : Nat} (entered : (index, generation) ∈ recorded) :
      Staged asks id document taken recorded index (.waiting (.look id position generation))
  | compute {pending : PendingCompletion} (same : pending.id = id)
      (looked : pending.document = document) (entered : (index, pending.generation) ∈ recorded) :
      Staged asks id document taken recorded index (.waiting (.compute pending))
  | checkNewest {pending : PendingCompletion} {answer : CompletionList} (same : pending.id = id)
      (looked : pending.document = document) (entered : (index, pending.generation) ∈ recorded) :
      Staged asks id document taken recorded index (.waiting (.checkNewest pending answer))
  | checkVersion {pending : PendingCompletion} {answer : CompletionList} (same : pending.id = id)
      (looked : pending.document = document) (everyone : Everyone asks recorded)
      (last : recorded.getLast? = some (index, pending.generation)) :
      Staged asks id document taken recorded index (.waiting (.checkVersion pending answer))
  | won {list : CompletionList} {generation : Nat} (everyone : Everyone asks recorded)
      (last : recorded.getLast? = some (index, generation)) :
      Staged asks id document taken recorded index (.answered (.completion (some list)))
  | lost (everyone : Everyone asks recorded)
      (earlier : ∀ generation, recorded.getLast? ≠ some (index, generation)) :
      Staged asks id document taken recorded index (.answered (.completion none))

/-- Another request's step leaves a request where it is. Nobody records once everyone has. -/
theorem Staged.beside {asks : Nat → Prop} {id : String} {document : Document}
    {taken recorded takes records : List (Nat × Nat)} {index : Nat} {progress : Progress}
    (staged : Staged asks id document taken recorded index progress)
    (others : ∀ entry ∈ takes ++ records, entry.1 ≠ index)
    (closed : Everyone asks recorded → records = []) :
    Staged asks id document (taken ++ takes) (recorded ++ records) index progress := by
  have absent {noted more : List (Nat × Nat)} (sub : ∀ entry ∈ more, entry ∈ takes ++ records)
      (absent : index ∉ noted.map (·.1)) : index ∉ (noted ++ more).map (·.1) := by
    rw [List.map_append, List.mem_append]
    rintro (mem | mem)
    · exact absent mem
    · obtain ⟨entry, mem, same⟩ := List.mem_map.mp mem
      exact others entry (sub entry mem) same
  cases staged with
  | received fresh => exact .received (absent (fun _ => List.mem_append_left _) fresh)
  | record took unheard =>
      exact .record (List.mem_append_left _ took) (absent (fun _ => List.mem_append_right _) unheard)
  | look entered => exact .look (List.mem_append_left _ entered)
  | compute same looked entered => exact .compute same looked (List.mem_append_left _ entered)
  | checkNewest same looked entered => exact .checkNewest same looked (List.mem_append_left _ entered)
  | checkVersion same looked everyone last =>
      rw [closed everyone, List.append_nil]
      exact .checkVersion same looked everyone last
  | won everyone last =>
      rw [closed everyone, List.append_nil]
      exact .won everyone last
  | lost everyone earlier =>
      rw [closed everyone, List.append_nil]
      exact .lost everyone earlier

/-- A race, at some time: the document is as it was, the requests in the race are at their stages, and
the others do not touch the document. -/
structure Racing (asks : Nat → Prop) (id : String) (document : Document)
    (taken recorded : List (Nat × Nat)) (host : Host) : Prop where
  opened : host.document? id = some document
  others : ∀ index progress, host.requests[index]? = some progress → ¬asks index → progress.Spares id
  staged : ∀ index, asks index → ∃ progress, host.requests[index]? = some progress ∧
    Staged asks id document taken recorded index progress
  ledger : Ledger asks id taken recorded host.server

namespace Racing

variable {asks : Nat → Prop} {id : String} {document : Document} {taken recorded : List (Nat × Nat)}
  {host : Host}

theorem arrive (racing : Racing asks id document taken recorded host) {request : Request}
    (spares : (Task.received request).Spares id) :
    Racing asks id document taken recorded (host.next (.arrive request)) where
  opened := racing.opened
  others index progress here away := by
    rcases Nat.lt_or_ge index host.requests.length with old | new
    · exact racing.others index progress (by rwa [next, List.getElem?_append_left old] at here) away
    · rw [next, List.getElem?_append_right new, List.getElem?_singleton] at here
      split at here
      · obtain rfl := Option.some.inj here
        exact spares
      · cases here
  staged index here := by
    obtain ⟨progress, found, staged⟩ := racing.staged index here
    obtain ⟨old, -⟩ := List.getElem?_eq_some_iff.mp found
    exact ⟨progress, by rw [next, List.getElem?_append_left old, found], staged⟩
  ledger := racing.ledger

theorem spared (racing : Racing asks id document taken recorded host) {index : Nat}
    (away : ¬asks index) {next : Server} {progress : Progress}
    (apart : Server.Apart id host.server next) (spares : progress.Spares id) :
    Racing asks id document taken recorded ⟨next, host.requests.set index progress⟩ where
  opened := apart.document.trans racing.opened
  others other found here away' := by
    rw [List.getElem?_set] at here
    split at here
    · split at here
      · obtain rfl := Option.some.inj here
        exact spares
      · cases here
    · exact racing.others other found here away'
  staged other entrant := by
    obtain ⟨found, here, staged⟩ := racing.staged other entrant
    have differ : index ≠ other := fun same => away (same ▸ entrant)
    exact ⟨found, by rw [List.getElem?_set_ne differ, here], staged⟩
  ledger := racing.ledger.apart apart

theorem moved (racing : Racing asks id document taken recorded host) {index : Nat}
    (here : asks index) {next : Server} {progress : Progress} {takes records : List (Nat × Nat)}
    (opened : next.workspace.document? id = some document)
    (ledger : Ledger asks id (taken ++ takes) (recorded ++ records) next)
    (staged : Staged asks id document (taken ++ takes) (recorded ++ records) index progress)
    (own : ∀ entry ∈ takes ++ records, entry.1 = index)
    (closed : Everyone asks recorded → records = []) :
    Racing asks id document (taken ++ takes) (recorded ++ records)
      ⟨next, host.requests.set index progress⟩ where
  opened := opened
  others other found stands away := by
    have differ : index ≠ other := fun same => away (same ▸ here)
    rw [List.getElem?_set_ne differ] at stands
    exact racing.others other found stands away
  staged other entrant := by
    obtain ⟨found, stands, staged'⟩ := racing.staged other entrant
    by_cases same : index = other
    · subst same
      obtain ⟨inside, -⟩ := List.getElem?_eq_some_iff.mp stands
      exact ⟨progress, List.getElem?_set_self inside, staged⟩
    · refine ⟨found, by rw [List.getElem?_set_ne same, stands], staged'.beside ?_ closed⟩
      intro entry mem same'
      exact same ((own entry mem).symm.trans same')
  ledger := ledger

theorem went (racing : Racing asks id document taken recorded host) {index : Nat}
    (here : asks index) {progress : Progress}
    (staged : Staged asks id document taken recorded index progress) :
    Racing asks id document (taken ++ []) (recorded ++ [])
      ⟨host.server, host.requests.set index progress⟩ := by
  refine racing.moved here racing.opened ?_ ?_ (by simp) (fun _ => rfl)
  · simpa using racing.ledger
  · simpa using staged

theorem advance (racing : Racing asks id document taken recorded host) {index : Nat} {task : Task}
    (here : asks index) (waits : host.requests[index]? = some (.waiting task))
    (together : ∀ pending answer, task = .checkNewest pending answer → pending.id = id →
      Everyone asks recorded) :
    Racing asks id document (taken ++ noted index (takes id host.server task))
      (recorded ++ noted index (records id task))
      ⟨(host.server.step task).1, host.requests.set index (host.server.step task).2⟩ := by
  obtain ⟨progress, found, staged⟩ := racing.staged index here
  obtain rfl := Option.some.inj (waits.symm.trans found)
  have ledger := racing.ledger
  cases staged with
  | received fresh =>
      simp only [takes, records, noted, if_true, Option.map_some, Option.map_none, Option.toList]
      refine racing.moved here racing.opened ?_ (.record (by simp) ?_) (by simp) (fun _ => rfl)
      · rw [List.append_nil]
        exact ledger.take here fresh
      · rw [List.append_nil]
        intro mem
        obtain ⟨entry, mem, same⟩ := List.mem_map.mp mem
        exact fresh (List.mem_map.mpr ⟨entry, ledger.held entry mem, same⟩)
  | record took unheard =>
      simp only [takes, records, noted, if_true, Option.map_some, Option.map_none, Option.toList]
      refine racing.moved here racing.opened ?_ (.look (by simp)) (by simp) ?_
      · rw [List.append_nil]
        exact ledger.record took
      · exact fun everyone => absurd (everyone index here) unheard
  | @look position generation entered =>
      have stepped : host.server.step (.look id position generation) =
          (host.server, .waiting (.compute ⟨id, generation, document, position,
            host.server.workspace.vocabulary, host.server.workspace.config.maxCandidates⟩)) := by
        have opened : host.server.workspace.document? id = some document := racing.opened
        simp only [Server.step, opened]
      rw [stepped]
      exact racing.went here (.compute rfl rfl entered)
  | compute same looked entered => exact racing.went here (.checkNewest same looked entered)
  | @checkNewest pending answer same looked entered =>
      have everyone := together pending answer rfl same
      -- Somebody recorded, so the newest generation is that of the last who did.
      obtain ⟨⟨winner, generation⟩, last⟩ : ∃ entry, recorded.getLast? = some entry :=
        ⟨_, List.getLast?_eq_some_getLast (List.ne_nil_of_mem entered)⟩
      have newest : host.server.newest.lookup pending.id = some generation :=
        same ▸ ledger.newest _ last
      have won := List.mem_of_getLast? last
      simp only [Server.step, newest, Option.some.injEq]
      split
      · next high =>
          have mine := ledger.index_eq (ledger.held _ won) (ledger.held _ entered) high
          exact racing.went here (.checkVersion same looked everyone (mine ▸ last))
      · next low =>
          refine racing.went here (.lost everyone fun other last' => low ?_)
          obtain rfl : winner = index := (Prod.mk.inj (Option.some.inj (last.symm.trans last'))).1
          have twice := ledger.generation_eq (ledger.held _ won) (ledger.held _ entered) rfl
          exact congrArg Prod.snd twice
  | @checkVersion pending answer same looked everyone last =>
      have current : host.server.workspace.isCurrent pending.id pending.document.version = true := by
        have opened : host.server.workspace.document? id = some document := racing.opened
        simp [Workspace.isCurrent, same, looked, opened]
      simp only [Server.step, current, if_true]
      exact racing.went here (.won everyone last)

end Racing

/-! ## A whole race -/

theorem Race.racing {host : Host} {id : String} {events : List Event} {document : Document}
    (race : Race host id events) (opened : host.document? id = some document) :
    Racing (host.Asks id) id document (host.taken id events) (host.recorded id events)
      (host.run events) := by
  induction events using List.reverseRecOn with
  | nil =>
      refine ⟨opened, fun index progress here away => ?_, fun index here => ?_, ?_⟩
      · exact (race.waiting index progress here).resolve_left away
      · obtain ⟨position, waits⟩ := here
        exact ⟨_, waits, .received (by simp [taken, picked])⟩
      · constructor <;> simp [taken, recorded, picked]
  | append_singleton events event ih =>
      have racing := ih race.of_append
      rw [taken, recorded] at racing
      rw [taken, recorded, picked_append, picked_append, run_concat]
      cases event with
      | arrive request =>
          have spares := race.arriving request (List.mem_append_right _ (List.mem_singleton_self _))
          simpa [picked] using racing.arrive spares
      | advance index =>
          by_cases waiting : ∃ task, (host.run events).requests[index]? = some (.waiting task)
          · obtain ⟨task, waits⟩ := waiting
            rw [next_of_waiting waits, picked_of_waiting _ waits, picked_of_waiting _ waits]
            by_cases here : host.Asks id index
            · refine racing.advance here waits fun pending answer same named => ?_
              have now := race.together events.length index pending answer (by simp)
                (by rw [List.take_left, waits, same]) named
              rwa [List.take_left] at now
            · have spares : task.Spares id := racing.others index _ waits here
              obtain ⟨apart, spares'⟩ :=
                @Server.step_spares (host.run events).server id task spares
              rw [takes_of_spares spares, records_of_spares spares]
              simpa [noted] using racing.spared here apart spares'
          · have idle := not_exists.mp waiting
            rw [next_of_idle idle, picked_of_idle _ idle, picked_of_idle _ idle]
            simpa using racing

theorem Racing.staged_of_answered {asks : Nat → Prop} {id : String} {document : Document}
    {taken recorded : List (Nat × Nat)} {host : Host}
    (racing : Racing asks id document taken recorded host) {index : Nat} (here : asks index)
    {reply : Reply} (answered : host.requests[index]? = some (.answered reply)) :
    Everyone asks recorded ∧
      ((∃ list generation, reply = .completion (some list) ∧
          recorded.getLast? = some (index, generation)) ∨
        (reply = .completion none ∧
          ∀ generation, recorded.getLast? ≠ some (index, generation))) := by
  obtain ⟨progress, found, staged⟩ := racing.staged index here
  obtain rfl := Option.some.inj (answered.symm.trans found)
  cases staged with
  | @won list generation everyone last => exact ⟨everyone, .inl ⟨list, generation, rfl, last⟩⟩
  | lost everyone earlier => exact ⟨everyone, .inr ⟨rfl, earlier⟩⟩

/-- In every order of their steps, the last to record is the only one that answers with a list. -/
theorem Race.last_answers {host : Host} {id : String} {events : List Event}
    (race : Race host id events) (settled : Settled host id events)
    (asked : ∃ index, host.Asks id index) :
    ∃ winner generation list, host.Asks id winner ∧
      (host.recorded id events).getLast? = some (winner, generation) ∧
      (host.run events).requests[winner]? = some (.answered (.completion (some list))) ∧
      ∀ other, host.Asks id other →
        other ∈ (host.recorded id events).map (·.1) ∧
          (other ≠ winner →
            (host.run events).requests[other]? = some (.answered (.completion none))) := by
  obtain ⟨document, opened⟩ := race.opened
  have racing := race.racing opened
  obtain ⟨first, here⟩ := asked
  obtain ⟨reply, answered⟩ := settled first here
  have everyone := (racing.staged_of_answered here answered).1
  obtain ⟨entry, mem, -⟩ := List.mem_map.mp (everyone first here)
  obtain ⟨⟨winner, generation⟩, last⟩ : ∃ entry, (host.recorded id events).getLast? = some entry :=
    ⟨_, List.getLast?_eq_some_getLast (List.ne_nil_of_mem mem)⟩
  have among := racing.ledger.asked _ (racing.ledger.held _ (List.mem_of_getLast? last))
  obtain ⟨reply, answered⟩ := settled winner among
  obtain ⟨list, rfl⟩ : ∃ list, reply = .completion (some list) := by
    obtain ⟨-, ⟨list, -, same, -⟩ | ⟨-, earlier⟩⟩ := racing.staged_of_answered among answered
    · exact ⟨list, same⟩
    · exact absurd last (earlier generation)
  refine ⟨winner, generation, list, among, last, answered,
    fun other here => ⟨everyone other here, fun differ => ?_⟩⟩
  obtain ⟨reply, answered⟩ := settled other here
  obtain ⟨-, ⟨-, generation', -, last'⟩ | ⟨rfl, -⟩⟩ := racing.staged_of_answered here answered
  · exact absurd (Prod.mk.inj (Option.some.inj (last'.symm.trans last))).1 differ
  · exact answered

/-! ## A race for the lock -/

theorem Race.recording_nil {queued : Queued} {id : String} {events : List Event}
    (race : Race queued.host id events) : queued.recording id = [] := by
  refine List.filter_eq_nil_iff.mpr fun index _ recording => ?_
  rw [isRecording, Option.any_eq_true] at recording
  obtain ⟨progress, here, recording⟩ := recording
  rcases race.waiting index progress here with ⟨position, waits⟩ | spares
  · obtain rfl := Option.some.inj (here.symm.trans waits)
    cases recording
  · cases progress with
    | answered reply => cases recording
    | waiting task =>
        rw [Progress.isRecording, records_of_spares spares] at recording
        cases recording

/-- Those who have recorded are the first of those who took, in the same order. -/
theorem Race.in_turn {queued : Queued} {id : String} {events : List Event}
    (race : Race queued.host id (queued.heard events)) :
    (queued.host.recorded id (queued.heard events)).map (·.1) <+:
      (queued.host.taken id (queued.heard events)).map (·.1) := by
  have law := queued.run_law id events
  rw [race.recording_nil, List.nil_append] at law
  exact ⟨_, law⟩

end Host

namespace Queued

open Host

/-- Of completions of one document that have all recorded their generations before one looks for the
newest, exactly one answers with a list, whatever the order of their steps under the lock: the one that
holds the highest generation. -/
theorem newest_answers {queued : Queued} {id : String} {events : List Event}
    (race : Race queued.host id (queued.heard events))
    (settled : Host.Settled queued.host id (queued.heard events))
    (asked : ∃ index, queued.host.Asks id index) :
    ∃ winner generation list, queued.host.Asks id winner ∧
      (winner, generation) ∈ queued.host.taken id (queued.heard events) ∧
      (queued.run events).host.requests[winner]? = some (.answered (.completion (some list))) ∧
      ∀ other, queued.host.Asks id other → other ≠ winner →
        (queued.run events).host.requests[other]? = some (.answered (.completion none)) ∧
          ∃ held, (other, held) ∈ queued.host.taken id (queued.heard events) ∧ held < generation := by
  obtain ⟨document, opened⟩ := race.opened
  have ledger := (race.racing opened).ledger
  obtain ⟨winner, generation, list, among, last, answered, others⟩ := race.last_answers settled asked
  have took := ledger.held _ (List.mem_of_getLast? last)
  have order := ledger.in_order (fun other here => (others other here).1) race.in_turn
  rw [queued.host_run events]
  refine ⟨winner, generation, list, among, took, answered, fun other here differ => ?_⟩
  obtain ⟨noted, refused⟩ := others other here
  obtain ⟨⟨_, held⟩, mem, rfl⟩ := List.mem_map.mp noted
  have entered := ledger.held _ mem
  refine ⟨refused differ, held, entered, ?_⟩
  refine Nat.lt_of_le_of_ne (ledger.le_last order last _ entered) fun same => differ ?_
  exact congrArg Prod.fst (ledger.index_eq entered took same)

/-- Two completions of a document, and the closing of another document. -/
def racers : Queued where
  host :=
    ⟨{ Server.initial with workspace := Server.initial.workspace.open "a" "al" },
      [.waiting (.received (.completion "a" ⟨0, 2⟩)), .waiting (.received (.completion "a" ⟨0, 1⟩)),
        .waiting (.received (.close "b"))]⟩
  queue := []
  once := .nil
  mem_queue index := by
    match index with
    | 0 | 1 | 2 | _ + 3 => simp [awaits, Progress.locks, Task.locks]

/-- Both take their generations, and the second tries to record first. It has to wait for the lock, but
then it is ahead until the first gives up. -/
def tries : List Event :=
  [0, 1, 2, 1, 0, 1, 2, 1, 1, 0, 0, 0, 1, 1, 0].map .advance

/-- The steps that they take. -/
def laps : List Event :=
  [0, 1, 2, 0, 1, 2, 1, 1, 0, 0, 1, 1, 0].map .advance

theorem heard_tries : racers.heard tries = laps :=
  rfl

theorem asks_racers {index : Nat} (here : racers.host.Asks "a" index) : index = 0 ∨ index = 1 := by
  obtain ⟨position, waits⟩ := here
  match index with
  | 0 => exact .inl rfl
  | 1 => exact .inr rfl
  | 2 => cases waits
  | _ + 3 => cases waits

theorem race_racers : Race racers.host "a" (racers.heard tries) where
  opened := ⟨_, rfl⟩
  waiting index progress here := by
    match index with
    | 0 => exact .inl ⟨_, rfl⟩
    | 1 => exact .inl ⟨_, rfl⟩
    | 2 =>
        obtain rfl := Option.some.inj here
        exact .inr (by decide : "b" ≠ "a")
    | _ + 3 => cases here
  arriving request mem := by simp [heard_tries, laps] at mem
  together time index pending answer here checks same other asks := by
    rw [heard_tries] at here checks ⊢
    obtain ⟨inside, -⟩ := List.getElem?_eq_some_iff.mp here
    have inside : time < 13 := inside
    rcases Nat.lt_or_ge time 5 with early | late
    · -- Nobody has come to a check.
      interval_cases time <;> cases here <;> cases checks
    · have both : (racers.host.recorded "a" (laps.take time)).map (·.1) = [0, 1] := by
        interval_cases time <;> rfl
      rw [both]
      rcases asks_racers asks with rfl | rfl <;> decide

/-- The second request holds the higher generation. -/
theorem newest_answers_second :
    ∃ generation list,
      (racers.run tries).host.requests[1]? = some (.answered (.completion (some list))) ∧
      (racers.run tries).host.requests[0]? = some (.answered (.completion none)) ∧
      (1, generation) ∈ racers.host.taken "a" (racers.heard tries) ∧
      ∃ held, (0, held) ∈ racers.host.taken "a" (racers.heard tries) ∧ held < generation := by
  have settled : Host.Settled racers.host "a" (racers.heard tries) := by
    intro index here
    rcases asks_racers here with rfl | rfl
    · exact ⟨_, rfl⟩
    · exact ⟨_, rfl⟩
  obtain ⟨winner, generation, list, here, took, answered, others⟩ :=
    newest_answers race_racers settled ⟨0, _, rfl⟩
  have taken : racers.host.taken "a" (racers.heard tries) = [(0, 1), (1, 2)] := rfl
  rcases asks_racers here with rfl | rfl
  · -- The first holds the lower one.
    obtain ⟨-, held, mem, lower⟩ := others 1 ⟨_, rfl⟩ (by decide)
    obtain rfl : generation = 1 := by simpa [taken] using took
    obtain rfl : held = 2 := by simpa [taken] using mem
    exact absurd lower (by decide)
  · obtain ⟨refused, below⟩ := others 0 ⟨_, rfl⟩ (by decide)
    exact ⟨generation, list, answered, refused, took, below⟩

end Queued

end MuCompletion
