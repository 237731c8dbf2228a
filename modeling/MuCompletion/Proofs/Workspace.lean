import MuCompletion.Proofs.Document
import MuCompletion.Proofs.Lookup
import MuCompletion.Workspace

/-! # Workspaces as maps

A host sees a workspace as a map from ids to texts and versions. Each call is answered from that map
and the configuration alone, and a refused call leaves it as it is. Tokens and scope trees are those
that reading the text from scratch gives, whatever edits led to it.
-/

namespace MuCompletion

/-- What a host asks of a workspace. -/
inductive Call where
  | «open» (id text : String)
  | close (id : String)
  | edit (id : String) (edit : Edit)
  | complete (id : String) (cursor : Nat)
  | snapshot (id : String)

/-- What a workspace answers. -/
inductive Answer where
  | opened (version : Nat)
  | closed
  | edited (outcome : EditOutcome)
  | completed (version : Nat) (candidates : List Candidate)
  | snapshot (document : Document)
  | refused (error : RequestError)

namespace Workspace

/-- The workspace after a call that may be refused. -/
def settle (workspace : Workspace) : Except RequestError (Workspace × Answer) → Workspace × Answer
  | .ok done => done
  | .error error => (workspace, .refused error)

/-- Carry out a call. -/
def call (workspace : Workspace) : Call → Workspace × Answer
  | .open id text => (workspace.open id text, .opened (Document.ofText text).version)
  | .close id => workspace.settle ((workspace.close id).map fun closed => (closed, .closed))
  | .edit id edit =>
    workspace.settle ((workspace.edit id edit).map fun (edited, outcome) => (edited, .edited outcome))
  | .complete id cursor =>
    workspace.settle ((workspace.complete id cursor).map fun (version, candidates) =>
      (workspace, .completed version candidates))
  | .snapshot id =>
    workspace.settle ((workspace.document id).map fun document => (workspace, .snapshot document))

/-- Carry out calls, one after the other. -/
def run (workspace : Workspace) : List Call → Workspace × List Answer
  | [] => (workspace, [])
  | call :: calls =>
    let (workspace, answer) := workspace.call call
    let (workspace, answers) := workspace.run calls
    (workspace, answer :: answers)

end Workspace

/-- Texts and versions by id. -/
def Store : Type :=
  String → Option (String × Nat)

namespace Store

/-- The store without documents. -/
def empty : Store :=
  fun _ => none

/-- The store with another entry for an id. -/
def set (store : Store) (id : String) (entry : Option (String × Nat)) : Store :=
  fun other => if other = id then entry else store other

/-- What a call does to a store and how it is answered. -/
inductive Step (config : Config) (store : Store) : Call → Answer → Store → Prop where
  | «open» {id text : String} :
      Step config store (.open id text) (.opened 0) (store.set id (some (text, 0)))
  | close {id text : String} {version : Nat} (present : store id = some (text, version)) :
      Step config store (.close id) .closed (store.set id none)
  | edit {id text text' : String} {version : Nat} {edit : Edit} {front removed back : List Char}
      {outcome : EditOutcome} (present : store id = some (text, version))
      (split : edit.Splits text front removed back)
      (replaced : text'.toList = front ++ edit.insert.toList ++ back)
      (counted : outcome.version = version + 1) :
      Step config store (.edit id edit) (.edited outcome) (store.set id (some (text', version + 1)))
  | outOfBounds {id text : String} {version : Nat} {edit : Edit}
      (present : store id = some (text, version))
      (unfit : ¬∃ front removed back, edit.Splits text front removed back) :
      Step config store (.edit id edit)
        (.refused (.editOutOfBounds edit.start edit.stop (Text.byteLength text.toList))) store
  | complete {id text : String} {version cursor : Nat} (present : store id = some (text, version)) :
      Step config store (.complete id cursor)
        (.completed version (MuCompletion.complete text (lex text) (.ofTokens (lex text)) cursor
          (.ofConfig config) config.maxCandidates)) store
  | snapshot {id text : String} {version : Nat} (present : store id = some (text, version)) :
      Step config store (.snapshot id)
        (.snapshot ⟨version, text, lex text, .ofTokens (lex text)⟩) store
  | unknown {id : String} {call : Call} (absent : store id = none)
      (asks : call = .close id ∨ (∃ edit, call = .edit id edit) ∨
        (∃ cursor, call = .complete id cursor) ∨ call = .snapshot id) :
      Step config store call (.refused (.unknownDocument id)) store

theorem Step.next_unique {config : Config} {store next next' : Store} {call : Call}
    {answer answer' : Answer} (step : Step config store call answer next)
    (step' : Step config store call answer' next') : next = next' := by
  cases step with
  | «open» =>
      cases step' with
      | «open» => rfl
      | unknown _ asks => simp at asks
  | close present =>
      cases step' with
      | close => rfl
      | unknown absent asks =>
          obtain rfl := by simpa using asks
          cases present.symm.trans absent
  | edit present split replaced =>
      cases step' with
      | edit present' split' replaced' =>
          obtain ⟨rfl, rfl⟩ := Prod.mk.inj (Option.some.inj (present.symm.trans present'))
          have same := replaced.trans (split.toList_apply.symm.trans split'.toList_apply)
          rw [String.toList_inj.mp (same.trans replaced'.symm)]
      | outOfBounds present' unfit =>
          obtain ⟨rfl, rfl⟩ := Prod.mk.inj (Option.some.inj (present.symm.trans present'))
          exact absurd ⟨_, _, _, split⟩ unfit
      | unknown absent asks =>
          obtain rfl := by simpa using asks
          cases present.symm.trans absent
  | outOfBounds present unfit =>
      cases step' with
      | edit present' split' =>
          obtain ⟨rfl, rfl⟩ := Prod.mk.inj (Option.some.inj (present.symm.trans present'))
          exact absurd ⟨_, _, _, split'⟩ unfit
      | outOfBounds => rfl
      | unknown => rfl
  | complete => cases step' <;> rfl
  | snapshot => cases step' <;> rfl
  | unknown absent asks =>
      cases step' with
      | «open» => simp at asks
      | close present | edit present =>
          obtain rfl := by simpa using asks
          cases present.symm.trans absent
      | outOfBounds | complete | snapshot | unknown => rfl

/-- What calls do to a store, one after the other, and how they are answered. -/
inductive Run (config : Config) : Store → List Call → List Answer → Store → Prop where
  | nil {store : Store} : Run config store [] [] store
  | cons {store next last : Store} {call : Call} {answer : Answer} {calls : List Call}
      {answers : List Answer} (step : Step config store call answer next)
      (rest : Run config next calls answers last) :
      Run config store (call :: calls) (answer :: answers) last

theorem Run.last_unique {config : Config} {store last last' : Store} {calls : List Call}
    {answers answers' : List Answer} (run : Run config store calls answers last)
    (run' : Run config store calls answers' last') : last = last' := by
  induction run generalizing answers' with
  | nil =>
      cases run' with
      | nil => rfl
  | cons step _ ih =>
      cases run' with
      | cons step' rest' =>
          obtain rfl := step.next_unique step'
          exact ih rest'

end Store

namespace Workspace

/-- The map that a host sees. -/
def store (workspace : Workspace) : Store :=
  fun id => (workspace.document? id).map fun document => (document.text, document.version)

theorem document?_put (workspace : Workspace) (id : String) (document : Document) (other : String) :
    (workspace.put id document).document? other =
      if other = id then some document else workspace.document? other := by
  by_cases here : other = id
  · simp [document?, put, here]
  · simp [document?, put, List.lookup_cons, beq_eq_false_iff_ne.mpr here, lookup_filter, here]

theorem store_put (workspace : Workspace) (id : String) (document : Document) :
    (workspace.put id document).store =
      workspace.store.set id (some (document.text, document.version)) := by
  funext other
  simp only [store, Store.set, document?_put]
  split <;> rfl

theorem document?_filter (workspace : Workspace) (id other : String) :
    { workspace with documents := workspace.documents.filter (·.1 != id) }.document? other =
      if other = id then none else workspace.document? other :=
  lookup_filter workspace.documents id other

theorem store_filter (workspace : Workspace) (id : String) :
    { workspace with documents := workspace.documents.filter (·.1 != id) }.store =
      workspace.store.set id none := by
  funext other
  simp only [store, Store.set, document?_filter]
  split <;> rfl

/-- The workspace has the settings of the configuration, and its documents are those read from their
texts. -/
structure Sound (config : Config) (workspace : Workspace) : Prop where
  settings : workspace.config = config
  vocabulary : workspace.vocabulary = .ofConfig config
  documents : ∀ id document, workspace.document? id = some document →
    document = .read document.version document.text

namespace Sound

variable {config : Config} {workspace : Workspace}

theorem ofConfig (config : Config) : Sound config (ofConfig config) where
  settings := rfl
  vocabulary := rfl
  documents := by
    intro id document found
    simp [document?, Workspace.ofConfig] at found

theorem put (sound : Sound config workspace) (id : String) (version : Nat) (text : String) :
    Sound config (workspace.put id (.read version text)) where
  settings := sound.settings
  vocabulary := sound.vocabulary
  documents := by
    intro other document found
    rw [document?_put] at found
    split at found
    · rw [← Option.some.inj found]
      rfl
    · exact sound.documents other document found

theorem filter (sound : Sound config workspace) (id : String) :
    Sound config { workspace with documents := workspace.documents.filter (·.1 != id) } where
  settings := sound.settings
  vocabulary := sound.vocabulary
  documents := by
    intro other document found
    rw [document?_filter] at found
    split at found
    · simp at found
    · exact sound.documents other document found

theorem document_cases (sound : Sound config workspace) (id : String) :
    (workspace.store id = none ∧ workspace.document id = .error (.unknownDocument id)) ∨
      ∃ text version, workspace.store id = some (text, version) ∧
        workspace.document id = .ok (.read version text) := by
  cases found : workspace.document? id with
  | none =>
      left
      simp [store, document, found]
  | some document =>
      right
      refine ⟨document.text, document.version, by simp [store, found], ?_⟩
      simp only [Workspace.document, found]
      rw [← sound.documents id document found]

end Sound

/-- The call is answered as the map says, and its workspace is sound again. -/
structure Meets (config : Config) (workspace : Workspace) (call : Call) : Prop where
  step : Store.Step config workspace.store call (workspace.call call).2
    (workspace.call call).1.store
  sound : Sound config (workspace.call call).1

theorem Meets.of_eq {config : Config} {workspace next : Workspace} {call : Call} {answer : Answer}
    (done : workspace.call call = (next, answer))
    (step : Store.Step config workspace.store call answer next.store) (sound : Sound config next) :
    Meets config workspace call := by
  constructor
  · rw [done]
    exact step
  · rw [done]
    exact sound

namespace Sound

variable {config : Config} {workspace : Workspace}

theorem open_meets (sound : Sound config workspace) (id text : String) :
    Meets config workspace (.open id text) := by
  have opened : workspace.call (.open id text) =
      (workspace.put id (.read 0 text), .opened 0) := rfl
  refine .of_eq opened ?_ (sound.put id 0 text)
  rw [store_put]
  exact .open

theorem close_meets (sound : Sound config workspace) (id : String) :
    Meets config workspace (.close id) := by
  rcases sound.document_cases id with ⟨absent, refused⟩ | ⟨text, version, present, found⟩
  · have unchanged : workspace.call (.close id) =
        (workspace, .refused (.unknownDocument id)) := by
      simp [call, Workspace.close, refused, settle, bind, Except.bind, Except.map]
    exact .of_eq unchanged (.unknown absent (.inl rfl)) sound
  · have closed : workspace.call (.close id) =
        ({ workspace with documents := workspace.documents.filter (·.1 != id) }, .closed) := by
      simp [call, Workspace.close, found, settle, bind, Except.bind, Except.map, pure, Except.pure]
    refine .of_eq closed ?_ (sound.filter id)
    rw [store_filter]
    exact .close present

theorem edit_meets (sound : Sound config workspace) (id : String) (edit : Edit) :
    Meets config workspace (.edit id edit) := by
  rcases sound.document_cases id with ⟨absent, refused⟩ | ⟨text, version, present, found⟩
  · have unchanged : workspace.call (.edit id edit) =
        (workspace, .refused (.unknownDocument id)) := by
      simp [call, Workspace.edit, refused, settle, bind, Except.bind, Except.map]
    exact .of_eq unchanged (.unknown absent (.inr (.inl ⟨edit, rfl⟩))) sound
  · cases fits : edit.fits text with
    | false =>
        have rejected : (Document.read version text).apply edit workspace.config.incremental =
            .error (.editOutOfBounds edit.start edit.stop (Text.byteLength text.toList)) :=
          (Document.read version text).apply_of_not_fits fits workspace.config.incremental
        have unchanged : workspace.call (.edit id edit) = (workspace, .refused
            (.editOutOfBounds edit.start edit.stop (Text.byteLength text.toList))) := by
          simp [call, Workspace.edit, found, rejected, settle, bind, Except.bind, Except.map]
        refine .of_eq unchanged (.outOfBounds present fun splits => ?_) sound
        rw [Edit.fits_iff.mpr splits] at fits
        cases fits
    | true =>
        obtain ⟨front, removed, back, split⟩ := Edit.fits_iff.mp fits
        obtain ⟨outcome, counted, applied⟩ :=
          Document.apply_of_splits split version workspace.config.incremental
        have edited : workspace.call (.edit id edit) =
            (workspace.put id (.read (version + 1) (edit.apply text)), .edited outcome) := by
          simp [call, Workspace.edit, found, applied, settle, bind, Except.bind, Except.map, pure,
            Except.pure]
        refine .of_eq edited ?_ (sound.put id (version + 1) (edit.apply text))
        rw [store_put]
        exact .edit present split split.toList_apply counted

theorem complete_meets (sound : Sound config workspace) (id : String) (cursor : Nat) :
    Meets config workspace (.complete id cursor) := by
  rcases sound.document_cases id with ⟨absent, refused⟩ | ⟨text, version, present, found⟩
  · have unchanged : workspace.call (.complete id cursor) =
        (workspace, .refused (.unknownDocument id)) := by
      simp [call, Workspace.complete, refused, settle, bind, Except.bind, Except.map]
    exact .of_eq unchanged (.unknown absent (.inr (.inr (.inl ⟨cursor, rfl⟩)))) sound
  · have completed : workspace.call (.complete id cursor) = (workspace, .completed version
        (MuCompletion.complete text (lex text) (.ofTokens (lex text)) cursor (.ofConfig config)
          config.maxCandidates)) := by
      simp [call, Workspace.complete, found, candidates, Document.read, sound.settings,
        sound.vocabulary, settle, bind, Except.bind, Except.map, pure, Except.pure]
    exact .of_eq completed (.complete present) sound

theorem snapshot_meets (sound : Sound config workspace) (id : String) :
    Meets config workspace (.snapshot id) := by
  rcases sound.document_cases id with ⟨absent, refused⟩ | ⟨text, version, present, found⟩
  · have unchanged : workspace.call (.snapshot id) =
        (workspace, .refused (.unknownDocument id)) := by
      simp [call, refused, settle, Except.map]
    exact .of_eq unchanged (.unknown absent (.inr (.inr (.inr rfl)))) sound
  · have looked : workspace.call (.snapshot id) =
        (workspace, .snapshot (.read version text)) := by
      simp [call, found, settle, Except.map]
    exact .of_eq looked (.snapshot present) sound

/-- Every call is answered as the map says and keeps the documents those read from their texts. -/
theorem meets (sound : Sound config workspace) (call : Call) : Meets config workspace call := by
  cases call with
  | «open» id text => exact sound.open_meets id text
  | close id => exact sound.close_meets id
  | edit id edit => exact sound.edit_meets id edit
  | complete id cursor => exact sound.complete_meets id cursor
  | snapshot id => exact sound.snapshot_meets id

theorem run (sound : Sound config workspace) (calls : List Call) :
    Store.Run config workspace.store calls (workspace.run calls).2 (workspace.run calls).1.store ∧
      Sound config (workspace.run calls).1 := by
  induction calls generalizing workspace with
  | nil => exact ⟨.nil, sound⟩
  | cons call calls ih =>
      have first := sound.meets call
      obtain ⟨rest, last⟩ := ih first.sound
      exact ⟨.cons first.step rest, last⟩

end Sound

/-- From a workspace without documents on, any calls are answered from the texts and versions alone,
and each open document has the tokens and the scope tree of its text. -/
theorem run_refines (config : Config) (calls : List Call) :
    Store.Run config .empty calls ((ofConfig config).run calls).2
        ((ofConfig config).run calls).1.store ∧
      ∀ id document, ((ofConfig config).run calls).1.document? id = some document →
        document.tokens = lex document.text ∧ document.tree = .ofTokens (lex document.text) := by
  have without : (ofConfig config).store = .empty := rfl
  obtain ⟨refines, sound⟩ := (Sound.ofConfig config).run calls
  rw [without] at refines
  refine ⟨refines, fun id document found => ?_⟩
  have whole := sound.documents id document found
  rw [whole]
  exact ⟨rfl, rfl⟩

end Workspace

end MuCompletion
