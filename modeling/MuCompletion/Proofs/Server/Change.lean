import MuCompletion.Proofs.Text.Position
import MuCompletion.Proofs.Workspace
import MuCompletion.Server.Session

/-! # Changes of open documents

Every position names a character boundary, and the ends of a range are put in order, so a change fits
the text that it meets, whatever range it gives. A batch of changes of an open document is therefore
never refused. One of a document that is not open changes nothing.
-/

namespace MuCompletion

open Text

namespace ContentChange

/-- The edit that a change means in a text. -/
def edit (change : ContentChange) (text : String) : Edit :=
  let span : Span := match change.range with
    | some (first, second) => spanBetween text.toList first second
    | none => ⟨0, byteLength text.toList⟩
  ⟨span.start, span.stop, change.text⟩

/-- Changes of a text, one after the other: each fits the text that those before it left, and puts its
own text in place of what its range covers there. -/
inductive Replaces : List ContentChange → String → String → Prop where
  | nil {text : String} : Replaces [] text text
  | cons {change : ContentChange} {rest : List ContentChange} {text next last : String}
      {front removed back : List Char} (checked : (change.edit text).check text = .ok ())
      (split : (change.edit text).Splits text front removed back)
      (replaced : next.toList = front ++ change.text.toList ++ back)
      (later : Replaces rest next last) : Replaces (change :: rest) text last

theorem fits_edit (change : ContentChange) (text : String) :
    (change.edit text).fits text = true := by
  have whole : isBoundary (byteLength text.toList) text.toList = true :=
    isBoundary_iff.mpr ⟨text.toList, [], by simp, rfl⟩
  have none : isBoundary 0 text.toList = true := isBoundary_iff.mpr ⟨[], text.toList, rfl, rfl⟩
  cases range : change.range with
  | none => simp [Edit.fits, edit, range, whole, none]
  | some ends =>
      obtain ⟨first, second⟩ := ends
      have here := isBoundary_toOffset text.toList first
      have there := isBoundary_toOffset text.toList second
      simp only [Edit.fits, edit, range, spanBetween, Bool.and_eq_true, decide_eq_true_eq]
      rcases Nat.le_total (first.toOffset text.toList) (second.toOffset text.toList) with le | le <;>
        simp [le, here, there]

end ContentChange

theorem Document.apply_of_fits {document : Document} {edit : Edit}
    (fits : edit.fits document.text = true) (incremental : Bool) :
    ∃ edited outcome, document.apply edit incremental = .ok (edited, outcome) ∧
      edited.text = edit.apply document.text ∧ edited.version = document.version + 1 := by
  simp only [apply, Edit.check, fits, if_true, bind, Except.bind, pure, Except.pure]
  exact ⟨_, _, rfl, rfl, rfl⟩

namespace Workspace

open ContentChange

variable {workspace : Workspace} {id : String}

/-- The workspaces differ in nothing but the document. -/
structure Beside (id : String) (workspace changed : Workspace) : Prop where
  config : changed.config = workspace.config
  vocabulary : changed.vocabulary = workspace.vocabulary
  others : ∀ other, other ≠ id → changed.document? other = workspace.document? other

theorem change_cons {document : Document} (found : workspace.document? id = some document)
    (first : ContentChange) (rest : List ContentChange) :
    ∃ edited, workspace.change id (first :: rest) = (workspace.put id edited).change id rest ∧
      edited.text = (first.edit document.text).apply document.text ∧
      edited.version = document.version + 1 := by
  have opened : workspace.document id = .ok document := by simp [Workspace.document, found]
  obtain ⟨edited, outcome, applied, text, version⟩ :=
    Document.apply_of_fits (first.fits_edit document.text) workspace.config.incremental
  refine ⟨edited, ?_, text, version⟩
  have done : workspace.edit id (first.edit document.text) =
      .ok (workspace.put id edited, outcome) := by
    simp only [Workspace.edit, opened, applied, bind, Except.bind, pure, Except.pure]
  have begun : workspace.change id (first :: rest) =
      (workspace.edit id (first.edit document.text)).bind fun result => result.1.change id rest := by
    rw [change, opened]
    rfl
  rw [begun, done]
  rfl

theorem change_of_open {document : Document} (found : workspace.document? id = some document)
    (changes : List ContentChange) :
    ∃ changed last, workspace.change id changes = .ok changed ∧ changed.document? id = some last ∧
      Replaces changes document.text last.text ∧
      last.version = document.version + changes.length ∧ Beside id workspace changed := by
  induction changes generalizing workspace document with
  | nil => exact ⟨workspace, document, rfl, found, .nil, rfl, rfl, rfl, fun _ _ => rfl⟩
  | cons first rest ih =>
      obtain ⟨edited, step, text, version⟩ := change_cons found first rest
      have here : (workspace.put id edited).document? id = some edited := by simp [document?_put]
      obtain ⟨changed, last, done, opened, replaces, counted, beside⟩ := ih here
      obtain ⟨front, removed, back, split⟩ := Edit.fits_iff.mp (first.fits_edit document.text)
      refine ⟨changed, last, step.trans done, opened, .cons ?_ split ?_ replaces, ?_, ?_⟩
      · simp [Edit.check, first.fits_edit]
      · rw [text, split.toList_apply]
        rfl
      · rw [counted, version, List.length_cons]
        omega
      · refine ⟨beside.config, beside.vocabulary, fun other apart => ?_⟩
        rw [beside.others other apart, document?_put, if_neg apart]

theorem change_of_closed (absent : workspace.document? id = none) {changes : List ContentChange}
    (some : changes ≠ []) : workspace.change id changes = .error (.unknownDocument id) := by
  obtain ⟨first, rest, rfl⟩ := List.exists_cons_of_ne_nil some
  simp [change, Workspace.document, absent, bind, Except.bind]

end Workspace

namespace Server

open ContentChange Workspace

theorem finish_answered {server next : Server} {task : Task} {reply : Reply}
    (step : server.step task = (next, .answered reply)) : server.finish task = (next, reply) := by
  rw [finish]
  split <;> simp_all

theorem finish_waiting {server next : Server} {task left : Task}
    (step : server.step task = (next, .waiting left)) : server.finish task = next.finish left := by
  rw [finish]
  split <;> simp_all

/-- Changes of an open document are all taken, whatever their ranges: each replaces what its range
covers in the text that those before it left, the version counts them, and nothing else changes. A
batch of changes of a document that is not open leaves all documents as they are. -/
theorem handle_change (server : Server) (id : String) (changes : List ContentChange) :
    (∀ document, server.workspace.document? id = some document →
      ∃ changed last,
        server.handle (.change id changes) = ({ server with workspace := changed }, .noted) ∧
        changed.document? id = some last ∧ Replaces changes document.text last.text ∧
        last.version = document.version + changes.length ∧
        Beside id server.workspace changed) ∧
    (server.workspace.document? id = none → changes ≠ [] →
      (server.handle (.change id changes)).1.workspace = server.workspace) := by
  constructor
  · intro document found
    obtain ⟨changed, last, done, rest⟩ := change_of_open found changes
    refine ⟨changed, last, finish_answered ?_, rest⟩
    simp only [step, receive, done]
  · intro absent some
    have refused := change_of_closed absent some
    have closed : server.workspace.close id = .error (.unknownDocument id) := by
      simp [Workspace.close, Workspace.document, absent, bind, Except.bind]
    have begun : server.step (.received (.change id changes)) = (server, .waiting (.forget id)) := by
      simp only [step, receive, refused, closeDocument, closed]
    rw [handle, finish_waiting begun, finish_answered rfl]

/-- The range of this change is reversed; one end lies past the text, the other inside a surrogate
pair. -/
theorem handle_change_clamped :
    ∃ changed last,
      Server.handle { initial with workspace := initial.workspace.open "a" "é𝄞x" }
          (.change "a" [⟨some (⟨7, 0⟩, ⟨0, 2⟩), "y"⟩]) =
        ({ initial with workspace := changed }, .noted) ∧
      changed.document? "a" = some last ∧ last.text = "éy" ∧ last.version = 1 := by
  obtain ⟨changed, last, done, found, replaces, version, -⟩ :=
    (handle_change { initial with workspace := initial.workspace.open "a" "é𝄞x" } "a"
      [⟨some (⟨7, 0⟩, ⟨0, 2⟩), "y"⟩]).1 (.ofText "é𝄞x") rfl
  refine ⟨changed, last, done, found, ?_, version⟩
  cases replaces with
  | cons checked split replaced later =>
      cases later
      have text := String.toList_inj.mp (replaced.trans split.toList_apply.symm)
      rw [text]
      decide

end Server

end MuCompletion
