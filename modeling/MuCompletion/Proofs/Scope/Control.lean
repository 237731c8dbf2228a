import MuCompletion.Proofs.Scope.Header

/-! # What waits and what is open

What waits after a token, and what the comments say then, follows from what waited and what they said
before, whatever scopes are open. In turn a token that is no brace does nothing to the open scopes but
declare its own name in the innermost one, and what waits decides whether it does.
-/

namespace MuCompletion

/-- What an identifier is declared as, and documented by, when it is read while this waits; nothing if
it is not declared. -/
def Pending.naming? : Pending → Option (SymbolKind × Option String)
  | .nothing => none
  | .binding waiting => some (waiting.kind, waiting.documentation)
  | .declaration waiting =>
    match waiting.stage with
    | .name _ => some (waiting.symbolKind, waiting.documentation)
    | _ => none

/-- What a token is declared as when it is read while this waits. -/
def Pending.names? (pending : Pending) (token : Token) : Option (SymbolKind × Option String) :=
  if token.kind = .identifier then pending.naming? else none

theorem Pending.names?_shift (distance : Nat) (pending : Pending) (token : Token) :
    (pending.shift distance).names? (token.shift distance) = pending.names? token := by
  cases pending with
  | nothing | binding => rfl
  | declaration declaration =>
      cases stage : declaration.stage <;>
        simp [names?, naming?, Pending.shift, PendingDeclaration.shift, stage, DeclarationStage.shift]

/-- The scope with the name that a token declares, if it declares one. -/
def Frame.note (frame : Frame) (token : Token) : Option (SymbolKind × Option String) → Frame
  | none => frame
  | some (kind, documentation) => frame.declare token.text kind token.span documentation

namespace ScopeBuilder

/-- The builder with other open scopes. -/
def amid (builder : ScopeBuilder) (frame : Frame) (outer : List Frame) : ScopeBuilder :=
  { builder with frame := frame, outer := outer }

section Amid

variable {builder : ScopeBuilder} {frame : Frame} {outer : List Frame} {token : Token}
  (opening : token.mark? ≠ some "\x7b") (closing : token.mark? ≠ some "\x7d")

include opening closing

theorem neutral_amid :
    (builder.amid frame outer).neutral token = (builder.neutral token).amid frame outer := by
  cases kind : token.kind with
  | keyword word =>
      simp only [neutral, kind]
      split
      · rfl
      · split <;> rfl
  | punctuation =>
      have other : token.text ≠ "\x7b" ∧ token.text ≠ "\x7d" := by
        simpa [Token.mark?, kind] using And.intro opening closing
      simp only [neutral, kind, other, if_false]
  | builtin =>
      simp only [neutral, kind]
      rfl
  | identifier | number | string | comment | whitespace => simp only [neutral, kind]

theorem readBinding_amid (binding : PendingBinding) :
    (builder.amid frame outer).readBinding binding token =
      (builder.readBinding binding token).amid
        (frame.note token ((Pending.binding binding).names? token)) outer := by
  have neutral := @neutral_amid builder frame outer token opening closing
  cases kind : token.kind with
  | identifier =>
      simp only [readBinding, kind, Pending.names?, if_true]
      rfl
  | builtin =>
      simp only [readBinding, kind, Pending.names?, reduceCtorEq, if_false]
      rfl
  | number | punctuation =>
      simp only [readBinding, kind, Pending.names?, reduceCtorEq, if_false, neutral]
      split <;> rfl
  | keyword | string | comment | whitespace =>
      simp only [readBinding, kind, Pending.names?, reduceCtorEq, if_false, neutral]
      rfl

theorem readDeclaration_amid (declaration : PendingDeclaration) :
    (builder.amid frame outer).readDeclaration declaration token =
      (builder.readDeclaration declaration token).amid
        (frame.note token ((Pending.declaration declaration).names? token)) outer := by
  have neutral := @neutral_amid builder frame outer token opening closing
  simp only [readDeclaration, opening, closing, if_false]
  cases stage : declaration.stage with
  | name colonSeen =>
      cases kind : token.kind with
      | identifier =>
          simp only [readName, kind, Pending.names?, Pending.naming?, stage, if_true]
          rfl
      | punctuation =>
          simp only [readName, kind, Pending.names?, reduceCtorEq, if_false]
          split
          · rfl
          · split
            · rfl
            · split <;> rfl
      | keyword | builtin | number | string | comment | whitespace =>
          simp only [readName, kind, Pending.names?, reduceCtorEq, if_false, neutral]
          rfl
  | header =>
      have unnamed : (Pending.declaration declaration).names? token = none := by
        simp [Pending.names?, Pending.naming?, stage]
      rw [unnamed]
      cases kind : token.kind with
      | keyword =>
          simp only [readHeader, kind, neutral]
          split <;> rfl
      | punctuation =>
          simp only [readHeader, kind]
          split
          · rfl
          · split <;> rfl
      | builtin | identifier | number | string | comment | whitespace =>
          simp only [readHeader, kind]
          rfl
  | parameters list =>
      have unnamed : (Pending.declaration declaration).names? token = none := by
        simp [Pending.names?, Pending.naming?, stage]
      rw [unnamed]
      rfl

/-- Reading a token that is no brace amid other scopes only declares its name in another one. -/
theorem read_amid :
    (builder.amid frame outer).read token =
      (builder.read token).amid (frame.note token (builder.pending.names? token)) outer := by
  obtain ⟨own, around, pending, comments, reattached⟩ := builder
  by_cases blank : token.kind = .whitespace ∨ token.kind = .comment
  · have unnamed : pending.names? token = none := by
      rcases blank with blank | comment
      · simp [Pending.names?, blank]
      · simp [Pending.names?, comment]
    rw [unnamed]
    rcases blank with blank | comment
    · simp only [read, blank, if_true, readBlank]
      split <;> rfl
    · simp only [read, comment, reduceCtorEq, if_false, if_true, readComment]
      rfl
  · obtain ⟨space, comment⟩ := not_or.mp blank
    simp only [read, space, comment, if_false]
    cases pending with
    | nothing =>
        have neutral := @neutral_amid ⟨own, around, .nothing, comments, reattached⟩ frame outer token
          opening closing
        have unnamed : Pending.nothing.names? token = none := by simp [Pending.names?, Pending.naming?]
        simp only [step, amid, unnamed, Frame.note] at neutral ⊢
        rw [neutral]
    | binding binding =>
        have reading := @readBinding_amid ⟨own, around, .nothing, comments, reattached⟩ frame outer
          token opening closing binding
        simp only [step, amid] at reading ⊢
        rw [reading]
    | declaration declaration =>
        have reading := @readDeclaration_amid ⟨own, around, .nothing, comments, reattached⟩ frame
          outer token opening closing declaration
        simp only [step, amid] at reading ⊢
        rw [reading]

/-- A token that is no brace declares its name, if it is one, and leaves the scopes otherwise. -/
theorem frame_read_quiet :
    (builder.read token).frame = builder.frame.note token (builder.pending.names? token) ∧
      (builder.read token).outer = builder.outer := by
  have reading := @read_amid builder builder.frame builder.outer token opening closing
  rw [show builder.amid builder.frame builder.outer = builder from rfl] at reading
  rw [reading]
  exact ⟨rfl, rfl⟩

end Amid

theorem opened_shift {builder moved : ScopeBuilder} (distance : Nat)
    (waits : moved.pending = builder.pending.shift distance) (token : Token) :
    moved.opened (token.shift distance) = (builder.opened token).shift distance := by
  cases waiting : builder.pending with
  | nothing | binding => simp [opened, waits, waiting, Pending.shift]
  | declaration declaration =>
      simp [opened, waits, waiting, Pending.shift, declaration.shift_endSegment,
        PendingDeclaration.shift_frame]

end ScopeBuilder

end MuCompletion
