import MuCompletion.Proofs.Scope.Builder

/-! # Moved tokens

Offsets inside a scope count from its start. A builder that has everything it knows moved up by some
distance therefore reads moved tokens as it reads the tokens themselves, and completes equal scopes.
-/

namespace MuCompletion

@[simp] theorem shiftOffset_natCast (distance offset : Nat) :
    shiftOffset distance offset = offset + distance := by
  simp only [shiftOffset]
  omega

namespace Token

@[simp] theorem kind_shift (delta : Int) (token : Token) : (token.shift delta).kind = token.kind := rfl

@[simp] theorem text_shift (delta : Int) (token : Token) : (token.shift delta).text = token.text := rfl

@[simp] theorem span_shift (delta : Int) (token : Token) :
    (token.shift delta).span = token.span.shift delta := rfl

@[simp] theorem mark?_shift (delta : Int) (token : Token) :
    (token.shift delta).mark? = token.mark? := rfl

end Token

namespace Span

@[simp] theorem start_shift (distance : Nat) (span : Span) :
    (span.shift distance).start = span.start + distance :=
  shiftOffset_natCast distance span.start

@[simp] theorem stop_shift (distance : Nat) (span : Span) :
    (span.shift distance).stop = span.stop + distance :=
  shiftOffset_natCast distance span.stop

@[simp] theorem length_shift (distance : Nat) (span : Span) :
    (span.shift distance).length = span.length := by
  simp [length, Nat.add_sub_add_right]

end Span

namespace Frame

/-- The scope begun later. -/
def shift (distance : Nat) (frame : Frame) : Frame :=
  { frame with start := frame.start + distance }

@[simp] theorem shift_opening (distance : Nat) (kind : ScopeKind) (start : Nat) :
    (opening kind start).shift distance = opening kind (start + distance) := rfl

@[simp] theorem shift_declare (distance : Nat) (frame : Frame) (name : String) (kind : SymbolKind)
    (span : Span) (documentation : Option String) :
    (frame.shift distance).declare name kind (span.shift distance) documentation =
      (frame.declare name kind span documentation).shift distance := by
  simp [declare, shift, Nat.add_sub_add_right]

@[simp] theorem shift_attach (distance : Nat) (frame : Frame) (start : Nat) (scope : Scope) :
    (frame.shift distance).attach (start + distance) scope =
      (frame.attach start scope).shift distance := by
  simp [attach, shift, Nat.add_sub_add_right]

@[simp] theorem shift_finish (distance : Nat) (frame : Frame) (stop : Nat) (closed : Bool) :
    (frame.shift distance).finish (stop + distance) closed = frame.finish stop closed := by
  simp [finish, shift, Nat.add_sub_add_right]

end Frame

def ParameterList.shift (distance : Nat) (list : ParameterList) : ParameterList :=
  { list with last := list.last.map (·.shift distance) }

def DeclarationStage.shift (distance : Nat) : DeclarationStage → DeclarationStage
  | .parameters list => .parameters (list.shift distance)
  | stage => stage

namespace PendingDeclaration

def shift (distance : Nat) (declaration : PendingDeclaration) : PendingDeclaration :=
  { declaration with
    start := declaration.start + distance
    name := declaration.name.map (·.shift distance)
    parameters := declaration.parameters.map (·.shift distance)
    stage := declaration.stage.shift distance }

theorem stage_shift (distance : Nat) {declaration : PendingDeclaration} {stage : DeclarationStage}
    (reading : declaration.stage = stage) :
    (declaration.shift distance).stage = stage.shift distance :=
  congrArg (DeclarationStage.shift distance) reading

theorem shift_endSegment (distance : Nat) (declaration : PendingDeclaration) :
    (declaration.shift distance).endSegment = declaration.endSegment.shift distance := by
  cases stage : declaration.stage with
  | name | header => simp [endSegment, shift, stage, DeclarationStage.shift]
  | parameters list =>
      cases last : list.last <;> by_cases named : 2 ≤ list.words <;>
        simp [endSegment, shift, stage, DeclarationStage.shift, ParameterList.shift,
          ParameterList.parameter?, ParameterList.nextSegment, last, named]

theorem shift_frame (distance : Nat) (declaration : PendingDeclaration) :
    (declaration.shift distance).frame = declaration.frame.shift distance := by
  cases name : declaration.name <;>
    simp [frame, shift, Frame.shift, name, Nat.add_sub_add_right]

end PendingDeclaration

def Pending.shift (distance : Nat) : Pending → Pending
  | .declaration waiting => .declaration (waiting.shift distance)
  | pending => pending

namespace ScopeBuilder

def shift (distance : Nat) (builder : ScopeBuilder) : ScopeBuilder :=
  { builder with
    frame := builder.frame.shift distance
    outer := builder.outer.map (·.shift distance)
    pending := builder.pending.shift distance }

section Shift

variable (distance : Nat) (builder : ScopeBuilder) (token : Token)

theorem shift_close (stop : Nat) :
    (builder.shift distance).close (stop + distance) = (builder.close stop).shift distance := by
  cases around : builder.outer with
  | nil => simp [close, shift, around]
  | cons frame outer =>
      have start : (builder.frame.shift distance).start = builder.frame.start + distance := rfl
      simp [close, shift, around, start]

theorem shift_declare (kind : SymbolKind) (documentation : Option String) :
    (builder.shift distance).declare (token.shift distance) kind documentation =
      (builder.declare token kind documentation).shift distance := by
  simp [declare, shift]

theorem shift_neutral :
    (builder.shift distance).neutral (token.shift distance) =
      (builder.neutral token).shift distance := by
  cases kind : token.kind with
  | keyword word =>
      simp only [neutral, Token.kind_shift, kind]
      split
      · rfl
      · split
        · simp [awaitDeclaration, shift, Pending.shift, PendingDeclaration.shift,
            DeclarationStage.shift]
        · rfl
  | punctuation =>
      have closed := shift_close distance builder token.span.stop
      have opened : (builder.shift distance).openFrame (.opening .block (token.span.start + distance)) =
        (builder.openFrame (.opening .block token.span.start)).shift distance := rfl
      simp only [neutral, Token.kind_shift, kind, Token.span_shift, Span.start_shift, Span.stop_shift,
        opened, closed, apply_ite (shift distance)]
      rfl
  | builtin =>
      simp only [neutral, Token.kind_shift, kind]
      rfl
  | identifier | number | string | comment | whitespace =>
      simp only [neutral, Token.kind_shift, kind]

theorem shift_readBinding (binding : PendingBinding) :
    (builder.shift distance).readBinding binding (token.shift distance) =
      (builder.readBinding binding token).shift distance := by
  have neutral := shift_neutral distance builder token
  cases kind : token.kind with
  | identifier =>
      simp only [readBinding, Token.kind_shift, kind]
      exact shift_declare distance builder token _ _
  | builtin =>
      simp only [readBinding, Token.kind_shift, kind]
      rfl
  | number | punctuation =>
      simp only [readBinding, Token.kind_shift, kind, neutral, apply_ite (shift distance)]
      rfl
  | keyword | string | comment | whitespace =>
      simp only [readBinding, Token.kind_shift, kind]
      exact neutral

theorem shift_readName (declaration : PendingDeclaration) (colonSeen : Bool) :
    (builder.shift distance).readName (declaration.shift distance) colonSeen (token.shift distance) =
      (builder.readName declaration colonSeen token).shift distance := by
  cases kind : token.kind with
  | identifier =>
      have declared := shift_declare distance builder token declaration.symbolKind
        declaration.documentation
      simp only [readName, Token.kind_shift, kind, PendingDeclaration.shift, declared]
      rfl
  | punctuation =>
      simp only [readName, Token.kind_shift, kind, apply_ite (shift distance)]
      rfl
  | keyword | builtin | number | string | comment | whitespace =>
      simp only [readName, Token.kind_shift, kind]
      exact shift_neutral distance builder token

theorem shift_readHeader (declaration : PendingDeclaration) :
    (builder.shift distance).readHeader (declaration.shift distance) (token.shift distance) =
      (builder.readHeader declaration token).shift distance := by
  have neutral := shift_neutral distance builder token
  cases kind : token.kind with
  | keyword =>
      simp only [readHeader, Token.kind_shift, kind, neutral, apply_ite (shift distance)]
      rfl
  | punctuation =>
      simp only [readHeader, Token.kind_shift, kind, apply_ite (shift distance)]
      rfl
  | identifier | builtin | number | string | comment | whitespace =>
      simp only [readHeader, Token.kind_shift, kind]
      rfl

theorem shift_readParameters (declaration : PendingDeclaration) (list : ParameterList) :
    readParameters (declaration.shift distance) (list.shift distance) (token.shift distance) =
      (readParameters declaration list token).shift distance := by
  have ended := declaration.shift_endSegment distance
  cases kind : token.kind with
  | identifier | builtin | punctuation =>
      simp only [readParameters, Token.kind_shift, kind, ended,
        apply_ite (PendingDeclaration.shift distance)]
      rfl
  | keyword | number | string | comment | whitespace =>
      simp only [readParameters, Token.kind_shift, kind]

theorem shift_readDeclaration (declaration : PendingDeclaration) :
    (builder.shift distance).readDeclaration (declaration.shift distance) (token.shift distance) =
      (builder.readDeclaration declaration token).shift distance := by
  by_cases closing : token.mark? = some "\x7d"
  · simpa [readDeclaration, closing] using shift_close distance builder token.span.stop
  · by_cases opening : token.mark? = some "\x7b"
    · simp [readDeclaration, opening, declaration.shift_endSegment,
        PendingDeclaration.shift_frame, openFrame, shift]
    · simp only [readDeclaration, Token.mark?_shift, closing, opening, if_false]
      cases stage : declaration.stage with
      | name colonSeen =>
          have same := PendingDeclaration.stage_shift distance stage
          simp only [same, DeclarationStage.shift]
          exact shift_readName distance builder token declaration colonSeen
      | header =>
          have same := PendingDeclaration.stage_shift distance stage
          simp only [same, DeclarationStage.shift]
          exact shift_readHeader distance builder token declaration
      | parameters list =>
          have same := PendingDeclaration.stage_shift distance stage
          simp only [same, DeclarationStage.shift, shift_readParameters]
          rfl

theorem shift_step :
    (builder.shift distance).step (token.shift distance) = (builder.step token).shift distance := by
  obtain ⟨frame, outer, pending, comments, reattached⟩ := builder
  cases pending with
  | nothing =>
      have reading := shift_neutral distance ⟨frame, outer, .nothing, comments, reattached⟩ token
      simp only [step, shift, Pending.shift] at reading ⊢
      rw [reading]
  | binding binding =>
      have reading :=
        shift_readBinding distance ⟨frame, outer, .nothing, comments, reattached⟩ token binding
      simp only [step, shift, Pending.shift] at reading ⊢
      rw [reading]
  | declaration declaration =>
      have reading :=
        shift_readDeclaration distance ⟨frame, outer, .nothing, comments, reattached⟩ token declaration
      simp only [step, shift, Pending.shift] at reading ⊢
      rw [reading]

/-- A moved builder reads moved tokens alike. -/
theorem shift_read :
    (builder.shift distance).read (token.shift distance) = (builder.read token).shift distance := by
  have stepped := shift_step distance builder token
  simp only [read, readBlank, stepped, apply_ite (shift distance)]
  rfl

end Shift

end ScopeBuilder

end MuCompletion
