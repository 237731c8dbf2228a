import Mathlib.Data.Nat.PSub
import MuCompletion.Proofs.Scope.Control
import MuCompletion.Proofs.Scope.Layout
import MuCompletion.Proofs.Scope.Naming
import MuCompletion.Proofs.Scope.Rooted

/-! # Differences of offsets

A scope counts the offsets of its names and of the scopes inside it from its start, and its length from
its start to its end. All these numbers are differences, and a difference below zero would be cut off.
Here the builder takes each of them only if it exists. While the open scopes and the declaration that
waits begin one behind the other, and the names that wait stand behind the start of their declaration,
all of them exist, and nothing else is built.
-/

namespace MuCompletion

open ScopeBuilder

/-! ## Exact differences -/

/-- Where a span begins, counted from `start`, and its length, if both are differences. -/
def Span.since? (start : Nat) (span : Span) : Option (Nat × Nat) := do
  let offset ← Nat.psub span.start start
  let length ← Nat.psub span.stop span.start
  pure (offset, length)

theorem Span.since?_eq {start : Nat} {span : Span} (after : start ≤ span.start)
    (filled : span.start ≤ span.stop) :
    span.since? start = some (span.start - start, span.length) := by
  simp [since?, Nat.psub_eq_sub after, Nat.psub_eq_sub filled, Span.length]

namespace Frame

def declare? (frame : Frame) (name : String) (kind : SymbolKind) (span : Span)
    (documentation : Option String) : Option Frame := do
  let (offset, length) ← span.since? frame.start
  pure { frame with symbols := ⟨name, kind, offset, length, documentation⟩ :: frame.symbols }

def note? (frame : Frame) (token : Token) : Option (SymbolKind × Option String) → Option Frame
  | none => some frame
  | some (kind, documentation) => frame.declare? token.text kind token.span documentation

def introduce? (start : Nat) (documentation : Option String) (frame : Frame) :
    Option Declared → Option Frame
  | none => some frame
  | some name =>
    frame.declare? name.name name.kind
      ⟨start + name.offset, start + name.offset + name.length⟩ documentation

def attach? (frame : Frame) (start : Nat) (scope : Scope) : Option Frame := do
  let offset ← Nat.psub start frame.start
  pure { frame with children := (offset, scope) :: frame.children }

def finish? (frame : Frame) (stop : Nat) (closed : Bool) : Option Scope := do
  let length ← Nat.psub stop frame.start
  pure (.node ⟨frame.kind, frame.name, length, closed, frame.symbols.reverse, frame.declared⟩
    frame.children.reverse)

variable {frame : Frame}

theorem declare?_eq {span : Span} (after : frame.start ≤ span.start)
    (filled : span.start ≤ span.stop) (name : String) (kind : SymbolKind)
    (documentation : Option String) :
    frame.declare? name kind span documentation = some (frame.declare name kind span documentation) := by
  simp [declare?, declare, Span.since?_eq after filled]

theorem note?_eq {token : Token} (after : frame.start ≤ token.span.start)
    (filled : token.span.start ≤ token.span.stop) (naming : Option (SymbolKind × Option String)) :
    frame.note? token naming = some (frame.note token naming) := by
  cases naming with
  | none => rfl
  | some naming => exact declare?_eq after filled _ _ _

theorem introduce?_eq {start : Nat} (after : frame.start ≤ start) (documentation : Option String)
    (declared : Option Declared) :
    frame.introduce? start documentation declared = some (frame.introduce start documentation declared) := by
  cases declared with
  | none => rfl
  | some name =>
      exact declare?_eq (Nat.le_trans after (Nat.le_add_right _ _)) (Nat.le_add_right _ _) _ _ _

theorem attach?_eq {start : Nat} (after : frame.start ≤ start) (scope : Scope) :
    frame.attach? start scope = some (frame.attach start scope) := by
  simp [attach?, attach, Nat.psub_eq_sub after]

theorem finish?_eq {stop : Nat} (after : frame.start ≤ stop) (closed : Bool) :
    frame.finish? stop closed = some (frame.finish stop closed) := by
  simp [finish?, finish, Nat.psub_eq_sub after]

end Frame

theorem mapM_eq_some_map {α β : Type} {partly : α → Option β} {wholly : α → β} {values : List α}
    (same : ∀ value ∈ values, partly value = some (wholly value)) :
    values.mapM partly = some (values.map wholly) := by
  induction values with
  | nil => rfl
  | cons value rest ih =>
      have here := same value List.mem_cons_self
      have later := ih fun value member => same value (List.mem_cons_of_mem _ member)
      simp [List.mapM_cons, here, later]

namespace PendingDeclaration

/-- What the declaration makes known of its scope when `name` is its name. -/
def title? (declaration : PendingDeclaration) (name : Token) : Option Declared := do
  let (offset, length) ← name.span.since? declaration.start
  pure ⟨name.text, declaration.symbolKind, offset, length⟩

/-- The symbol of a parameter in the scope that the declaration opens. -/
def parameter? (declaration : PendingDeclaration) (parameter : Token) : Option Symbol := do
  let (offset, length) ← parameter.span.since? declaration.start
  pure ⟨parameter.text, .«variable», offset, length, none⟩

/-- The scope that the declaration opens. -/
def frame? (declaration : PendingDeclaration) : Option Frame := do
  let declared ← declaration.name.mapM declaration.title?
  let symbols ← declaration.parameters.mapM declaration.parameter?
  pure ⟨declaration.scopeKind, declaration.name.map (·.text), declaration.start, declared, symbols, []⟩

/-- The names that the declaration has read stand behind its start. -/
def Leads (declaration : PendingDeclaration) : Prop :=
  ∀ name ∈ declaration.name.toList ++ declaration.collected,
    declaration.start ≤ name.span.start ∧ name.span.start ≤ name.span.stop

theorem frame?_eq {declaration : PendingDeclaration}
    (after : ∀ name ∈ declaration.name.toList ++ declaration.parameters,
      declaration.start ≤ name.span.start ∧ name.span.start ≤ name.span.stop) :
    declaration.frame? = some declaration.frame := by
  have since (name : Token) (member : name ∈ declaration.name.toList ++ declaration.parameters) :
      name.span.since? declaration.start =
        some (name.span.start - declaration.start, name.span.length) :=
    Span.since?_eq (after name member).1 (after name member).2
  have symbols : declaration.parameters.mapM declaration.parameter? = some declaration.frame.symbols := by
    refine mapM_eq_some_map fun parameter member => ?_
    simp [parameter?, since parameter (List.mem_append_right _ member)]
  cases name : declaration.name with
  | none =>
      simp only [frame?, name, Option.mapM_none, symbols]
      simp [frame, name]
  | some title =>
      have here := since title (by simp [name])
      simp only [frame?, name, Option.mapM_some, symbols, title?, here]
      simp [frame, name]

theorem frame?_endSegment {declaration : PendingDeclaration} (leads : declaration.Leads) :
    declaration.endSegment.frame? = some declaration.endSegment.frame := by
  have name : declaration.endSegment.name = declaration.name := by
    cases stage : declaration.stage <;> simp [endSegment, stage]
  have start : declaration.endSegment.start = declaration.start := start_frame_endSegment
  apply frame?_eq
  rw [name, start]
  intro title member
  apply leads
  rcases List.mem_append.mp member with title | parameter
  · exact List.mem_append_left _ title
  · exact List.mem_append_right _ (parameters_endSegment.subset parameter)

theorem Leads.next? {declaration next : PendingDeclaration} {token : Token}
    (leads : declaration.Leads) (goesOn : declaration.next? token = some next)
    (after : declaration.start ≤ token.span.start) (filled : token.span.start ≤ token.span.stop) :
    next.Leads := by
  intro name member
  rw [(same_next? goesOn).1]
  have here : ∀ name, name = token →
      declaration.start ≤ name.span.start ∧ name.span.start ≤ name.span.stop := by
    rintro name rfl
    exact ⟨after, filled⟩
  rcases List.mem_append.mp member with title | listed
  · rcases name_next? goesOn with same | ⟨-, -, read⟩
    · exact leads name (List.mem_append_left _ (same ▸ title))
    · exact here name (by simpa [read, eq_comm] using title)
  · rcases collected_next? goesOn with sub | ⟨-, -, sub⟩
    · exact leads name (List.mem_append_right _ (sub.subset listed))
    · rcases List.mem_cons.mp (sub.subset listed) with read | old
      · exact here name read
      · exact leads name (List.mem_append_right _ old)

end PendingDeclaration

/-! ## The builder with exact differences -/

namespace ScopeBuilder

/-- Close the innermost open scope at `stop`; the module scope stays open. -/
def close? (builder : ScopeBuilder) (stop : Nat) : Option ScopeBuilder :=
  match builder.outer with
  | [] => some builder
  | around :: outer => do
    let scope ← builder.frame.finish? stop true
    let frame ← around.attach? builder.frame.start scope
    pure { builder with frame := frame, outer := outer }

/-- The scope that an opening brace opens. -/
def opened? (builder : ScopeBuilder) (token : Token) : Option Frame :=
  match builder.pending with
  | .declaration declaration => declaration.endSegment.frame?
  | _ => some (.opening .block token.span.start)

/-- Read a token that is neither blank nor a comment. A brace opens or closes a scope, whatever waits;
another token declares its own name at most, and decides what waits then. -/
def step? (builder : ScopeBuilder) (token : Token) : Option ScopeBuilder :=
  if token.mark? = some "\x7b" then do
    let frame ← builder.opened? token
    pure ⟨frame, builder.frame :: builder.outer, .nothing, [], builder.reattached⟩
  else if token.mark? = some "\x7d" then do
    let closed ← builder.close? token.span.stop
    pure { closed with pending := .nothing, comments := [] }
  else do
    let frame ← builder.frame.note? token (builder.pending.names? token)
    pure ((builder.step token).amid frame builder.outer)

/-- Put a scope of an earlier version in place at `start`. -/
def reattach? (builder : ScopeBuilder) (start : Nat) (tree : ScopeTree) : Option ScopeBuilder := do
  let named ← builder.frame.introduce? start (documentation? builder.comments)
    tree.scope.head.declared
  let frame ← named.attach? start tree.scope
  pure { builder with
    frame := frame
    comments := []
    reattached := (start, tree) :: builder.reattached }

/-- The module scope, when the text ends at `stop`. -/
def finish? (stop : Nat) (frame : Frame) : List Frame → Option Scope
  | [] => frame.finish? stop true
  | around :: outer => do
    let scope ← frame.finish? stop false
    let frame ← around.attach? frame.start scope
    finish? stop frame outer

theorem reattach_eq (builder : ScopeBuilder) (start : Nat) (tree : ScopeTree) :
    builder.reattach start tree =
      { builder with
        frame := (builder.frame.introduce start (documentation? builder.comments)
          tree.scope.head.declared).attach start tree.scope
        comments := []
        reattached := (start, tree) :: builder.reattached } := by
  cases declared : tree.scope.head.declared <;> simp [reattach, declared, Frame.introduce]

/-- The open scopes and what waits inside them begin one behind the other and not behind `stop`, and the
names that wait stand behind the start of their declaration. -/
structure Ordered (stop : Nat) (builder : ScopeBuilder) : Prop where
  starts : (stop :: builder.starts).Pairwise (· ≥ ·)
  names : ∀ declaration, builder.pending = .declaration declaration → declaration.Leads

namespace Ordered

variable {stop : Nat} {builder : ScopeBuilder} {token : Token}

theorem initial : Ordered 0 .initial where
  starts := by simp [ScopeBuilder.starts, ScopeBuilder.initial, Frame.opening]
  names := fun declaration waits => by simp [ScopeBuilder.initial] at waits

theorem frames (ordered : Ordered stop builder) :
    (stop :: (builder.frame :: builder.outer).map (·.start)).Pairwise (· ≥ ·) :=
  ordered.starts.sublist ((List.sublist_append_right _ _).cons_cons _)

theorem start_le (ordered : Ordered stop builder) : builder.frame.start ≤ stop :=
  List.rel_of_pairwise_cons ordered.frames (by simp)

theorem mono {stop' : Nat} (ordered : Ordered stop builder) (later : stop ≤ stop') :
    Ordered stop' builder where
  starts := by
    obtain ⟨before, starts⟩ := List.pairwise_cons.mp ordered.starts
    exact .cons (fun start member => Nat.le_trans (before start member) later) starts
  names := ordered.names

theorem read (ordered : Ordered token.span.start builder)
    (filled : token.span.start ≤ token.span.stop) :
    Ordered token.span.stop (builder.read token) where
  starts := by
    have before : (token.span.stop :: token.span.start :: builder.starts).Pairwise (· ≥ ·) := by
      refine .cons (fun start member => ?_) ordered.starts
      rcases List.mem_cons.mp member with rfl | member
      · exact filled
      · exact Nat.le_trans (List.rel_of_pairwise_cons ordered.starts member) filled
    exact before.sublist (starts_read.cons_cons _)
  names := by
    have waiting : ∀ declaration, builder.pending = .declaration declaration →
        declaration.Leads ∧ declaration.start ≤ token.span.start := by
      intro declaration waits
      refine ⟨ordered.names declaration waits, List.rel_of_pairwise_cons ordered.starts ?_⟩
      simp [ScopeBuilder.starts, waits]
    refine waiting_read waiting (fun next _ begun => ?_) fun declaration next _ _ ordered goesOn =>
      ordered.1.next? goesOn ordered.2 filled
    obtain ⟨word, scopeKind, symbolKind, -, -, same⟩ := PendingDeclaration.begin?_eq_some begun
    have name : next.name = none := congrArg PendingDeclaration.name same
    have collected : (next.documented none).collected = [] :=
      PendingDeclaration.collected_begin? begun
    have collected : next.collected = [] := collected
    intro title member
    simp [name, collected] at member

theorem reattach (ordered : Ordered stop builder) (idle : builder.pending = .nothing) (tree : ScopeTree) :
    Ordered stop (builder.reattach stop tree) where
  starts := by
    have frames := ordered.frames
    rw [reattach_eq]
    cases declared : tree.scope.head.declared <;>
      simpa [ScopeBuilder.starts, idle, Frame.introduce, Frame.attach, Frame.declare] using frames
  names := fun declaration waits => by simp [ScopeBuilder.reattach, idle] at waits

end Ordered

section

variable {stop : Nat} {builder : ScopeBuilder} {token : Token}

theorem close?_eq (ordered : Ordered stop builder) : builder.close? stop = some (builder.close stop) := by
  have frames := ordered.frames
  cases outer : builder.outer with
  | nil => simp [close?, close, outer]
  | cons around outer' =>
      simp only [outer, List.map_cons, List.pairwise_cons] at frames
      have after : around.start ≤ builder.frame.start := frames.2.1 _ List.mem_cons_self
      simp [close?, close, outer, Frame.finish?_eq ordered.start_le, Frame.attach?_eq after]

theorem opened?_eq (ordered : Ordered stop builder) :
    builder.opened? token = some (builder.opened token) := by
  cases waits : builder.pending with
  | nothing | binding => simp [opened?, opened, waits]
  | declaration declaration =>
      simp only [opened?, opened, waits]
      exact PendingDeclaration.frame?_endSegment (ordered.names declaration waits)

/-- No difference is below zero where a token is read. -/
theorem step?_eq (ordered : Ordered token.span.start builder)
    (filled : token.span.start ≤ token.span.stop)
    (blank : ¬(token.kind = .whitespace ∨ token.kind = .comment)) :
    builder.step? token = some (builder.step token) := by
  obtain ⟨space, comment⟩ := not_or.mp blank
  have read : builder.read token = builder.step token := by simp [read, space, comment]
  by_cases opening : token.mark? = some "\x7b"
  · rw [← read, read_opening opening]
    simp [step?, opening, opened?_eq ordered]
  · by_cases closing : token.mark? = some "\x7d"
    · rw [← read, read_closing closing]
      simp [step?, closing, close?_eq (ordered.mono filled)]
    · obtain ⟨frame, outer⟩ := @frame_read_quiet builder token opening closing
      simp only [step?, opening, closing, if_false]
      rw [Frame.note?_eq ordered.start_le filled, ← read, ← frame, ← outer]
      rfl

theorem reattach?_eq (ordered : Ordered stop builder) (tree : ScopeTree) :
    builder.reattach? stop tree = some (builder.reattach stop tree) := by
  have after : (builder.frame.introduce stop (documentation? builder.comments)
      tree.scope.head.declared).start ≤ stop := by
    cases tree.scope.head.declared <;> exact ordered.start_le
  rw [reattach?, reattach_eq, Frame.introduce?_eq ordered.start_le]
  simp [Frame.attach?_eq after]

theorem finish?_eq {frame : Frame} {outer : List Frame}
    (ordered : (stop :: (frame :: outer).map (·.start)).Pairwise (· ≥ ·)) :
    finish? stop frame outer = some (finish stop frame outer) := by
  have after : frame.start ≤ stop := List.rel_of_pairwise_cons ordered (by simp)
  induction outer generalizing frame with
  | nil => exact Frame.finish?_eq after true
  | cons around outer ih =>
      have behind : around.start ≤ frame.start := by
        simp only [List.map_cons, List.pairwise_cons] at ordered
        exact ordered.2.1 _ List.mem_cons_self
      have nested : (stop :: (around :: outer).map (·.start)).Pairwise (· ≥ ·) :=
        ordered.sublist ((List.sublist_cons_self _ _).cons_cons _)
      simp only [finish?, finish, Frame.finish?_eq after, Frame.attach?_eq behind]
      exact ih nested (Nat.le_trans behind after)

end

end ScopeBuilder

end MuCompletion
