import Mathlib.Data.List.Chain
import MuCompletion.Proofs.Scope.Control
import MuCompletion.Proofs.Scope.Rooted

/-! # What open scopes keep

A scope is open from its brace on. It gains the names that are declared in it and the scopes that end
in it, and at last it ends itself. What holds of an open scope from its brace on, whatever it gains,
is therefore known of every scope of a text.
-/

namespace MuCompletion

open ScopeBuilder

/-- What holds of the scope at its start, and of all scopes inside it at theirs. -/
def Throughout (good : Nat → Scope → Prop) (entry : Nat × Scope) : Prop :=
  ∀ tree, Placed entry.1 entry.2 tree → ∀ node, Within tree node →
    good node.entry.span.start node.scope

/-- The names and scopes that open scopes gain while the tokens are read, up to an offset, keep what
`holds` of them, and make scopes that are `good` when they end. What holds `around` a scope is said of
the open scope around it, and of the start and the name of the scope inside. -/
structure Keeps (tokens : List Token) (holds : Nat → Frame → Prop)
    (around : Frame → Nat → Option Declared → Prop) (good : Nat → Scope → Prop) : Prop where
  first : holds 0 (.opening .«module» 0)
  later : ∀ stop stop' frame, stop ≤ stop' → holds stop frame → holds stop' frame
  notes : ∀ before token after, before ++ token :: after = tokens →
    Tiles 0 before token.span.start → token.span.start < token.span.stop →
    holds token.span.start (before.foldl read .initial).frame →
    holds token.span.stop ((before.foldl read .initial).frame.note token
      ((before.foldl read .initial).pending.names? token))
  opens : ∀ before token after, before ++ token :: after = tokens →
    Tiles 0 before token.span.start → token.span.start < token.span.stop →
    token.mark? = some "\x7b" →
    holds token.span.stop ((before.foldl read .initial).opened token) ∧
      around (before.foldl read .initial).frame ((before.foldl read .initial).opened token).start
        ((before.foldl read .initial).opened token).declared
  attaches : ∀ stop (outer inner : Frame) stop' closed, outer.start ≤ inner.start →
    holds stop outer → around outer inner.start inner.declared →
    holds stop (outer.attach inner.start (inner.finish stop' closed))
  ends : ∀ stop (frame : Frame) stop' closed, holds stop frame →
    good frame.start (frame.finish stop' closed)

/-- An open scope and the one around it. -/
def Frame.Beside (around : Frame → Nat → Option Declared → Prop) (inner outer : Frame) : Prop :=
  outer.start ≤ inner.start ∧ around outer inner.start inner.declared

/-- What is known of the open scopes, and of the scopes that are complete in them, when the reading
stands at `stop`. -/
structure Kept (holds : Nat → Frame → Prop) (around : Frame → Nat → Option Declared → Prop)
    (good : Nat → Scope → Prop) (stop : Nat) (frame : Frame) (outer : List Frame) : Prop where
  held : ∀ open_ ∈ frame :: outer, holds stop open_
  nested : (frame :: outer).IsChain (Frame.Beside around)
  complete : ∀ entry ∈ (frame :: outer).flatMap Frame.scopes, Throughout good entry

section

variable {tokens : List Token} {holds : Nat → Frame → Prop}
  {around : Frame → Nat → Option Declared → Prop} {good : Nat → Scope → Prop} {stop stop' : Nat}
  {frame frame' next : Frame} {outer : List Frame}

theorem Throughout.node {start : Nat} {scope : Scope} (here : good start scope)
    (inside : ∀ child ∈ scope.children, Throughout good (start + child.1, child.2)) :
    Throughout good (start, scope) := by
  intro tree placed node within
  rcases placed.cases_within within with rfl | ⟨child, complete, branch, placed, within⟩
  · rw [placed.span, placed.scope_eq]
    exact here
  · exact inside child complete branch placed node within

namespace Kept

theorem change (kept : Kept holds around good stop frame outer)
    (keeps : Keeps tokens holds around good) (later : stop ≤ stop')
    (start : frame'.start = frame.start) (declared : frame'.declared = frame.declared)
    (scopes : frame'.scopes = frame.scopes) (held : holds stop' frame') :
    Kept holds around good stop' frame' outer where
  held := by
    intro open_ member
    rcases List.mem_cons.mp member with rfl | member
    · exact held
    · exact keeps.later stop stop' open_ later (kept.held open_ (List.mem_cons_of_mem _ member))
  nested := by
    have nested := kept.nested
    rw [List.isChain_cons] at nested ⊢
    simpa only [Frame.Beside, start, declared] using nested
  complete := by
    have complete := kept.complete
    rw [List.flatMap_cons] at complete ⊢
    rwa [scopes]

theorem ended (kept : Kept holds around good stop frame outer)
    (keeps : Keeps tokens holds around good) (stop' : Nat) (closed : Bool) :
    Throughout good (frame.start, frame.finish stop' closed) := by
  apply Throughout.node
  · exact keeps.ends stop frame stop' closed (kept.held frame List.mem_cons_self)
  · intro child complete
    apply kept.complete
    exact Frame.mem_flatMap_scopes List.mem_cons_self (List.mem_reverse.mp complete)

theorem close (kept : Kept holds around good stop frame (next :: outer))
    (keeps : Keeps tokens holds around good) (stop' : Nat) (closed : Bool) :
    Kept holds around good stop (next.attach frame.start (frame.finish stop' closed)) outer := by
  obtain ⟨⟨after, declares⟩, nested⟩ := List.isChain_cons_cons.mp kept.nested
  constructor
  · intro open_ member
    rcases List.mem_cons.mp member with rfl | member
    · apply keeps.attaches stop next frame stop' closed after _ declares
      exact kept.held next (by simp)
    · exact kept.held open_ (by simp [member])
  · rw [List.isChain_cons] at nested ⊢
    exact nested
  · rw [flatMap_scopes_attach after]
    intro entry member
    rcases List.mem_cons.mp member with rfl | member
    · exact kept.ended keeps stop' closed
    · exact kept.complete entry (List.mem_append_right _ member)

theorem finish (kept : Kept holds around good stop frame outer)
    (keeps : Keeps tokens holds around good) (stop' : Nat) :
    Throughout good ((outer.getLastD frame).start, ScopeBuilder.finish stop' frame outer) := by
  induction outer generalizing frame with
  | nil => exact kept.ended keeps stop' true
  | cons next outer ih =>
      have closed := ih (kept.close keeps stop' false)
      rwa [start_getLastD_attach frame] at closed

theorem initial (keeps : Keeps tokens holds around good) :
    Kept holds around good 0 ScopeBuilder.initial.frame ScopeBuilder.initial.outer where
  held := by simpa [ScopeBuilder.initial] using keeps.first
  nested := .singleton _
  complete := by simp [ScopeBuilder.initial, Frame.opening, Frame.scopes]

end Kept

namespace Keeps

variable {before after : List Token} {token : Token}

theorem step (keeps : Keeps tokens holds around good) (split : before ++ token :: after = tokens)
    (tiles : Tiles 0 before token.span.start) (filled : token.span.start < token.span.stop)
    (kept : Kept holds around good token.span.start (before.foldl read .initial).frame
      (before.foldl read .initial).outer) :
    Kept holds around good token.span.stop ((before.foldl read .initial).read token).frame
      ((before.foldl read .initial).read token).outer := by
  have grounded := (Grounded.run tiles).step rfl filled
  have notes := keeps.notes before token after split tiles filled
  have opens := keeps.opens before token after split tiles filled
  generalize before.foldl read .initial = builder at kept grounded notes opens ⊢
  have longer : Kept holds around good token.span.stop builder.frame builder.outer := by
    apply kept.change keeps (Nat.le_of_lt filled) rfl rfl rfl
    exact keeps.later _ _ _ (Nat.le_of_lt filled) (kept.held _ List.mem_cons_self)
  by_cases opening : token.mark? = some "\x7b"
  · obtain ⟨held, declares⟩ := opens opening
    have begins := @Grounded.start_le _ _ _ grounded
    rw [read_opening opening] at begins ⊢
    have empty : (builder.opened token).scopes = [] := by simp [Frame.scopes, children_opened]
    constructor
    · intro open_ member
      rcases List.mem_cons.mp member with rfl | member
      · exact held
      · exact longer.held open_ member
    · exact List.isChain_cons_cons.mpr ⟨⟨begins rfl, declares⟩, longer.nested⟩
    · rw [List.flatMap_cons, empty]
      exact longer.complete
  · by_cases closing : token.mark? = some "\x7d"
    · rw [read_closing closing]
      cases open_ : builder.outer with
      | nil => simpa only [ScopeBuilder.close, open_] using longer
      | cons next outer =>
          rw [open_] at longer
          simpa only [ScopeBuilder.close, open_] using longer.close keeps token.span.stop true
    · obtain ⟨frame, outer⟩ := @frame_read_quiet builder token opening closing
      rw [frame, outer]
      have held := notes (kept.held _ List.mem_cons_self)
      cases naming : builder.pending.names? token with
      | none => exact longer
      | some naming' =>
          rw [naming] at held
          exact kept.change keeps (Nat.le_of_lt filled) rfl rfl rfl held

theorem run (keeps : Keeps tokens holds around good) (tiles : Tiles 0 tokens stop) :
    Kept holds around good stop (tokens.foldl read .initial).frame
      (tokens.foldl read .initial).outer := by
  have run := @foldl_read_of_step
    (fun before stop builder => builder = before.foldl read .initial ∧ Tiles 0 before stop ∧
      Kept holds around good stop builder.frame builder.outer)
    tokens stop tiles ⟨rfl, rfl, .initial keeps⟩ ?_
  · exact run.2.2
  · rintro before token after start builder split rfl filled ⟨rfl, tiles, kept⟩
    refine ⟨by simp, ?_, keeps.step split tiles filled kept⟩
    exact Tiles.append_iff.mpr ⟨_, tiles, rfl, filled, rfl⟩

/-- What every open scope keeps is known of every scope of the text. -/
theorem within_ofTokens (keeps : Keeps tokens holds around good) (tiles : Tiles 0 tokens stop)
    {node : ScopeTree} (within : Within (ScopeTree.ofTokens tokens) node) :
    good node.entry.span.start node.scope := by
  have finished := (keeps.run tiles).finish keeps (lastStop tokens)
  have bottom : ((tokens.foldl read .initial).outer.getLastD
      (tokens.foldl read .initial).frame).start = 0 := (Grounded.run tiles).bottom
  have placed := Placed.ofTokens tokens
  rw [Scope.ofTokens, run_nil_eq_foldl] at placed
  rw [bottom] at finished
  exact finished _ placed node within

end Keeps

end

end MuCompletion
