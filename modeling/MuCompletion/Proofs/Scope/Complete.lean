import MuCompletion.Proofs.Scope.Extent
import MuCompletion.Proofs.Scope.Reading

/-! # Complete scopes

The complete scopes inside the open ones stay where they are while a builder reads on. A brace that
closes the innermost open scope makes it complete, and takes those inside it along. At the end of the
text the open scopes are completed from the inside out, and all stand in the module.
-/

namespace MuCompletion

open ScopeBuilder

/-- The complete scopes directly inside an open scope, with their starts. -/
def Frame.scopes (frame : Frame) : List (Nat × Scope) :=
  frame.children.map fun child => (frame.start + child.1, child.2)

/-- The complete scopes directly inside the open scopes, with their starts. -/
def ScopeBuilder.scopes (builder : ScopeBuilder) : List (Nat × Scope) :=
  (builder.frame :: builder.outer).flatMap Frame.scopes

section

variable {builder : ScopeBuilder} {token : Token} {frame around : Frame} {outer : List Frame}
  {start stop : Nat} {scope : Scope} {entry : Nat × Scope}

theorem Frame.scopes_attach (after : frame.start ≤ start) (scope : Scope) :
    (frame.attach start scope).scopes = (start, scope) :: frame.scopes := by
  simp [scopes, attach, Nat.add_sub_cancel' after]

theorem Frame.mem_scopes : entry ∈ frame.scopes ↔
    ∃ child ∈ frame.children, (frame.start + child.1, child.2) = entry :=
  List.mem_map

theorem Frame.mem_flatMap_scopes {frames : List Frame} {child : Nat × Scope} (member : frame ∈ frames)
    (complete : child ∈ frame.children) :
    (frame.start + child.1, child.2) ∈ frames.flatMap Frame.scopes :=
  List.mem_flatMap.mpr ⟨frame, member, List.mem_map_of_mem complete⟩

theorem flatMap_scopes_attach (after : around.start ≤ start) (scope : Scope) :
    (around.attach start scope :: outer).flatMap Frame.scopes =
      (start, scope) :: (around :: outer).flatMap Frame.scopes := by
  rw [List.flatMap_cons, Frame.scopes_attach after, List.flatMap_cons, List.cons_append]

theorem start_getLastD_attach (frame around : Frame) (outer : List Frame) (start : Nat)
    (scope : Scope) :
    (outer.getLastD (around.attach start scope)).start =
      ((around :: outer).getLastD frame).start := by
  cases outer <;> simp only [List.getLastD_cons, List.getLastD_nil, Frame.attach]

namespace ScopeBuilder

theorem scopes_read_of_open (stays : token.mark? = some "\x7d" → builder.outer = []) :
    (builder.read token).scopes = builder.scopes := by
  by_cases opening : token.mark? = some "\x7b"
  · have empty : (builder.opened token).scopes = [] := by simp [Frame.scopes, children_opened]
    rw [read_opening opening]
    simp only [scopes, List.flatMap_cons, empty, List.nil_append]
  · by_cases closing : token.mark? = some "\x7d"
    · rw [read_closing closing]
      simp only [scopes, close, stays closing]
    · have quiet := @read_quiet builder token opening closing
      have same : (builder.read token).frame.scopes = builder.frame.scopes := by
        rcases quiet.frame with same | ⟨-, kind, documentation, declared⟩
        · rw [same]
        · rw [declared]
          rfl
      simp only [scopes, List.flatMap_cons, same, quiet.outer]

theorem scopes_read_closing (closing : token.mark? = some "\x7d")
    (open_ : builder.outer = around :: outer) (after : around.start ≤ builder.frame.start) :
    (builder.read token).scopes =
      (builder.frame.start, builder.frame.finish token.span.stop true) ::
        (around :: outer).flatMap Frame.scopes := by
  rw [read_closing closing]
  simp only [scopes, close, open_, flatMap_scopes_attach after]

theorem scopes_adopt (after : builder.frame.start ≤ start) :
    (builder.adopt start scope).scopes = (start, scope) :: builder.scopes := by
  cases declared : scope.head.declared <;>
    simp [scopes, adopt, declared, Frame.introduce, Frame.declare, Frame.attach, Frame.scopes,
      Nat.add_sub_cancel' after]

/-- What holds of all complete scopes holds on, if it holds of those that become complete. -/
theorem forall_scopes_read {holds : Nat × Scope → Prop} (inside : ∀ entry ∈ builder.scopes, holds entry)
    (after : ∀ around ∈ builder.outer.head?, around.start ≤ builder.frame.start)
    (closed : token.mark? = some "\x7d" → builder.outer ≠ [] →
      holds (builder.frame.start, builder.frame.finish token.span.stop true)) :
    ∀ entry ∈ (builder.read token).scopes, holds entry := by
  by_cases closing : token.mark? = some "\x7d"
  · cases open_ : builder.outer with
    | nil =>
        rw [scopes_read_of_open fun _ => open_]
        exact inside
    | cons around outer =>
        rw [scopes_read_closing closing open_ (after around (by simp [open_]))]
        intro entry member
        rcases List.mem_cons.mp member with rfl | member
        · exact closed closing (by simp [open_])
        · apply inside entry
          rw [scopes, open_]
          exact List.mem_append_right _ member
  · rw [scopes_read_of_open fun is => absurd is closing]
    exact inside

theorem forall_scopes_finish {holds : Nat × Scope → Prop}
    (ordered : ((frame :: outer).map (·.start)).Pairwise (· ≥ ·))
    (inside : ∀ entry ∈ (frame :: outer).flatMap Frame.scopes, holds entry)
    (unclosed : ∀ last : Frame, last.start ∈ (frame :: outer).map (·.start) →
      (∀ entry ∈ last.scopes, holds entry) → holds (last.start, last.finish stop false)) :
    ∀ child ∈ (finish stop frame outer).children,
      holds ((outer.getLastD frame).start + child.1, child.2) := by
  induction outer generalizing frame with
  | nil =>
      intro child complete
      exact inside _ (Frame.mem_flatMap_scopes List.mem_cons_self (List.mem_reverse.mp complete))
  | cons around outer ih =>
      obtain ⟨later, ordered⟩ := List.pairwise_cons.mp ordered
      have last : holds (frame.start, frame.finish stop false) := by
        apply unclosed frame List.mem_cons_self
        intro entry member
        exact inside entry (List.mem_append_left _ member)
      rw [finish, ← start_getLastD_attach frame around outer frame.start (frame.finish stop false)]
      apply ih
      · exact ordered
      · rw [flatMap_scopes_attach (later _ List.mem_cons_self)]
        intro entry member
        rcases List.mem_cons.mp member with rfl | member
        · exact last
        · exact inside entry (List.mem_append_right _ member)
      · intro open_ member
        exact unclosed open_ (List.mem_cons_of_mem _ member)

end ScopeBuilder

/-! ## Scopes inside complete scopes -/

/-- Wherever the scope stands at `start`, the entry stands in it, at its own start. -/
def Hosts (start : Nat) (scope : Scope) (entry : Nat × Scope) : Prop :=
  ∀ tree, Placed start scope tree → ∃ node, Within tree node ∧ Placed entry.1 entry.2 node

theorem Placed.within {tree node : ScopeTree} (placed : Placed start scope tree)
    (within : Within tree node) : ∃ start scope, Placed start scope node := by
  induction within with
  | refl => exact ⟨start, scope, placed⟩
  | tail _ member ih =>
      obtain ⟨start, scope, placed⟩ := ih
      obtain ⟨child, -, placed'⟩ := Placed.of_mem placed.branches member
      exact ⟨_, _, placed'⟩

namespace Hosts

theorem itself (start : Nat) (scope : Scope) : Hosts start scope (start, scope) := by
  intro tree placed
  exact ⟨tree, .refl, placed⟩

theorem child {child : Nat × Scope} (complete : child ∈ scope.children)
    (hosts : Hosts (start + child.1) child.2 entry) : Hosts start scope entry := by
  intro tree placed
  obtain ⟨branch, member, placed'⟩ := placed.branch_of_mem complete
  obtain ⟨node, within, here⟩ := hosts branch placed'
  exact ⟨node, .head member within, here⟩

theorem finish {last : Nat × Scope} {closed : Bool} (member : last ∈ frame.scopes)
    (hosts : Hosts last.1 last.2 entry) : Hosts frame.start (frame.finish stop closed) entry := by
  obtain ⟨child, complete, rfl⟩ := List.mem_map.mp member
  exact hosts.child (List.mem_reverse.mpr complete)

end Hosts

theorem ScopeBuilder.hosts_finish {complete : Nat × Scope}
    (ordered : ((frame :: outer).map (·.start)).Pairwise (· ≥ ·))
    (member : complete ∈ (frame :: outer).flatMap Frame.scopes)
    (hosts : Hosts complete.1 complete.2 entry) :
    ∃ child ∈ (finish stop frame outer).children,
      Hosts ((outer.getLastD frame).start + child.1) child.2 entry := by
  induction outer generalizing frame complete with
  | nil =>
      rw [List.flatMap_singleton] at member
      obtain ⟨child, inside, rfl⟩ := Frame.mem_scopes.mp member
      exact ⟨child, List.mem_reverse.mpr inside, hosts⟩
  | cons around outer ih =>
      obtain ⟨later, ordered⟩ := List.pairwise_cons.mp ordered
      have after : around.start ≤ frame.start := later _ List.mem_cons_self
      have attached := @flatMap_scopes_attach around outer frame.start after (frame.finish stop false)
      rw [finish, ← start_getLastD_attach frame around outer frame.start (frame.finish stop false)]
      rcases List.mem_append.mp member with inside | outside
      · apply @ih _ (frame.start, frame.finish stop false)
        · exact ordered
        · rw [attached]
          exact List.mem_cons_self
        · exact hosts.finish inside
      · apply @ih _ complete
        · exact ordered
        · rw [attached]
          exact List.mem_cons_of_mem _ outside
        · exact hosts

end

end MuCompletion
