import Mathlib.Data.List.Forall2
import Mathlib.Logic.Relation
import MuCompletion.Proofs.Scope.Builder

/-! # Scopes at their places

A tree places a scope at an offset and the scopes inside it at theirs; the numbers that it gives them
say nothing about the text. The tree of a text places the scope that the builder finishes at the start
of the text.
-/

namespace MuCompletion

open ScopeTree

/-- The tree has the scope at `start`, under whatever numbers. -/
def Placed (start : Nat) (scope : Scope) (tree : ScopeTree) : Prop :=
  ∃ id parent depth next, tree = (place id parent depth start next scope).1

/-- The tree `inner` is `outer` or stands inside it at some depth. -/
def Within : ScopeTree → ScopeTree → Prop :=
  Relation.ReflTransGen fun outer inner => inner ∈ outer.branches

namespace Placed

variable {start : Nat} {scope : Scope} {tree : ScopeTree}

theorem head (placed : Placed start scope tree) : tree.entry.head = scope.head := by
  obtain ⟨id, parent, depth, next, rfl⟩ := placed
  cases scope
  rfl

theorem span (placed : Placed start scope tree) :
    tree.entry.span = ⟨start, start + scope.head.length⟩ := by
  obtain ⟨id, parent, depth, next, rfl⟩ := placed
  cases scope
  rfl

theorem scope_eq (placed : Placed start scope tree) : tree.scope = scope := by
  obtain ⟨id, parent, depth, next, rfl⟩ := placed
  cases scope
  rfl

theorem all (parent depth first next : Nat) (children : List (Nat × Scope)) :
    List.Forall₂ (fun child branch => Placed (start + child.1) child.2 branch) children
      (placeAll parent depth start first next children).1 := by
  induction children generalizing first with
  | nil => exact .nil
  | cons child rest ih => exact .cons ⟨first, some parent, depth, _, rfl⟩ (ih (first + 1))

theorem branches (placed : Placed start scope tree) :
    List.Forall₂ (fun child branch => Placed (start + child.1) child.2 branch) scope.children
      tree.branches := by
  obtain ⟨id, parent, depth, next, rfl⟩ := placed
  cases scope
  exact all _ _ _ _ _

theorem branch_of_mem (placed : Placed start scope tree) {child : Nat × Scope}
    (member : child ∈ scope.children) :
    ∃ branch ∈ tree.branches, Placed (start + child.1) child.2 branch := by
  have found : ∀ {children : List (Nat × Scope)} {branches : List ScopeTree},
      List.Forall₂ (fun child branch => Placed (start + child.1) child.2 branch) children branches →
        child ∈ children → ∃ branch ∈ branches, Placed (start + child.1) child.2 branch := by
    intro children branches placed member
    induction placed with
    | nil => cases member
    | cons here _ ih =>
        rcases List.mem_cons.mp member with rfl | later
        · exact ⟨_, List.mem_cons_self, here⟩
        · obtain ⟨branch, member, placed⟩ := ih later
          exact ⟨branch, List.mem_cons_of_mem _ member, placed⟩
  exact found placed.branches member

theorem ofScope (scope : Scope) : Placed 0 scope (ScopeTree.ofScope scope) :=
  ⟨0, none, 0, 1, rfl⟩

theorem ofTokens (tokens : List Token) :
    Placed 0 (.ofTokens tokens) (ScopeTree.ofTokens tokens) :=
  ofScope _

end Placed

theorem Scope.ofTokens_lex (text : String) :
    Scope.ofTokens (lex text) = ScopeBuilder.finish (Text.byteLength text.toList)
      ((lex text).foldl ScopeBuilder.read .initial).frame
      ((lex text).foldl ScopeBuilder.read .initial).outer := by
  simp only [Scope.ofTokens, ScopeBuilder.run_nil_eq_foldl, lastStop_lex]

end MuCompletion
