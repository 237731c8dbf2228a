import MuCompletion.Proofs.Scope.Nesting
import MuCompletion.Scope.Reuse

/-! # Scopes in pairs

Two trees that place one scope have the same scopes inside, each as far from the start in the one as in
the other. A new tree shares with an old one the pairs found in this way, below the scopes of the new
tree whose starts are looked up.
-/

namespace MuCompletion

open ScopeTree

/-- Equal ways into two trees lead to `node` and `node'`. -/
inductive Paired : ScopeTree → ScopeTree → ScopeTree → ScopeTree → Prop where
  | here (tree tree' : ScopeTree) : Paired tree tree' tree tree'
  | inside {tree tree' branch branch' node node' : ScopeTree}
      (beside : (branch, branch') ∈ tree.branches.zip tree'.branches)
      (deeper : Paired branch branch' node node') : Paired tree tree' node node'

theorem paired_iff {tree tree' node node' : ScopeTree} :
    Paired tree tree' node node' ↔ node = tree ∧ node' = tree' ∨
      ∃ branch branch', (branch, branch') ∈ tree.branches.zip tree'.branches ∧
        Paired branch branch' node node' := by
  constructor
  · intro paired
    cases paired with
    | here => exact .inl ⟨rfl, rfl⟩
    | inside beside deeper => exact .inr ⟨_, _, beside, deeper⟩
  · rintro (⟨rfl, rfl⟩ | ⟨branch, branch', beside, deeper⟩)
    · exact .here node node'
    · exact .inside beside deeper

mutual

theorem mem_pairIds : ∀ (tree tree' : ScopeTree) (pair : Nat × Nat), pair ∈ pairIds tree tree' ↔
    ∃ node node', Paired tree tree' node node' ∧ pair = (node.entry.id, node'.entry.id)
  | .node new branches, .node old branches', pair => by
    simp only [pairIds, List.mem_cons, mem_pairIdsAll branches branches' pair]
    constructor
    · rintro (rfl | ⟨branch, branch', beside, node, node', paired, rfl⟩)
      · exact ⟨_, _, .here _ _, rfl⟩
      · exact ⟨node, node', .inside beside paired, rfl⟩
    · rintro ⟨node, node', paired, rfl⟩
      rcases paired_iff.mp paired with ⟨rfl, rfl⟩ | ⟨branch, branch', beside, deeper⟩
      · exact .inl rfl
      · exact .inr ⟨branch, branch', beside, node, node', deeper, rfl⟩

theorem mem_pairIdsAll : ∀ (branches branches' : List ScopeTree) (pair : Nat × Nat),
    pair ∈ pairIdsAll branches branches' ↔
      ∃ branch branch', (branch, branch') ∈ branches.zip branches' ∧
        ∃ node node', Paired branch branch' node node' ∧ pair = (node.entry.id, node'.entry.id)
  | [], branches', pair => by simp [pairIdsAll]
  | branch :: rest, [], pair => by simp [pairIdsAll]
  | branch :: rest, branch' :: rest', pair => by
    simp only [pairIdsAll, List.mem_append, mem_pairIds branch branch' pair,
      mem_pairIdsAll rest rest' pair, List.zip_cons_cons, List.mem_cons, Prod.mk.injEq]
    constructor
    · rintro (here | ⟨first, second, beside, later⟩)
      · exact ⟨branch, branch', .inl ⟨rfl, rfl⟩, here⟩
      · exact ⟨first, second, .inr beside, later⟩
    · rintro ⟨first, second, ⟨rfl, rfl⟩ | beside, found⟩
      · exact .inl found
      · exact .inr ⟨first, second, beside, found⟩

end

section

variable {start start' : Nat} {scope : Scope} {tree tree' node node' : ScopeTree}

theorem Placed.beside {branch branch' : ScopeTree} (placed : Placed start scope tree)
    (placed' : Placed start' scope tree')
    (beside : (branch, branch') ∈ tree.branches.zip tree'.branches) :
    ∃ child ∈ scope.children,
      Placed (start + child.1) child.2 branch ∧ Placed (start' + child.1) child.2 branch' := by
  obtain ⟨length, each⟩ := List.forall₂_iff_get.mp placed.branches
  obtain ⟨length', each'⟩ := List.forall₂_iff_get.mp placed'.branches
  obtain ⟨index, within, here⟩ := List.mem_iff_getElem.mp beside
  rw [List.length_zip] at within
  rw [List.getElem_zip, Prod.mk.injEq] at here
  obtain ⟨rfl, rfl⟩ := here
  have bound : index < scope.children.length := by omega
  exact ⟨scope.children.get ⟨index, bound⟩, List.get_mem _ _, each index bound (by omega),
    each' index bound (by omega)⟩

theorem Placed.exists_beside {branch : ScopeTree} (placed : Placed start scope tree)
    (placed' : Placed start' scope tree') (member : branch ∈ tree.branches) :
    ∃ branch', (branch, branch') ∈ tree.branches.zip tree'.branches := by
  have length := placed.branches.length_eq.symm.trans placed'.branches.length_eq
  rw [← List.map_fst_zip (Nat.le_of_eq length)] at member
  obtain ⟨⟨first, second⟩, beside, rfl⟩ := List.mem_map.mp member
  exact ⟨second, beside⟩

theorem Paired.within (paired : Paired tree tree' node node') :
    Within tree node ∧ Within tree' node' := by
  induction paired with
  | here => exact ⟨.refl, .refl⟩
  | inside beside _ ih =>
      have members := List.of_mem_zip beside
      exact ⟨.head members.1 ih.1, .head members.2 ih.2⟩

theorem Paired.placed (paired : Paired tree tree' node node') (placed : Placed start scope tree)
    (placed' : Placed start' scope tree') :
    ∃ offset inner, Placed (start + offset) inner node ∧ Placed (start' + offset) inner node' := by
  induction paired generalizing start start' scope with
  | here => exact ⟨0, scope, placed, placed'⟩
  | inside beside _ ih =>
      obtain ⟨child, -, here, here'⟩ := placed.beside placed' beside
      obtain ⟨offset, inner, deeper, deeper'⟩ := ih here here'
      rw [Nat.add_assoc] at deeper deeper'
      exact ⟨child.1 + offset, inner, deeper, deeper'⟩

/-- All of one tree is paired with something in the other. -/
theorem exists_paired (placed : Placed start scope tree) (placed' : Placed start' scope tree')
    (within : Within tree node) : ∃ node', Paired tree tree' node node' := by
  induction within using Relation.ReflTransGen.head_induction_on generalizing start start' scope tree' with
  | refl => exact ⟨tree', .here _ _⟩
  | head member _ ih =>
      obtain ⟨branch', beside⟩ := placed.exists_beside placed' member
      obtain ⟨child, -, here, here'⟩ := placed.beside placed' beside
      obtain ⟨node', deeper⟩ := ih here here'
      exact ⟨node', .inside beside deeper⟩

end

/-! ## Looked up scopes -/

/-- Of the scopes on the way from `tree` to `image`, which is inside it, only `image` is looked up. -/
inductive Met (reattached : List (Nat × ScopeTree)) : ScopeTree → ScopeTree → ScopeTree → Prop where
  | here {tree image old : ScopeTree} (member : image ∈ tree.branches)
      (found : reattached.lookup image.entry.span.start = some old) : Met reattached tree image old
  | inside {tree branch image old : ScopeTree} (member : branch ∈ tree.branches)
      (passed : reattached.lookup branch.entry.span.start = none)
      (deeper : Met reattached branch image old) : Met reattached tree image old

section

variable {reattached : List (Nat × ScopeTree)} {tree image old : ScopeTree} {pair : Nat × Nat}

mutual

theorem exists_met_of_mem : ∀ tree : ScopeTree, pair ∈ sharedWith reattached tree →
    ∃ image old, Met reattached tree image old ∧ pair ∈ pairIds image old
  | .node place trees, shared => by
    obtain ⟨branch, member, image, old, found, paired⟩ := exists_met_of_mem_branches trees shared
    rcases found with ⟨found, rfl⟩ | ⟨passed, deeper⟩
    · exact ⟨image, old, .here member found, paired⟩
    · exact ⟨image, old, .inside member passed deeper, paired⟩

theorem exists_met_of_mem_branches : ∀ trees : List ScopeTree, pair ∈ sharedWithAll reattached trees →
    ∃ branch ∈ trees, ∃ image old,
      (reattached.lookup branch.entry.span.start = some old ∧ image = branch ∨
        reattached.lookup branch.entry.span.start = none ∧ Met reattached branch image old) ∧
      pair ∈ pairIds image old
  | [], shared => by simp [sharedWithAll] at shared
  | branch :: rest, shared => by
    rw [sharedWithAll, List.mem_append] at shared
    rcases shared with here | later
    · cases looked : reattached.lookup branch.entry.span.start with
      | some old =>
          rw [looked] at here
          exact ⟨branch, List.mem_cons_self, branch, old, .inl ⟨looked, rfl⟩, here⟩
      | none =>
          rw [looked] at here
          obtain ⟨image, old, met, paired⟩ := exists_met_of_mem branch here
          exact ⟨branch, List.mem_cons_self, image, old, .inr ⟨looked, met⟩, paired⟩
    · obtain ⟨other, member, found⟩ := exists_met_of_mem_branches rest later
      exact ⟨other, List.mem_cons_of_mem _ member, found⟩

end

theorem mem_sharedWith_of_mem {branch : ScopeTree} (member : branch ∈ tree.branches)
    (shared : pair ∈ sharedWithAll reattached [branch]) : pair ∈ sharedWith reattached tree := by
  have found : ∀ {trees : List ScopeTree}, branch ∈ trees → pair ∈ sharedWithAll reattached trees := by
    intro trees member
    induction trees with
    | nil => cases member
    | cons other rest ih =>
        rw [sharedWithAll, List.mem_append]
        rcases List.mem_cons.mp member with rfl | later
        · rw [sharedWithAll, sharedWithAll, List.append_nil] at shared
          exact .inl shared
        · exact .inr (ih later)
  cases tree
  exact found member

theorem Met.mem_sharedWith (met : Met reattached tree image old) (paired : pair ∈ pairIds image old) :
    pair ∈ sharedWith reattached tree := by
  induction met with
  | here member found =>
      apply mem_sharedWith_of_mem member
      rw [sharedWithAll, found, sharedWithAll, List.append_nil]
      exact paired
  | inside member passed _ ih =>
      apply mem_sharedWith_of_mem member
      rw [sharedWithAll, passed, sharedWithAll, List.append_nil]
      exact ih paired

theorem Met.inside_found (met : Met reattached tree image old) :
    Inside tree image ∧ reattached.lookup image.entry.span.start = some old := by
  induction met with
  | here member found => exact ⟨.single member, found⟩
  | inside member _ _ ih => exact ⟨.head member ih.1, ih.2⟩

/-- A looked up scope is met if none of those around it is looked up. -/
theorem met_of_inside (inside : Inside tree image)
    (found : reattached.lookup image.entry.span.start = some old)
    (alone : ∀ around, Inside tree around → Inside around image →
      reattached.lookup around.entry.span.start = none) : Met reattached tree image old := by
  induction inside using Relation.TransGen.head_induction_on with
  | single member => exact .here member found
  | head member deeper ih =>
      apply Met.inside member (alone _ (.single member) deeper)
      apply ih
      intro around inside
      exact alone around (.head member inside)

/-- If no looked up scope stands in another one, a tree shares what is paired below each of them. -/
theorem mem_sharedWith_iff (alone : ∀ around image, Inside tree around → Inside around image →
      reattached.lookup image.entry.span.start ≠ none →
        reattached.lookup around.entry.span.start = none) :
    pair ∈ sharedWith reattached tree ↔ ∃ image old, Inside tree image ∧
      reattached.lookup image.entry.span.start = some old ∧ pair ∈ pairIds image old := by
  constructor
  · intro shared
    obtain ⟨image, old, met, paired⟩ := exists_met_of_mem tree shared
    obtain ⟨inside, found⟩ := met.inside_found
    exact ⟨image, old, inside, found, paired⟩
  · rintro ⟨image, old, inside, found, paired⟩
    have met : Met reattached tree image old := by
      apply met_of_inside inside found
      intro around outside deeper
      exact alone around image outside deeper (by simp [found])
    exact met.mem_sharedWith paired

end

end MuCompletion
