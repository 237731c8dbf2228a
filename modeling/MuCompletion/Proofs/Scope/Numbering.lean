import Mathlib.Data.List.Nodup
import Mathlib.Data.Set.Function
import MuCompletion.Proofs.Scope.Chain

/-! # Numbered scopes

A path of positions leads from a scope to each scope inside it. The entries of a tree list the scopes of
all paths, each once, under numbers without gaps: the scope itself under zero, and the scopes inside one
scope under consecutive numbers behind it. From its number one comes to a scope, and from there, by the
numbers of the scopes inside and around it, to all others.
-/

namespace MuCompletion

open ScopeTree

/-! ## Paths -/

/-- The scope that a path of positions leads to, and the sum of the offsets on the way. -/
def Scope.follow (scope : Scope) : List Nat → Option (Nat × Scope)
  | [] => some (0, scope)
  | position :: path =>
    match scope.children[position]? with
    | none => none
    | some (offset, child) =>
      (child.follow path).map fun (further, target) => (offset + further, target)

theorem Scope.follow_snoc (scope : Scope) (path : List Nat) (position : Nat) :
    scope.follow (path ++ [position]) = (scope.follow path).bind fun (offset, outer) =>
      outer.children[position]?.map fun (further, child) => (offset + further, child) := by
  induction path generalizing scope with
  | nil =>
      cases here : scope.children[position]? <;> simp [Scope.follow, here]
  | cons first path ih =>
      rw [List.cons_append, Scope.follow, Scope.follow]
      cases scope.children[first]? with
      | none => rfl
      | some child =>
          simp only [ih, Option.map_bind, Option.bind_map]
          congr 1
          funext ⟨offset, outer⟩
          simp [Function.comp_def, Nat.add_assoc]

theorem Scope.isSome_follow_snoc {scope : Scope} {path : List Nat} {position : Nat} :
    (scope.follow (path ++ [position])).isSome = true ↔
      ∃ offset inner, scope.follow path = some (offset, inner) ∧
        position < inner.children.length := by
  rw [Scope.follow_snoc]
  cases scope.follow path with
  | none => simp
  | some found =>
      obtain ⟨offset, inner⟩ := found
      simp

/-- The tree that a path of positions leads to. -/
def ScopeTree.follow (tree : ScopeTree) : List Nat → Option ScopeTree
  | [] => some tree
  | position :: path => tree.branches[position]?.bind fun branch => branch.follow path

theorem ScopeTree.follow_append (tree : ScopeTree) (path further : List Nat) :
    tree.follow (path ++ further) = (tree.follow path).bind fun node => node.follow further := by
  induction path generalizing tree with
  | nil => rfl
  | cons position path ih =>
      rw [List.cons_append, ScopeTree.follow, ScopeTree.follow, Option.bind_assoc]
      exact congrArg _ (funext fun branch => ih branch)

theorem within_iff_follow {tree node : ScopeTree} :
    Within tree node ↔ ∃ path, tree.follow path = some node := by
  constructor
  · intro within
    induction within with
    | refl => exact ⟨[], rfl⟩
    | tail _ member ih =>
        obtain ⟨path, leads⟩ := ih
        obtain ⟨position, here⟩ := List.mem_iff_getElem?.mp member
        refine ⟨path ++ [position], ?_⟩
        simp [ScopeTree.follow_append, leads, ScopeTree.follow, here]
  · rintro ⟨path, leads⟩
    induction path generalizing tree with
    | nil =>
        obtain rfl := Option.some.inj leads
        exact .refl
    | cons position path ih =>
        obtain ⟨branch, here, leads⟩ := Option.bind_eq_some_iff.mp leads
        exact .head (List.mem_of_getElem? here) (ih leads)

theorem Placed.getElem? {start : Nat} {children : List (Nat × Scope)} {branches : List ScopeTree}
    (placed : List.Forall₂ (fun child branch => Placed (start + child.1) child.2 branch) children
      branches) (position : Nat) :
    children[position]? = none ∧ branches[position]? = none ∨
      ∃ child branch, children[position]? = some child ∧ branches[position]? = some branch ∧
        Placed (start + child.1) child.2 branch := by
  induction placed generalizing position with
  | nil => exact .inl ⟨rfl, rfl⟩
  | cons here _ ih =>
      cases position with
      | zero => exact .inr ⟨_, _, rfl, rfl, here⟩
      | succ position => exact ih position

/-- A path leads to the same scope in a tree as in the scope that the tree places, at the sum of the
offsets on the way. -/
theorem Placed.follow {start : Nat} {scope : Scope} {tree : ScopeTree}
    (placed : Placed start scope tree) (path : List Nat) :
    scope.follow path = none ∧ tree.follow path = none ∨
      ∃ offset inner node, scope.follow path = some (offset, inner) ∧ tree.follow path = some node ∧
        Placed (start + offset) inner node := by
  induction path generalizing start scope tree with
  | nil => exact .inr ⟨0, scope, tree, rfl, rfl, placed⟩
  | cons position path ih =>
      rcases Placed.getElem? placed.branches position with
        ⟨noChild, noBranch⟩ | ⟨⟨offset, child⟩, branch, here, here', placed⟩
      · left
        simp [Scope.follow, ScopeTree.follow, noChild, noBranch]
      · rcases ih placed with ⟨ends, ends'⟩ | ⟨further, inner, node, leads, leads', placed⟩
        · left
          simp [Scope.follow, ScopeTree.follow, here, here', ends, ends']
        · rw [Nat.add_assoc] at placed
          refine .inr ⟨offset + further, inner, node, ?_, ?_, placed⟩
          · simp [Scope.follow, here, leads]
          · simp [ScopeTree.follow, here', leads']

/-! ## Numbers without gaps -/

mutual

/-- The number of scopes inside a scope, at whatever depth. -/
def Scope.descendants : Scope → Nat
  | .node _ children => children.length + descendantsAll children

/-- The number of scopes inside some scopes, without these themselves. -/
def Scope.descendantsAll : List (Nat × Scope) → Nat
  | [] => 0
  | (_, scope) :: rest => descendantsAll rest + scope.descendants

end

theorem ids_branches (parent depth start first next : Nat) (children : List (Nat × Scope)) :
    (placeAll parent depth start first next children).1.map (·.entry.id) =
      List.range' first children.length := by
  induction children generalizing first with
  | nil => rfl
  | cons child rest ih =>
      obtain ⟨offset, scope⟩ := child
      cases scope
      simp only [placeAll, List.map_cons, ih, List.length_cons, List.range'_succ]
      rfl

mutual

theorem ids_inner (id : Nat) (parent : Option Nat) (depth start next : Nat) :
    ∀ scope : Scope, (place id parent depth start next scope).2 = next + scope.descendants ∧
      (place id parent depth start next scope).1.inner.map (·.id) =
        List.range' next scope.descendants
  | .node head children => by
    obtain ⟨free, ids⟩ :=
      ids_innerAll id (depth + 1) start next (next + children.length) children
    have own := ids_branches id (depth + 1) start next (next + children.length) children
    refine ⟨?_, ?_⟩
    · simp only [place, free, Scope.descendants, Nat.add_assoc]
    · simp only [place, ScopeTree.inner, List.map_append, List.map_map, ids, Scope.descendants]
      rw [← List.range'_append_1, ← own]
      rfl

theorem ids_innerAll (parent depth start first next : Nat) :
    ∀ children : List (Nat × Scope),
      (placeAll parent depth start first next children).2 = next + Scope.descendantsAll children ∧
      (innerAll (placeAll parent depth start first next children).1).map (·.id) =
        List.range' next (Scope.descendantsAll children)
  | [] => by simp [placeAll, innerAll, Scope.descendantsAll]
  | (offset, scope) :: rest => by
    obtain ⟨free, ids⟩ := ids_innerAll parent depth start (first + 1) next rest
    obtain ⟨free', ids'⟩ := ids_inner first (some parent) depth (start + offset)
      (placeAll parent depth start (first + 1) next rest).2 scope
    refine ⟨?_, ?_⟩
    · simp only [placeAll, Scope.descendantsAll]
      rw [free', free, Nat.add_assoc]
    · simp only [placeAll, innerAll, List.map_append, ids, ids', Scope.descendantsAll]
      rw [free, List.range'_append_1]

end

theorem ids_entries (scope : Scope) :
    (ofScope scope).entries.map (·.id) = List.range (scope.descendants + 1) := by
  have ids := (ids_inner 0 none 0 0 1 scope).2
  have root : (ofScope scope).entry.id = 0 := by
    cases scope
    rfl
  rw [entries, List.map_cons, root, ofScope, ids, List.range_eq_range', List.range'_succ]

/-- The scopes directly inside each scope have consecutive numbers, which its entry lists in order. -/
def Consecutive (tree : ScopeTree) : Prop :=
  ∀ node, Within tree node → node.entry.children = node.branches.map (·.entry.id) ∧
    ∃ first, node.entry.children = List.range' first node.branches.length

theorem Consecutive.of_branches {tree : ScopeTree}
    (here : tree.entry.children = tree.branches.map (·.entry.id) ∧
      ∃ first, tree.entry.children = List.range' first tree.branches.length)
    (inside : ∀ branch ∈ tree.branches, Consecutive branch) : Consecutive tree := by
  intro node within
  rcases within_iff.mp within with rfl | deeper
  · exact here
  · obtain ⟨branch, member, within⟩ := inside_iff.mp deeper
    exact inside branch member node within

mutual

theorem consecutive_place (id : Nat) (parent : Option Nat) (depth start next : Nat) :
    ∀ scope : Scope, Consecutive (place id parent depth start next scope).1
  | .node head children => by
    have own := ids_branches id (depth + 1) start next (next + children.length) children
    have length : (placeAll id (depth + 1) start next (next + children.length) children).1.length =
        children.length := by simpa using congrArg List.length own
    refine Consecutive.of_branches ⟨own.symm, next, ?_⟩
      (consecutive_placeAll id (depth + 1) start next (next + children.length) children)
    exact congrArg (List.range' next) length.symm

theorem consecutive_placeAll (parent depth start first next : Nat) :
    ∀ children : List (Nat × Scope),
      ∀ branch ∈ (placeAll parent depth start first next children).1, Consecutive branch
  | [] => by simp [placeAll]
  | (offset, scope) :: rest => by
    intro branch member
    simp only [placeAll, List.mem_cons] at member
    rcases member with rfl | later
    · exact consecutive_place first (some parent) depth (start + offset) _ scope
    · exact consecutive_placeAll parent depth start (first + 1) next rest branch later

end

/-! ## Entries by number -/

/-- The entry of the scope `inner`, to which a path leads, when paths have numbers. -/
structure ScopeEntry.Lists (number : List Nat → Nat) (path : List Nat) (offset : Nat) (inner : Scope)
    (entry : ScopeEntry) : Prop where
  id : entry.id = number path
  scope : entry.scope = inner
  span : entry.span = ⟨offset, offset + inner.head.length⟩
  depth : entry.depth = path.length
  parent : entry.parent = if path = [] then none else some (number path.dropLast)
  children : entry.children =
    (List.range inner.children.length).map fun position => number (path ++ [position])
  consecutive : ∃ first, entry.children = List.range' first inner.children.length

/-- The entries list a scope and those inside it, each at the number of the path to it. -/
structure Flattens (scope : Scope) (number : List Nat → Nat) (entries : List ScopeEntry) : Prop where
  root : number [] = 0
  once : Set.BijOn number {path | (scope.follow path).isSome} {id | id < entries.length}
  later : ∀ path position, (scope.follow (path ++ [position])).isSome →
    number path < number (path ++ [position])
  lists : ∀ path offset inner, scope.follow path = some (offset, inner) →
    ∃ entry, entries[number path]? = some entry ∧ entry.Lists number path offset inner

/-- The number of the scope to which a path leads. -/
def ScopeTree.number (tree : ScopeTree) (path : List Nat) : Nat :=
  (tree.follow path).elim 0 (·.entry.id)

theorem ScopeTree.number_of_follow {tree node : ScopeTree} {path : List Nat}
    (leads : tree.follow path = some node) : tree.number path = node.entry.id := by
  rw [number, leads]
  rfl

theorem Linked.depth_follow {tree node : ScopeTree} (linked : Linked tree) {path : List Nat}
    (leads : tree.follow path = some node) : node.entry.depth = tree.entry.depth + path.length := by
  induction path generalizing tree with
  | nil =>
      obtain rfl := Option.some.inj leads
      rfl
  | cons position path ih =>
      obtain ⟨branch, here, leads⟩ := Option.bind_eq_some_iff.mp leads
      have member := List.mem_of_getElem? here
      have below := (linked tree .refl branch member).depth
      rw [ih (linked.of_branch member) leads, below, List.length_cons, Nat.add_assoc,
        Nat.add_comm 1]

theorem ScopeTree.number_branches {tree node : ScopeTree} {path : List Nat}
    (leads : tree.follow path = some node) :
    node.branches.map (·.entry.id) =
      (List.range node.branches.length).map fun position => tree.number (path ++ [position]) := by
  apply List.ext_getElem (by simp)
  intro position fits _
  rw [List.length_map] at fits
  have goesOn : tree.follow (path ++ [position]) = some node.branches[position] := by
    simp [ScopeTree.follow_append, leads, ScopeTree.follow, fits]
  simp [ScopeTree.number_of_follow goesOn]

theorem Linked.under_follow {tree node : ScopeTree} (linked : Linked tree) {path : List Nat}
    {position : Nat} (leads : tree.follow (path ++ [position]) = some node) :
    ∃ outer, tree.follow path = some outer ∧ outer.branches[position]? = some node ∧
      node.entry.Under outer.entry := by
  rw [ScopeTree.follow_append] at leads
  obtain ⟨outer, above, inside⟩ := Option.bind_eq_some_iff.mp leads
  obtain ⟨branch, here, same⟩ := Option.bind_eq_some_iff.mp inside
  obtain rfl := Option.some.inj same
  exact ⟨outer, above, here, linked outer (within_iff_follow.mpr ⟨path, above⟩) branch
    (List.mem_of_getElem? here)⟩

section

variable (scope : Scope)

theorem consecutive_ofScope : Consecutive (ofScope scope) :=
  consecutive_place 0 none 0 0 1 scope

theorem entry_ofScope : (ofScope scope).entry.id = 0 ∧ (ofScope scope).entry.depth = 0 ∧
    (ofScope scope).entry.parent = none := by
  cases scope
  exact ⟨rfl, rfl, rfl⟩

theorem getElem?_entries {node : ScopeTree} (within : Within (ofScope scope) node) :
    (ofScope scope).entries[node.entry.id]? = some node.entry := by
  have member : node.entry ∈ (ofScope scope).entries := mem_entries.mpr ⟨node, within, rfl⟩
  obtain ⟨place, here⟩ := List.mem_iff_getElem?.mp member
  have number : ((ofScope scope).entries.map (·.id))[place]? = some node.entry.id := by
    rw [List.getElem?_map, here]
    rfl
  rw [ids_entries, List.getElem?_eq_some_iff] at number
  obtain ⟨bound, number⟩ := number
  rw [List.getElem_range] at number
  rw [← number, here]

theorem lists_entries {path : List Nat} {offset : Nat} {inner : Scope}
    (leads : scope.follow path = some (offset, inner)) :
    ∃ entry, (ofScope scope).entries[(ofScope scope).number path]? = some entry ∧
      entry.Lists (ofScope scope).number path offset inner := by
  rcases (Placed.ofScope scope).follow path with
    ⟨ends, -⟩ | ⟨offset', inner', node, leads', leads'', here⟩
  · simp [ends] at leads
  · obtain ⟨rfl, rfl⟩ : offset' = offset ∧ inner' = inner := by simpa [leads'] using leads
    have within := within_iff_follow.mpr ⟨path, leads''⟩
    have number := ScopeTree.number_of_follow leads''
    obtain ⟨-, depth, parent⟩ := entry_ofScope scope
    have length : node.branches.length = inner'.children.length := here.branches.length_eq.symm
    obtain ⟨children, first, consecutive⟩ := consecutive_ofScope scope node within
    refine ⟨node.entry, number ▸ getElem?_entries scope within, number.symm, here.scope_eq, ?_, ?_, ?_,
      ?_, first, length ▸ consecutive⟩
    · rw [here.span, Nat.zero_add]
    · rw [(linked_ofScope scope).depth_follow leads'', depth, Nat.zero_add]
    · cases path using List.reverseRecOn with
      | nil =>
          obtain rfl := Option.some.inj leads''
          simpa using parent
      | append_singleton before position =>
          obtain ⟨outer, above, -, under⟩ := (linked_ofScope scope).under_follow leads''
          simp [under.parent, ScopeTree.number_of_follow above]
    · rw [children, ← length, ScopeTree.number_branches leads'']

theorem number_lt_snoc {path : List Nat} {position : Nat}
    (leads : (scope.follow (path ++ [position])).isSome) :
    (ofScope scope).number path < (ofScope scope).number (path ++ [position]) := by
  rcases (Placed.ofScope scope).follow (path ++ [position]) with
    ⟨ends, -⟩ | ⟨-, -, node, -, leads', -⟩
  · simp [ends] at leads
  · obtain ⟨outer, above, -, under⟩ := (linked_ofScope scope).under_follow leads'
    rw [ScopeTree.number_of_follow above, ScopeTree.number_of_follow leads']
    exact under.later

theorem number_snoc_ne_root {path : List Nat} {position : Nat}
    (leads : (scope.follow (path ++ [position])).isSome) :
    (ofScope scope).number (path ++ [position]) ≠ (ofScope scope).number [] := by
  have root : (ofScope scope).number [] = 0 := (entry_ofScope scope).1
  have later := number_lt_snoc scope leads
  omega

theorem ScopeEntry.Lists.exists_first {number : List Nat → Nat} {path : List Nat} {offset : Nat}
    {inner : Scope} {entry : ScopeEntry} (lists : entry.Lists number path offset inner) :
    ∃ first, ∀ position < inner.children.length, number (path ++ [position]) = first + position := by
  obtain ⟨first, consecutive⟩ := lists.consecutive
  refine ⟨first, fun position fits => ?_⟩
  have same := congrArg (·[position]?) (lists.children.symm.trans consecutive)
  simpa [fits] using same

/-- A scope is known by its number: the number leads back to the scope around it, and from there to its
position. -/
theorem injOn_number : Set.InjOn (ofScope scope).number {path | (scope.follow path).isSome} := by
  intro path leads other leads' same
  induction path using List.reverseRecOn generalizing other with
  | nil =>
      cases other using List.reverseRecOn with
      | nil => rfl
      | append_singleton before position => exact absurd same.symm (number_snoc_ne_root scope leads')
  | append_singleton before position ih =>
      cases other using List.reverseRecOn with
      | nil => exact absurd same (number_snoc_ne_root scope leads)
      | append_singleton before' position' =>
          obtain ⟨⟨offset, inner⟩, found⟩ := Option.isSome_iff_exists.mp leads
          obtain ⟨⟨offset', inner'⟩, found'⟩ := Option.isSome_iff_exists.mp leads'
          obtain ⟨entry, here, lists⟩ := lists_entries scope found
          obtain ⟨entry', here', lists'⟩ := lists_entries scope found'
          obtain rfl : entry = entry' := by
            rw [same, here'] at here
            exact (Option.some.inj here).symm
          have around : (ofScope scope).number before = (ofScope scope).number before' := by
            simpa [lists'.parent] using lists.parent.symm
          obtain ⟨start, outer, above, fits⟩ := Scope.isSome_follow_snoc.mp leads
          obtain ⟨start', outer', above', fits'⟩ := Scope.isSome_follow_snoc.mp leads'
          obtain rfl := ih (by simp [above]) (by simp [above']) around
          obtain ⟨rfl, rfl⟩ : start' = start ∧ outer' = outer := by simpa [above'] using above
          obtain ⟨_, _, listing⟩ := lists_entries scope above
          obtain ⟨first, numbers⟩ := listing.exists_first
          rw [numbers position fits, numbers position' fits'] at same
          rw [Nat.add_left_cancel same]

theorem flattens_ofScope : Flattens scope (ofScope scope).number (ofScope scope).entries where
  root := (entry_ofScope scope).1
  later := fun _ _ leads => number_lt_snoc scope leads
  lists := fun _ _ _ leads => lists_entries scope leads
  once := by
    refine ⟨fun path leads => ?_, injOn_number scope, fun id below => ?_⟩
    · obtain ⟨⟨offset, inner⟩, leads⟩ := Option.isSome_iff_exists.mp leads
      obtain ⟨entry, here, -⟩ := lists_entries scope leads
      exact (List.getElem?_eq_some_iff.mp here).1
    · have member := List.getElem_mem below
      obtain ⟨node, within, same⟩ := mem_entries.mp member
      obtain ⟨path, leads⟩ := within_iff_follow.mp within
      have numbered : (ofScope scope).number path = id := by
        have ids := congrArg (·[id]?) (ids_entries scope)
        have few : id < scope.descendants + 1 := by
          have length := congrArg List.length (ids_entries scope)
          simp only [List.length_map, List.length_range] at length
          exact length ▸ below
        rw [ScopeTree.number_of_follow leads, same]
        simpa [List.getElem?_eq_getElem below, few] using ids
      refine ⟨path, ?_, numbered⟩
      rcases (Placed.ofScope scope).follow path with ⟨-, ends⟩ | ⟨offset, inner, -, leads', -⟩
      · simp [ends] at leads
      · exact Option.isSome_iff_exists.mpr ⟨_, leads'⟩

end

/-- Each number but zero stands once among the numbers of the scopes inside scopes: in the entry of the
scope around, which has a smaller number and stands one step less deep. -/
def Owned (entries : List ScopeEntry) : Prop :=
  ∀ id, 0 < id → id < entries.length → ∃ entry outer around,
    entries[id]? = some entry ∧ entry.parent = some outer ∧ entries[outer]? = some around ∧
    outer < id ∧ entry.depth = around.depth + 1 ∧
    ∀ (other : Nat) (entry' : ScopeEntry), entries[other]? = some entry' →
      entry'.children.count id = if other = outer then 1 else 0

theorem Flattens.count_children {scope : Scope} {number : List Nat → Nat} {entries : List ScopeEntry}
    (flattens : Flattens scope number entries) {before : List Nat} {position : Nat}
    (leads : (scope.follow (before ++ [position])).isSome) {id : Nat} {entry : ScopeEntry}
    (here : entries[id]? = some entry) :
    entry.children.count (number (before ++ [position])) = if id = number before then 1 else 0 := by
  obtain ⟨start, outer, above, fits⟩ := Scope.isSome_follow_snoc.mp leads
  obtain ⟨path, leads', rfl⟩ := flattens.once.surjOn (List.getElem?_eq_some_iff.mp here).1
  obtain ⟨⟨offset, inner⟩, found⟩ := Option.isSome_iff_exists.mp leads'
  obtain ⟨listed, here', lists⟩ := flattens.lists _ _ _ found
  obtain rfl := Option.some.inj (here.symm.trans here')
  split
  · next same =>
      obtain rfl := flattens.once.injOn leads' (by simp [above]) same
      obtain ⟨rfl, rfl⟩ : offset = start ∧ inner = outer := by simpa [found] using above
      obtain ⟨first, consecutive⟩ := lists.consecutive
      have once : entry.children.Nodup := consecutive ▸ List.nodup_range'
      refine List.count_eq_one_of_mem once ?_
      rw [lists.children]
      exact List.mem_map_of_mem (List.mem_range.mpr fits)
  · next other =>
      refine List.count_eq_zero_of_not_mem fun member => other ?_
      rw [lists.children] at member
      obtain ⟨position', fits', same⟩ := List.mem_map.mp member
      have goesOn : (scope.follow (path ++ [position'])).isSome = true :=
        Scope.isSome_follow_snoc.mpr ⟨_, _, found, List.mem_range.mp fits'⟩
      have paths := flattens.once.injOn goesOn leads same
      rw [(List.append_inj' paths rfl).1]

theorem Flattens.owned {scope : Scope} {number : List Nat → Nat} {entries : List ScopeEntry}
    (flattens : Flattens scope number entries) : Owned entries := by
  intro id some below
  obtain ⟨path, leads, rfl⟩ := flattens.once.surjOn below
  cases path using List.reverseRecOn with
  | nil => exact absurd flattens.root (Nat.ne_of_gt some)
  | append_singleton before position =>
      obtain ⟨⟨offset, inner⟩, found⟩ := Option.isSome_iff_exists.mp leads
      obtain ⟨start, outer, above, -⟩ := Scope.isSome_follow_snoc.mp leads
      obtain ⟨entry, here, lists⟩ := flattens.lists _ _ _ found
      obtain ⟨around, here', lists'⟩ := flattens.lists _ _ _ above
      refine ⟨entry, number before, around, here, ?_, here', flattens.later _ _ leads, ?_,
        fun _ _ => flattens.count_children leads⟩
      · simpa using lists.parent
      · simp [lists.depth, lists'.depth]

end MuCompletion
