import Mathlib.Data.List.Pairwise
import MuCompletion.Proofs.Scope.Complete
import MuCompletion.Proofs.Scope.Layout

/-! # Scopes in scopes

Two scopes inside the module stand in each other or apart, and no two of them begin at one offset. The
numbers of a tree are given out in ranges, one for each list of scopes beside each other, so no two
scopes of a tree have one number. A scope is thus known by its start and by its number.
-/

namespace MuCompletion

open ScopeTree

/-- The tree `inner` stands inside `outer` at some depth. -/
def Inside : ScopeTree → ScopeTree → Prop :=
  Relation.TransGen fun outer inner => inner ∈ outer.branches

theorem inside_iff {tree node : ScopeTree} :
    Inside tree node ↔ ∃ branch ∈ tree.branches, Within branch node :=
  Relation.TransGen.head'_iff

theorem within_iff {tree node : ScopeTree} : Within tree node ↔ node = tree ∨ Inside tree node :=
  Relation.reflTransGen_iff_eq_or_transGen

/-- How the scopes inside a scope stand in each other and beside each other. -/
structure Nesting (tree : ScopeTree) : Prop where
  measured : ∀ node, Within tree node →
    node.entry.span.stop = node.entry.span.start + node.entry.head.length
  filled : ∀ node, Inside tree node → node.entry.span.start < node.entry.span.stop
  framed : ∀ outer, Inside tree outer → ∀ inner ∈ outer.branches,
    outer.entry.span.start < inner.entry.span.start ∧ inner.entry.span.stop ≤ outer.entry.span.stop
  apart : ∀ outer, Within tree outer → outer.branches.Pairwise fun earlier later =>
    earlier.entry.span.stop ≤ later.entry.span.start

namespace Nesting

variable {tree branch other outer inner first second : ScopeTree}

theorem of_branch (nesting : Nesting tree) (member : branch ∈ tree.branches) : Nesting branch where
  measured := by
    intro node within
    exact nesting.measured node (.head member within)
  filled := by
    intro node inside
    exact nesting.filled node (.head member inside)
  framed := by
    intro outer inside
    exact nesting.framed outer (.head member inside)
  apart := by
    intro outer within
    exact nesting.apart outer (.head member within)

theorem of_within (nesting : Nesting tree) (within : Within tree outer) : Nesting outer := by
  induction within with
  | refl => exact nesting
  | tail _ member ih => exact ih.of_branch member

theorem span_le (nesting : Nesting tree) (inside : Inside tree outer) (within : Within outer inner) :
    outer.entry.span.start ≤ inner.entry.span.start ∧ inner.entry.span.stop ≤ outer.entry.span.stop := by
  induction within with
  | refl => exact ⟨Nat.le_refl _, Nat.le_refl _⟩
  | tail between member ih =>
      have framed := nesting.framed _ (inside.trans_left between) _ member
      omega

theorem start_lt (nesting : Nesting tree) (inside : Inside tree outer) (deeper : Inside outer inner) :
    outer.entry.span.start < inner.entry.span.start ∧
      inner.entry.span.stop ≤ outer.entry.span.stop := by
  obtain ⟨branch, member, within⟩ := inside_iff.mp deeper
  have framed := nesting.framed outer inside branch member
  have spans := nesting.span_le (inside.tail member) within
  omega

theorem branches_apart (nesting : Nesting tree) (member : branch ∈ tree.branches)
    (member' : other ∈ tree.branches) :
    branch = other ∨ branch.entry.span.stop ≤ other.entry.span.start ∨
      other.entry.span.stop ≤ branch.entry.span.start := by
  by_cases same : branch = other
  · exact .inl same
  · right
    have apart : tree.branches.Pairwise fun earlier later =>
        earlier.entry.span.stop ≤ later.entry.span.start ∨
          later.entry.span.stop ≤ earlier.entry.span.start :=
      (nesting.apart tree .refl).imp .inl
    have symmetric : Std.Symm fun earlier later : ScopeTree =>
        earlier.entry.span.stop ≤ later.entry.span.start ∨
          later.entry.span.stop ≤ earlier.entry.span.start :=
      ⟨fun _ _ beside => beside.symm⟩
    exact apart.forall member member' same

theorem branch_eq (nesting : Nesting tree) (member : branch ∈ tree.branches)
    (member' : other ∈ tree.branches) (within : Within branch inner) (within' : Within other inner) :
    branch = other := by
  have filled := nesting.filled inner (inside_iff.mpr ⟨branch, member, within⟩)
  have spans := nesting.span_le (.single member) within
  have spans' := nesting.span_le (.single member') within'
  rcases nesting.branches_apart member member' with same | before | after
  · exact same
  · omega
  · omega

theorem nested_or_apart (nesting : Nesting tree) (inside : Inside tree first)
    (inside' : Inside tree second) :
    Within first second ∨ Within second first ∨
      first.entry.span.stop ≤ second.entry.span.start ∨
      second.entry.span.stop ≤ first.entry.span.start := by
  induction inside using Relation.TransGen.head_induction_on with
  | single member =>
      obtain ⟨branch, member', within⟩ := inside_iff.mp inside'
      have spans := nesting.span_le (.single member') within
      rcases nesting.branches_apart member member' with rfl | before | after
      · exact .inl within
      · exact .inr (.inr (.inl (Nat.le_trans before spans.1)))
      · exact .inr (.inr (.inr (Nat.le_trans spans.2 after)))
  | @head outer branch member inside ih =>
      obtain ⟨other, member', within⟩ := inside_iff.mp inside'
      have spans := nesting.span_le (.single member) inside.to_reflTransGen
      have spans' := nesting.span_le (.single member') within
      rcases nesting.branches_apart member member' with rfl | before | after
      · rcases within_iff.mp within with rfl | deeper
        · exact .inr (.inl inside.to_reflTransGen)
        · exact ih (nesting.of_branch member) deeper
      · omega
      · omega

theorem eq_of_start (nesting : Nesting tree) (inside : Inside tree first) (inside' : Inside tree second)
    (same : first.entry.span.start = second.entry.span.start) : first = second := by
  have filled := nesting.filled first inside
  have filled' := nesting.filled second inside'
  rcases nesting.nested_or_apart inside inside' with within | within | before | after
  · rcases within_iff.mp within with rfl | deeper
    · rfl
    · have later := nesting.start_lt inside deeper
      omega
  · rcases within_iff.mp within with rfl | deeper
    · rfl
    · have later := nesting.start_lt inside' deeper
      omega
  · omega
  · omega

end Nesting

theorem nesting_ofTokens (text : String) : Nesting (ofTokens (lex text)) := by
  constructor
  · intro node within
    obtain ⟨start, scope, here⟩ := (Placed.ofTokens (lex text)).within within
    rw [here.span, here.head]
  · intro node inside
    obtain ⟨outer, within, member⟩ := Relation.TransGen.tail'_iff.mp inside
    exact (encloses_ofTokens text within).filled _ (List.mem_map_of_mem member)
  · intro outer inside inner member
    obtain ⟨around, within, member'⟩ := Relation.TransGen.tail'_iff.mp inside
    have owned := (encloses_ofTokens text within).owned _ (List.mem_map_of_mem member')
    have here := encloses_ofTokens text inside.to_reflTransGen
    exact ⟨(here.framed owned _ (List.mem_map_of_mem member)).1, here.ends _ (List.mem_map_of_mem member)⟩
  · intro outer within
    exact List.pairwise_map.mp (encloses_ofTokens text within).apart

/-! ## Numbers -/

/-- The branches have numbers from `first` on, `count` of them, and the scopes inside them have numbers
from `next` up to `free`, all of them different. -/
structure Numbered (first count next free : Nat) (branches : List ScopeTree) : Prop where
  grows : next ≤ free
  own : ∀ branch ∈ branches, first ≤ branch.entry.id ∧ branch.entry.id < first + count
  inner : ∀ branch ∈ branches, ∀ node, Inside branch node →
    next ≤ node.entry.id ∧ node.entry.id < free
  unique : ∀ branch ∈ branches, ∀ other ∈ branches, ∀ node node', Within branch node →
    Within other node' → node.entry.id = node'.entry.id → node = node'

theorem Numbered.all {first next free : Nat} {tree node : ScopeTree} {count : Nat}
    (numbered : Numbered first count next free tree.branches) (after : first + count ≤ next)
    (inside : Inside tree node) : first ≤ node.entry.id ∧ node.entry.id < free := by
  obtain ⟨branch, member, within⟩ := inside_iff.mp inside
  have grows := numbered.grows
  rcases within_iff.mp within with rfl | deeper
  · have own := numbered.own _ member
    omega
  · have inner := numbered.inner branch member node deeper
    omega

theorem Numbered.cons {first count next mid free : Nat} {branch : ScopeTree} {rest : List ScopeTree}
    {inside : Nat} (after : first + 1 + count ≤ next) (here : branch.entry.id = first)
    (later : Numbered (first + 1) count next mid rest)
    (numbered : Numbered mid inside (mid + inside) free branch.branches) :
    Numbered first (count + 1) next free (branch :: rest) := by
  have grows := later.grows
  have grows' := numbered.grows
  have within_branch : ∀ node, Within branch node →
      node = branch ∨ mid ≤ node.entry.id ∧ node.entry.id < free := by
    intro node within
    rcases within_iff.mp within with same | deeper
    · exact .inl same
    · exact .inr (numbered.all (Nat.le_refl _) deeper)
  have within_rest : ∀ other ∈ rest, ∀ node, Within other node →
      first + 1 ≤ node.entry.id ∧ node.entry.id < mid := by
    intro other member node within
    rcases within_iff.mp within with rfl | deeper
    · have own := later.own _ member
      omega
    · have inner := later.inner other member node deeper
      omega
  have unique_branch : ∀ node node', Within branch node → Within branch node' →
      node.entry.id = node'.entry.id → node = node' := by
    intro node node' within within' same
    rcases within_iff.mp within with rfl | deeper
    · rcases within_iff.mp within' with rfl | deeper'
      · rfl
      · have range := numbered.all (Nat.le_refl _) deeper'
        omega
    · rcases within_iff.mp within' with rfl | deeper'
      · have range := numbered.all (Nat.le_refl _) deeper
        omega
      · obtain ⟨inner, member, within⟩ := inside_iff.mp deeper
        obtain ⟨inner', member', within'⟩ := inside_iff.mp deeper'
        exact numbered.unique inner member inner' member' node node' within within' same
  have apart : ∀ other ∈ rest, ∀ node node', Within branch node → Within other node' →
      node.entry.id ≠ node'.entry.id := by
    intro other member node node' within within'
    have range := within_rest other member node' within'
    rcases within_branch node within with rfl | range'
    · omega
    · omega
  constructor
  · omega
  · intro other member
    rcases List.mem_cons.mp member with rfl | member
    · omega
    · have own := later.own other member
      omega
  · intro other member node deeper
    rcases List.mem_cons.mp member with rfl | member
    · have range := numbered.all (Nat.le_refl _) deeper
      omega
    · have inner := later.inner other member node deeper
      omega
  · intro other member other' member' node node' within within' same
    rcases List.mem_cons.mp member with rfl | listed
    · rcases List.mem_cons.mp member' with rfl | listed'
      · exact unique_branch node node' within within' same
      · exact absurd same (apart other' listed' node node' within within')
    · rcases List.mem_cons.mp member' with rfl | listed'
      · exact absurd same.symm (apart other listed node' node within' within)
      · exact later.unique other listed other' listed' node node' within within' same

mutual

theorem numbered_place (id : Nat) (parent : Option Nat) (depth start next : Nat) :
    ∀ scope : Scope, Numbered next scope.children.length (next + scope.children.length)
      (place id parent depth start next scope).2 (place id parent depth start next scope).1.branches
  | .node head children => by
    simp only [place, Scope.children, branches]
    exact numbered_placeAll id (depth + 1) start next (next + children.length) children (Nat.le_refl _)

theorem numbered_placeAll (parent depth start first next : Nat) :
    ∀ children : List (Nat × Scope), first + children.length ≤ next →
      Numbered first children.length next (placeAll parent depth start first next children).2
        (placeAll parent depth start first next children).1
  | [], _ => by
    simp only [placeAll]
    constructor <;> simp
  | (offset, scope) :: rest, after => by
    rw [List.length_cons] at after
    have later := numbered_placeAll parent depth start (first + 1) next rest (by omega)
    have here := numbered_place first (some parent) depth (start + offset)
      (placeAll parent depth start (first + 1) next rest).2 scope
    simp only [placeAll, List.length_cons]
    apply Numbered.cons (by omega) _ later here
    cases scope
    rfl

end

theorem eq_of_id {tokens : List Token} {node other : ScopeTree} (within : Within (ofTokens tokens) node)
    (within' : Within (ofTokens tokens) other) (same : node.entry.id = other.entry.id) :
    node = other := by
  have numbered := numbered_place 0 none 0 0 1 (.ofTokens tokens)
  have root : (ofTokens tokens).entry.id = 0 := by
    rw [ofTokens, ofScope]
    cases Scope.ofTokens tokens
    rfl
  rcases within_iff.mp within with rfl | inside
  · rcases within_iff.mp within' with rfl | inside'
    · rfl
    · have range := numbered.all (Nat.le_refl _) inside'
      omega
  · rcases within_iff.mp within' with rfl | inside'
    · have range := numbered.all (Nat.le_refl _) inside
      omega
    · obtain ⟨branch, member, within⟩ := inside_iff.mp inside
      obtain ⟨branch', member', within'⟩ := inside_iff.mp inside'
      exact numbered.unique branch member branch' member' node other within within' same

end MuCompletion
