import Mathlib.Data.List.Chain
import Mathlib.Data.List.Induction
import MuCompletion.Proofs.Scope.Nesting

/-! # The scopes around an offset

Of scopes beside each other at most one holds an offset, and what holds it inside a scope is held by
that scope. Going down into the scope that holds the offset, as long as there is one, therefore misses
none: the way down, read from its end, lists every scope that holds the offset, each followed by the
scope around it, up to the module. The names that can be seen are those of the scopes on the way.
-/

namespace MuCompletion

open ScopeTree

/-- A scope is numbered under the scope around it. -/
structure ScopeEntry.Under (inner outer : ScopeEntry) : Prop where
  parent : inner.parent = some outer.id
  depth : inner.depth = outer.depth + 1
  later : outer.id < inner.id

/-- The scopes that hold an offset, innermost first. -/
structure Surrounds (offset : Nat) (tree : ScopeTree) (chain : List ScopeEntry) : Prop where
  holds : ∀ entry, entry ∈ chain ↔
    entry = tree.entry ∨ entry ∈ tree.entries ∧ entry.contains offset = true
  linked : chain.IsChain ScopeEntry.Under
  distinct : (chain.map (·.id)).Nodup
  outermost : chain.getLast? = some tree.entry ∧ tree.entry.parent = none

/-- The symbols of a scope, seen from a distance. -/
def ScopeEntry.seenFrom (distance : Nat) (entry : ScopeEntry) : List VisibleSymbol :=
  entry.head.symbols.map fun symbol =>
    ⟨symbol, entry.id, symbol.place entry.span.start, distance⟩

/-- The symbols of the scopes of a chain, in its order, each with its distance along the chain. -/
structure Sees (chain : List ScopeEntry) (seen : List VisibleSymbol) : Prop where
  ordered : seen.Pairwise fun first second => first.distance ≤ second.distance
  within : ∀ symbol ∈ seen, symbol.distance < chain.length
  symbols : ∀ distance entry, chain[distance]? = some entry →
    seen.filter (·.distance == distance) = entry.seenFrom distance

/-! ## Numbers on the way -/

/-- Every scope of the tree is numbered under the scope around it. -/
def Linked (tree : ScopeTree) : Prop :=
  ∀ outer, Within tree outer → ∀ branch ∈ outer.branches, branch.entry.Under outer.entry

theorem Linked.of_branches {tree : ScopeTree}
    (here : ∀ branch ∈ tree.branches, branch.entry.Under tree.entry ∧ Linked branch) :
    Linked tree := by
  intro outer within inner member
  rcases within_iff.mp within with rfl | inside
  · exact (here inner member).1
  · obtain ⟨branch, member', within⟩ := inside_iff.mp inside
    exact (here branch member').2 outer within inner member

theorem Linked.of_branch {tree branch : ScopeTree} (linked : Linked tree)
    (member : branch ∈ tree.branches) : Linked branch :=
  fun outer within => linked outer (.head member within)

mutual

theorem linked_place (id : Nat) (parent : Option Nat) (depth start next : Nat) :
    ∀ scope : Scope, id < next → Linked (place id parent depth start next scope).1
  | .node head children, before => by
    apply Linked.of_branches
    intro branch member
    simp only [place, branches] at member
    obtain ⟨around, deeper, first, linked⟩ :=
      linked_placeAll id (depth + 1) start next (next + children.length) children (Nat.le_refl _)
        branch member
    exact ⟨⟨around, deeper, Nat.lt_of_lt_of_le before first⟩, linked⟩

theorem linked_placeAll (parent depth start first next : Nat) :
    ∀ children : List (Nat × Scope), first + children.length ≤ next →
      ∀ branch ∈ (placeAll parent depth start first next children).1,
        branch.entry.parent = some parent ∧ branch.entry.depth = depth ∧ first ≤ branch.entry.id ∧
          Linked branch
  | [], _ => by simp [placeAll]
  | (offset, scope) :: rest, after => by
    intro branch member
    rw [List.length_cons] at after
    simp only [placeAll, List.mem_cons] at member
    rcases member with rfl | later
    · have grows := (numbered_placeAll parent depth start (first + 1) next rest (by omega)).grows
      have linked := linked_place first (some parent) depth (start + offset)
        (placeAll parent depth start (first + 1) next rest).2 scope (by omega)
      cases scope
      exact ⟨rfl, rfl, Nat.le_refl _, linked⟩
    · obtain ⟨around, deeper, first', linked⟩ :=
        linked_placeAll parent depth start (first + 1) next rest (by omega) branch later
      exact ⟨around, deeper, by omega, linked⟩

end

theorem linked_ofScope (scope : Scope) : Linked (ofScope scope) :=
  linked_place 0 none 0 0 1 scope Nat.zero_lt_one

theorem linked_ofTokens (tokens : List Token) : Linked (ofTokens tokens) :=
  linked_ofScope _

mutual

theorem mem_inner {entry : ScopeEntry} :
    ∀ tree : ScopeTree, entry ∈ tree.inner ↔ ∃ node, Inside tree node ∧ node.entry = entry
  | .node own branches => by
    simp only [ScopeTree.inner, List.mem_append, List.mem_map, mem_innerAll branches]
    constructor
    · rintro (⟨branch, member, same⟩ | ⟨branch, member, node, inside, same⟩)
      · exact ⟨branch, .single member, same⟩
      · exact ⟨node, .head member inside, same⟩
    · rintro ⟨node, inside, same⟩
      obtain ⟨branch, member, within⟩ := inside_iff.mp inside
      rcases within_iff.mp within with rfl | deeper
      · exact .inl ⟨node, member, same⟩
      · exact .inr ⟨branch, member, node, deeper, same⟩

theorem mem_innerAll {entry : ScopeEntry} :
    ∀ branches : List ScopeTree, entry ∈ innerAll branches ↔
      ∃ branch ∈ branches, ∃ node, Inside branch node ∧ node.entry = entry
  | [] => by simp [innerAll]
  | branch :: rest => by
    simp [innerAll, mem_inner branch, mem_innerAll rest, or_comm]

end

theorem mem_entries {entry : ScopeEntry} {tree : ScopeTree} :
    entry ∈ tree.entries ↔ ∃ node, Within tree node ∧ node.entry = entry := by
  simp only [entries, List.mem_cons, mem_inner, within_iff]
  constructor
  · rintro (rfl | ⟨node, inside, same⟩)
    · exact ⟨tree, .inl rfl, rfl⟩
    · exact ⟨node, .inr inside, same⟩
  · rintro ⟨node, rfl | inside, same⟩
    · exact .inl same.symm
    · exact .inr ⟨node, inside, same⟩

/-! ## The way down -/

/-- A way down through scopes that hold the offset, as far as there are any; its end comes first. -/
inductive Trail (offset : Nat) : ScopeTree → List ScopeEntry → Prop where
  | ends {tree : ScopeTree} (none : ∀ branch ∈ tree.branches, branch.entry.contains offset = false) :
      Trail offset tree [tree.entry]
  | into {tree branch : ScopeTree} {deeper : List ScopeEntry} (member : branch ∈ tree.branches)
      (holds : branch.entry.contains offset = true) (below : Trail offset branch deeper) :
      Trail offset tree (deeper ++ [tree.entry])

mutual

theorem exists_trail (offset : Nat) : ∀ (tree : ScopeTree) (outer : List ScopeEntry),
    ∃ trail, Trail offset tree trail ∧ descend offset outer tree = trail ++ outer
  | .node entry branches, outer => by
    rcases exists_trail_any offset branches (entry :: outer) with
      ⟨none, same⟩ | ⟨branch, member, holds, trail, below, same⟩
    · exact ⟨[entry], .ends none, same⟩
    · refine ⟨trail ++ [entry], .into member holds below, ?_⟩
      rw [List.append_assoc]
      exact same

theorem exists_trail_any (offset : Nat) : ∀ (branches : List ScopeTree) (outer : List ScopeEntry),
    (∀ branch ∈ branches, branch.entry.contains offset = false) ∧
        descendAny offset outer branches = outer ∨
      ∃ branch ∈ branches, branch.entry.contains offset = true ∧
        ∃ trail, Trail offset branch trail ∧ descendAny offset outer branches = trail ++ outer
  | [], outer => .inl ⟨by simp, rfl⟩
  | branch :: rest, outer => by
    by_cases holds : branch.entry.contains offset = true
    · obtain ⟨trail, below, same⟩ := exists_trail offset branch outer
      refine .inr ⟨branch, List.mem_cons_self, holds, trail, below, ?_⟩
      rw [descendAny, if_pos holds, same]
    · rw [descendAny, if_neg holds]
      rcases exists_trail_any offset rest outer with ⟨none, same⟩ | ⟨other, member, later⟩
      · refine .inl ⟨fun other member => ?_, same⟩
        rcases List.mem_cons.mp member with rfl | member
        · simpa using holds
        · exact none other member
      · exact .inr ⟨other, List.mem_cons_of_mem _ member, later⟩

end

theorem trail_chain (offset : Nat) (tree : ScopeTree) : Trail offset tree (tree.chain offset) := by
  obtain ⟨trail, way, same⟩ := exists_trail offset tree []
  rw [chain, same, List.append_nil]
  exact way

/-- What holds the offset inside a scope is held by the scope, and of scopes beside each other at most
one holds it. -/
structure Focused (offset : Nat) (tree : ScopeTree) : Prop where
  rises : ∀ outer, Inside tree outer → ∀ inner ∈ outer.branches,
    inner.entry.contains offset = true → outer.entry.contains offset = true
  alone : ∀ outer, Within tree outer → ∀ branch ∈ outer.branches, ∀ other ∈ outer.branches,
    branch.entry.contains offset = true → other.entry.contains offset = true → branch = other

namespace Focused

variable {offset : Nat} {tree branch node : ScopeTree}

theorem of_branch (focused : Focused offset tree) (member : branch ∈ tree.branches) :
    Focused offset branch where
  rises := by
    intro outer inside
    exact focused.rises outer (.head member inside)
  alone := by
    intro outer within
    exact focused.alone outer (.head member within)

theorem holds_of_within (focused : Focused offset tree) (member : branch ∈ tree.branches)
    (within : Within branch node) (holds : node.entry.contains offset = true) :
    branch.entry.contains offset = true := by
  induction within with
  | refl => exact holds
  | tail between deeper ih =>
      exact ih (focused.rises _ (inside_iff.mpr ⟨branch, member, between⟩) _ deeper holds)

end Focused

theorem ScopeEntry.contains_bounds {offset : Nat} {entry : ScopeEntry}
    (holds : entry.contains offset = true) : entry.span.start < offset ∧ offset ≤ entry.span.stop := by
  simp only [contains, Bool.and_eq_true, decide_eq_true_eq] at holds
  refine ⟨holds.1, ?_⟩
  by_cases closed : entry.head.closed = true
  · exact Nat.le_of_lt (by simpa [closed] using holds.2)
  · simpa [closed] using holds.2

theorem focused_ofTokens (text : String) (offset : Nat) : Focused offset (ofTokens (lex text)) where
  rises := by
    intro outer inside inner member holds
    have framed := (nesting_ofTokens text).framed outer inside inner member
    have bounds := ScopeEntry.contains_bounds holds
    simp only [ScopeEntry.contains, Bool.and_eq_true, decide_eq_true_eq] at holds ⊢
    refine ⟨by omega, ?_⟩
    by_cases closed : outer.entry.head.closed = true
    · -- A scope inside a closed one is closed, so it holds no offset at its end.
      have complete : inner.entry.head.closed = true := by
        by_contra open_
        obtain ⟨around, within, member'⟩ := Relation.TransGen.tail'_iff.mp inside
        have owned := (encloses_ofTokens text within).owned _ (List.mem_map_of_mem member')
        have unclosed := (encloses_ofTokens text inside.to_reflTransGen).unclosed _
          (List.mem_map_of_mem member) (by simpa [ScopeTree.extent] using open_)
        rcases unclosed.2 with same | same
        · exact owned same
        · simp [ScopeTree.extent, closed] at same
      have before : offset < inner.entry.span.stop := by simpa [complete] using holds.2
      simp only [closed, if_true, decide_eq_true_eq]
      omega
    · simp only [closed, Bool.false_eq_true, if_false, decide_eq_true_eq]
      omega
  alone := by
    intro outer within branch member other member' holds holds'
    have bounds := ScopeEntry.contains_bounds holds
    have bounds' := ScopeEntry.contains_bounds holds'
    rcases ((nesting_ofTokens text).of_within within).branches_apart member member' with
      same | before | behind
    · exact same
    · omega
    · omega

namespace Trail

variable {offset : Nat} {tree : ScopeTree} {trail : List ScopeEntry}

theorem getLast? (way : Trail offset tree trail) : trail.getLast? = some tree.entry := by
  cases way <;> simp

theorem linked (way : Trail offset tree trail) (linked : Linked tree) :
    trail.IsChain ScopeEntry.Under := by
  induction way with
  | ends => exact .singleton _
  | @into tree branch deeper member holds below ih =>
      refine List.isChain_append.mpr ⟨ih (linked.of_branch member), .singleton _, ?_⟩
      intro inner last outer first
      rw [below.getLast?] at last
      obtain rfl := Option.some.inj last
      obtain rfl := by simpa using first
      exact linked tree .refl branch member

theorem mem_iff (way : Trail offset tree trail) (focused : Focused offset tree) {entry : ScopeEntry} :
    entry ∈ trail ↔ entry = tree.entry ∨
      ∃ node, Inside tree node ∧ node.entry = entry ∧ entry.contains offset = true := by
  induction way with
  | @ends tree none =>
      refine ⟨fun member => .inl (List.mem_singleton.mp member), ?_⟩
      rintro (rfl | ⟨node, inside, rfl, holds⟩)
      · exact List.mem_singleton_self _
      · obtain ⟨branch, member, within⟩ := inside_iff.mp inside
        have above := focused.holds_of_within member within holds
        simp [none branch member] at above
  | @into tree branch deeper member holds below ih =>
      rw [List.mem_append, List.mem_singleton, ih (focused.of_branch member)]
      constructor
      · rintro ((rfl | ⟨node, inside, same, holds'⟩) | rfl)
        · exact .inr ⟨branch, .single member, rfl, holds⟩
        · exact .inr ⟨node, .head member inside, same, holds'⟩
        · exact .inl rfl
      · rintro (rfl | ⟨node, inside, rfl, holds'⟩)
        · exact .inr rfl
        · obtain ⟨other, member', within⟩ := inside_iff.mp inside
          have above := focused.holds_of_within member' within holds'
          obtain rfl := focused.alone tree .refl branch member other member' holds above
          left
          rcases within_iff.mp within with rfl | deeper
          · exact .inl rfl
          · exact .inr ⟨node, deeper, rfl, holds'⟩

end Trail

theorem nodup_of_under {chain : List ScopeEntry} (linked : chain.IsChain ScopeEntry.Under) :
    (chain.map (·.id)).Nodup := by
  have falls : (chain.map (·.id)).IsChain (· > ·) :=
    (List.isChain_map _).mpr (linked.imp fun _ _ under => under.later)
  exact falls.pairwise.imp Nat.ne_of_gt

theorem surrounds_chain (text : String) (offset : Nat) :
    Surrounds offset (ofTokens (lex text)) ((ofTokens (lex text)).chain offset) := by
  have way := trail_chain offset (ofTokens (lex text))
  have focused := focused_ofTokens text offset
  have linked := way.linked (linked_ofTokens (lex text))
  refine ⟨fun entry => ?_, linked, nodup_of_under linked, way.getLast?, ?_⟩
  · rw [way.mem_iff focused, mem_entries]
    constructor
    · rintro (same | ⟨node, inside, same, holds⟩)
      · exact .inl same
      · exact .inr ⟨⟨node, inside.to_reflTransGen, same⟩, holds⟩
    · rintro (same | ⟨⟨node, within, same⟩, holds⟩)
      · exact .inl same
      · rcases within_iff.mp within with rfl | inside
        · exact .inl same.symm
        · exact .inr ⟨node, inside, same, holds⟩
  · rw [ofTokens, ofScope]
    cases Scope.ofTokens (lex text)
    rfl

/-! ## What is seen -/

theorem ScopeEntry.distance_of_mem {distance : Nat} {entry : ScopeEntry} {symbol : VisibleSymbol}
    (member : symbol ∈ entry.seenFrom distance) : symbol.distance = distance := by
  obtain ⟨_, -, rfl⟩ := List.mem_map.mp member
  rfl

theorem Sees.append {chain : List ScopeEntry} {seen : List VisibleSymbol} (sees : Sees chain seen)
    (entry : ScopeEntry) : Sees (chain ++ [entry]) (seen ++ entry.seenFrom chain.length) where
  ordered := by
    refine List.pairwise_append.mpr ⟨sees.ordered, ?_, fun first member second member' => ?_⟩
    · exact List.pairwise_map.mpr (List.pairwise_of_forall fun _ _ => Nat.le_refl _)
    · rw [ScopeEntry.distance_of_mem member']
      exact Nat.le_of_lt (sees.within first member)
  within := by
    intro symbol member
    rw [List.length_append, List.length_singleton]
    rcases List.mem_append.mp member with member | member
    · have within := sees.within symbol member
      omega
    · have distance := ScopeEntry.distance_of_mem member
      omega
  symbols := by
    intro distance other here
    rw [List.filter_append]
    rw [List.getElem?_append] at here
    split at here
    · next within =>
        have none : (entry.seenFrom chain.length).filter (·.distance == distance) = [] := by
          refine List.filter_eq_nil_iff.mpr fun symbol member => ?_
          have far := ScopeEntry.distance_of_mem member
          simp only [beq_iff_eq]
          omega
        rw [none, List.append_nil]
        exact sees.symbols distance other here
    · next behind =>
        obtain ⟨first, rfl⟩ : distance - chain.length = 0 ∧ entry = other := by
          simpa [List.getElem?_singleton] using here
        obtain rfl : distance = chain.length := by omega
        have none : seen.filter (·.distance == chain.length) = [] := by
          refine List.filter_eq_nil_iff.mpr fun symbol member => ?_
          have near := sees.within symbol member
          simp only [beq_iff_eq]
          omega
        have all : (entry.seenFrom chain.length).filter (·.distance == chain.length) =
            entry.seenFrom chain.length := by
          refine List.filter_eq_self.mpr fun symbol member => ?_
          simp [ScopeEntry.distance_of_mem member]
        rw [none, all, List.nil_append]

theorem sees_visible (offset : Nat) (tree : ScopeTree) :
    Sees (tree.chain offset) (tree.visible offset) := by
  rw [visible]
  generalize tree.chain offset = chain
  induction chain using List.reverseRecOn with
  | nil => exact ⟨.nil, by simp, by simp⟩
  | append_singleton chain entry ih =>
      have more := ih.append entry
      simpa [List.zipIdx_append, List.flatMap_append, ScopeEntry.symbols, ScopeEntry.seenFrom,
        Symbol.place, Function.comp_def] using more

/-- From every offset of a text, the chain lists the module and the scopes that hold the offset, each
followed by the scope around it; the innermost scope is its first. What is visible are the symbols of
these scopes in order, at their places. -/
theorem chain_ofTokens (text : String) (offset : Nat) :
    Surrounds offset (ofTokens (lex text)) ((ofTokens (lex text)).chain offset) ∧
      ((ofTokens (lex text)).chain offset).head? = some ((ofTokens (lex text)).innermost offset) ∧
      Sees ((ofTokens (lex text)).chain offset) ((ofTokens (lex text)).visible offset) := by
  have surrounds := surrounds_chain text offset
  refine ⟨surrounds, ?_, sees_visible offset _⟩
  cases chain : (ofTokens (lex text)).chain offset with
  | nil =>
      have last := surrounds.outermost.1
      simp [chain] at last
  | cons entry outer => simp [innermost, chain]

end MuCompletion
