import MuCompletion.Proofs.Scope.Placed

/-! # Extents

How a scope lies around those inside it, and how its names stand in it. A scope is laid out if this
holds of it and of all scopes inside it, and so it is laid out wherever a tree places it.
-/

namespace MuCompletion

/-- A scope at its place, without the scopes inside. -/
structure Extent where
  span : Span
  kind : ScopeKind
  closed : Bool
  /-- The symbols of the scope with the bytes of their names. -/
  symbols : List (Symbol × Span)

def Symbol.place (start : Nat) (symbol : Symbol) : Span :=
  ⟨start + symbol.offset, start + symbol.offset + symbol.length⟩

theorem Symbol.place_of_span {start : Nat} {span : Span} (after : start ≤ span.start)
    (filled : span.start ≤ span.stop) (name : String) (kind : SymbolKind)
    (documentation : Option String) :
    Symbol.place start ⟨name, kind, span.start - start, span.length, documentation⟩ = span := by
  have begins : start + (span.start - start) = span.start := by omega
  have ends : span.start + (span.stop - span.start) = span.stop := by omega
  simp only [place, Span.length, begins, ends]

namespace Extent

/-- How scopes lie inside a scope, in a text of `length` bytes. -/
structure Encloses (length : Nat) (outer : Extent) (inside : List Extent) : Prop where
  owned : ∀ inner ∈ inside, inner.kind ≠ .«module»
  filled : ∀ inner ∈ inside, inner.span.start < inner.span.stop
  ends : ∀ inner ∈ inside, inner.span.stop ≤ outer.span.stop
  framed : outer.kind ≠ .«module» → ∀ inner ∈ inside, outer.span.start < inner.span.start ∧
    (outer.closed = true → inner.span.stop < outer.span.stop)
  apart : inside.Pairwise fun earlier later => earlier.span.stop ≤ later.span.start
  last : ∀ inner ∈ inside.dropLast, inner.closed = true
  unclosed : ∀ inner ∈ inside, inner.closed = false →
    inner.span.stop = length ∧ (outer.kind = .«module» ∨ outer.closed = false)

/-- How the names of a scope stand in it: each is an identifier of the text. -/
structure Names (tokens : List Token) (extent : Extent) : Prop where
  named : ∀ entry ∈ extent.symbols, ∃ token ∈ tokens,
    token.kind = .identifier ∧ token.text = entry.1.name ∧ token.span = entry.2
  filled : ∀ entry ∈ extent.symbols, extent.span.start ≤ entry.2.start ∧
    entry.2.start < entry.2.stop ∧ entry.2.stop ≤ extent.span.stop
  apart : extent.symbols.Pairwise fun earlier later => earlier.2.stop ≤ later.2.start

namespace Encloses

variable {length : Nat} {outer outer' new : Extent} {inside : List Extent}

theorem nil : outer.Encloses length [] :=
  ⟨by simp, by simp, by simp, by simp, .nil, by simp, by simp⟩

/-- A scope may end later. If it is closed there, all scopes inside are. -/
theorem widen (encloses : outer.Encloses length inside) (start : outer'.span.start = outer.span.start)
    (kind : outer'.kind = outer.kind) (later : outer.span.stop ≤ outer'.span.stop)
    (closes : outer'.kind ≠ .«module» → outer'.closed = true →
      outer.span.stop < outer'.span.stop ∧ ∀ inner ∈ inside, inner.closed = true) :
    outer'.Encloses length inside where
  owned := encloses.owned
  filled := encloses.filled
  ends := fun inner member => Nat.le_trans (encloses.ends inner member) later
  framed := by
    intro owned inner member
    have framed := encloses.framed (kind ▸ owned) inner member
    have ends := encloses.ends inner member
    refine ⟨start ▸ framed.1, fun closed => ?_⟩
    have behind := (closes owned closed).1
    omega
  apart := encloses.apart
  last := encloses.last
  unclosed := by
    intro inner member open_
    refine ⟨(encloses.unclosed inner member open_).1, ?_⟩
    -- A brace that closes a scope leaves none open inside it.
    by_cases owned : outer'.kind = .«module»
    · exact .inl owned
    · by_cases closed : outer'.closed = true
      · have complete := (closes owned closed).2 inner member
        simp [open_] at complete
      · exact .inr (by simpa using closed)

theorem append (encloses : outer.Encloses length inside)
    (complete : ∀ inner ∈ inside, inner.closed = true)
    (before : ∀ inner ∈ inside, inner.span.stop ≤ new.span.start) (open_ : outer.closed = false)
    (owned : new.kind ≠ .«module») (filled : new.span.start < new.span.stop)
    (ends : new.span.stop ≤ outer.span.stop)
    (framed : outer.kind ≠ .«module» → outer.span.start < new.span.start)
    (unclosed : new.closed = false → new.span.stop = length) :
    outer.Encloses length (inside ++ [new]) where
  owned := by simpa [or_imp, forall_and] using ⟨encloses.owned, owned⟩
  filled := by simpa [or_imp, forall_and] using ⟨encloses.filled, filled⟩
  ends := by simpa [or_imp, forall_and] using ⟨encloses.ends, ends⟩
  framed := by
    intro inner_owned inner member
    rcases List.mem_append.mp member with member | here
    · exact encloses.framed inner_owned inner member
    · rw [List.mem_singleton.mp here]
      exact ⟨framed inner_owned, fun closed => by simp [open_] at closed⟩
  apart := by
    refine List.pairwise_append.mpr ⟨encloses.apart, List.pairwise_singleton _ _, ?_⟩
    intro earlier member later here
    rw [List.mem_singleton.mp here]
    exact before earlier member
  last := by simpa using complete
  unclosed := by
    intro inner member unclosed_inner
    refine ⟨?_, .inr open_⟩
    rcases List.mem_append.mp member with member | here
    · exact (encloses.unclosed inner member unclosed_inner).1
    · rw [List.mem_singleton.mp here] at unclosed_inner ⊢
      exact unclosed unclosed_inner

end Encloses

end Extent

def Scope.extent (start : Nat) (scope : Scope) : Extent :=
  ⟨⟨start, start + scope.head.length⟩, scope.head.kind, scope.head.closed,
    scope.head.symbols.map fun symbol => (symbol, symbol.place start)⟩

/-- The scopes directly inside a scope that begins at `start`. -/
def Scope.inside (start : Nat) (scope : Scope) : List Extent :=
  scope.children.map fun child => child.2.extent (start + child.1)

def ScopeTree.extent (tree : ScopeTree) : Extent :=
  ⟨tree.entry.span, tree.entry.head.kind, tree.entry.head.closed, tree.entry.symbols⟩

/-- The scope at `start` and all scopes inside it are laid out in a text of `length` bytes. -/
def Laid (tokens : List Token) (length start : Nat) (scope : Scope) : Prop :=
  ∀ tree, Placed start scope tree → ∀ node, Within tree node →
    node.extent.Encloses length (node.branches.map ScopeTree.extent) ∧ node.extent.Names tokens

section

variable {tokens : List Token} {length : Nat}

theorem Placed.extent {start : Nat} {scope : Scope} {tree : ScopeTree}
    (placed : Placed start scope tree) : tree.extent = scope.extent start := by
  have symbols : tree.entry.symbols =
      scope.head.symbols.map fun symbol => (symbol, symbol.place start) := by
    simp only [ScopeEntry.symbols, placed.span, placed.head, Symbol.place]
  simp only [ScopeTree.extent, Scope.extent, placed.span, placed.head, symbols]

theorem Placed.extents {start : Nat} {children : List (Nat × Scope)} {branches : List ScopeTree}
    (placed : List.Forall₂ (fun child branch => Placed (start + child.1) child.2 branch) children
      branches) :
    branches.map ScopeTree.extent =
      children.map fun child => child.2.extent (start + child.1) := by
  induction placed with
  | nil => rfl
  | cons here _ ih => simp only [List.map_cons, here.extent, ih]

theorem Placed.of_mem {start : Nat} {children : List (Nat × Scope)} {branches : List ScopeTree}
    (placed : List.Forall₂ (fun child branch => Placed (start + child.1) child.2 branch) children
      branches) {branch : ScopeTree} (member : branch ∈ branches) :
    ∃ child ∈ children, Placed (start + child.1) child.2 branch := by
  induction placed with
  | nil => cases member
  | cons here _ ih =>
      rcases List.mem_cons.mp member with rfl | member
      · exact ⟨_, List.mem_cons_self, here⟩
      · obtain ⟨child, complete, placed⟩ := ih member
        exact ⟨child, List.mem_cons_of_mem _ complete, placed⟩

theorem Placed.cases_within {start : Nat} {scope : Scope} {tree node : ScopeTree}
    (placed : Placed start scope tree) (within : Within tree node) :
    tree = node ∨ ∃ child ∈ scope.children, ∃ branch,
      Placed (start + child.1) child.2 branch ∧ Within branch node := by
  rcases within.cases_head with same | ⟨branch, member, within⟩
  · exact .inl same
  · obtain ⟨child, complete, placed⟩ := Placed.of_mem placed.branches member
    exact .inr ⟨child, complete, branch, placed, within⟩

theorem Laid.node {start : Nat} {scope : Scope}
    (encloses : (scope.extent start).Encloses length (scope.inside start))
    (names : (scope.extent start).Names tokens)
    (laid : ∀ child ∈ scope.children, Laid tokens length (start + child.1) child.2) :
    Laid tokens length start scope := by
  intro tree placed node within
  rcases placed.cases_within within with rfl | ⟨child, complete, branch, placed, within⟩
  · rw [placed.extent, Placed.extents placed.branches]
    exact ⟨encloses, names⟩
  · exact laid child complete branch placed node within

/-- Names between `start` and `stop`, newest first. -/
structure Noted (tokens : List Token) (start stop : Nat) (names : List Token) : Prop where
  identifiers : ∀ name ∈ names, name ∈ tokens ∧ name.kind = .identifier
  inside : ∀ name ∈ names,
    start ≤ name.span.start ∧ name.span.start < name.span.stop ∧ name.span.stop ≤ stop
  apart : names.Pairwise fun later earlier => earlier.span.stop ≤ later.span.start

namespace Noted

variable {start stop stop' : Nat} {names names' : List Token} {token : Token}

theorem nil : Noted tokens start stop [] :=
  ⟨by simp, by simp, .nil⟩

theorem sublist (noted : Noted tokens start stop names) (sub : names'.Sublist names) :
    Noted tokens start stop names' where
  identifiers := fun name member => noted.identifiers name (sub.subset member)
  inside := fun name member => noted.inside name (sub.subset member)
  apart := noted.apart.sublist sub

theorem mono (noted : Noted tokens start stop names) (later : stop ≤ stop') :
    Noted tokens start stop' names where
  identifiers := noted.identifiers
  inside := by
    intro name member
    have inside := noted.inside name member
    omega
  apart := noted.apart

theorem cons (noted : Noted tokens start stop names) (member : token ∈ tokens)
    (name : token.kind = .identifier) (here : token.span.start = stop) (after : start ≤ stop)
    (filled : stop < token.span.stop) : Noted tokens start token.span.stop (token :: names) where
  identifiers := by
    intro other listed
    rcases List.mem_cons.mp listed with rfl | listed
    · exact ⟨member, name⟩
    · exact noted.identifiers other listed
  inside := by
    intro other listed
    rcases List.mem_cons.mp listed with rfl | listed
    · omega
    · have inside := noted.inside other listed
      omega
  apart := by
    refine .cons (fun earlier listed => ?_) noted.apart
    rw [here]
    exact (noted.inside earlier listed).2.2

/-- Names that were noted are the names of a scope which lists them from the oldest on. -/
theorem extent_names {extent : Extent} (noted : Noted tokens extent.span.start extent.span.stop names)
    (same : extent.symbols.map (fun entry => (entry.1.name, entry.2)) =
      names.reverse.map fun name => (name.text, name.span)) : extent.Names tokens := by
  have of_mem : ∀ entry ∈ extent.symbols, ∃ name ∈ names,
      name.text = entry.1.name ∧ name.span = entry.2 := by
    intro entry member
    have listed : (entry.1.name, entry.2) ∈ names.reverse.map fun name => (name.text, name.span) := by
      rw [← same]
      exact List.mem_map_of_mem member
    obtain ⟨name, listed, spells⟩ := List.mem_map.mp listed
    obtain ⟨text, span⟩ := Prod.mk.inj spells
    exact ⟨name, List.mem_reverse.mp listed, text, span⟩
  refine ⟨fun entry member => ?_, fun entry member => ?_, ?_⟩
  · obtain ⟨name, listed, text, span⟩ := of_mem entry member
    obtain ⟨member, kind⟩ := noted.identifiers name listed
    exact ⟨name, member, kind, text, span⟩
  · obtain ⟨name, listed, text, span⟩ := of_mem entry member
    rw [← span]
    exact noted.inside name listed
  · have apart : (names.reverse.map fun name => (name.text, name.span)).Pairwise
        fun earlier later => earlier.2.stop ≤ later.2.start := by
      rw [List.pairwise_map, List.pairwise_reverse]
      exact noted.apart
    rw [← same, List.pairwise_map] at apart
    exact apart

end Noted

end

end MuCompletion
