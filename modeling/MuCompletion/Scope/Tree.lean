import MuCompletion.Scope.Basic
import MuCompletion.Text.Span

/-!
# Scopes at their places

A `ScopeTree` is a scope with every scope inside it placed and numbered. The module scope has number
zero. Scopes inside one scope have consecutive numbers in document order, and the inside of a later
scope is numbered before the inside of an earlier one. The tree answers which scopes hold an offset
and which names can be seen from there.
-/

namespace MuCompletion

/-- A scope at its place in a source text. -/
structure ScopeEntry where
  id : Nat
  /-- The number of the scope around it; the module scope has none. -/
  parent : Option Nat
  depth : Nat
  span : Span
  scope : Scope
  /-- The numbers of the scopes directly inside it, in document order. -/
  children : List Nat

namespace ScopeEntry

/-- All of the scope but the scopes inside it. -/
def head (entry : ScopeEntry) : Scope.Head :=
  entry.scope.head

/-- The symbols of the scope with the bytes of their names. -/
def symbols (entry : ScopeEntry) : List (Symbol × Span) :=
  entry.head.symbols.map fun symbol =>
    let start := entry.span.start + symbol.offset
    (symbol, ⟨start, start + symbol.length⟩)

/-- Whether the scope holds an offset. A closed scope holds what lies between its first and its last
byte; one that runs to the end of the text holds the end too. -/
def contains (offset : Nat) (entry : ScopeEntry) : Bool :=
  entry.span.start < offset &&
    (if entry.head.closed then offset < entry.span.stop else offset ≤ entry.span.stop)

end ScopeEntry

/-- Placed scopes in the shape of the scopes themselves. -/
inductive ScopeTree where
  | node (entry : ScopeEntry) (branches : List ScopeTree)

/-- A symbol seen from some offset. -/
structure VisibleSymbol where
  symbol : Symbol
  /-- The number of the scope that declares it. -/
  origin : Nat
  span : Span
  /-- The number of scopes between the offset and the declaration; zero for the innermost. -/
  distance : Nat
  deriving DecidableEq, Repr

namespace ScopeTree

/-- The outermost scope of the tree. -/
def entry : ScopeTree → ScopeEntry
  | node entry _ => entry

/-- The trees of the scopes directly inside. -/
def branches : ScopeTree → List ScopeTree
  | node _ branches => branches

def scope (tree : ScopeTree) : Scope :=
  tree.entry.scope

mutual

/-- Place a scope at `start` under the number `id`. The scopes inside it get the numbers from `next`
on; the answer has the first number that is still free. -/
def place (id : Nat) (parent : Option Nat) (depth start next : Nat) : Scope → ScopeTree × Nat
  | .node head children =>
    let (branches, free) := placeAll id (depth + 1) start next (next + children.length) children
    let entry := ⟨id, parent, depth, ⟨start, start + head.length⟩, .node head children,
      List.range' next children.length⟩
    (node entry branches, free)

/-- Place the scopes inside the scope `parent`, which begins at `start`, under the numbers from
`first` on; the scopes inside them get the numbers from `next` on, the last one's first. -/
def placeAll (parent depth start first next : Nat) : List (Nat × Scope) → List ScopeTree × Nat
  | [] => ([], next)
  | (offset, scope) :: rest =>
    let (later, next) := placeAll parent depth start (first + 1) next rest
    let (branch, free) := place first (some parent) depth (start + offset) next scope
    (branch :: later, free)

end

/-- The tree of a module scope. -/
def ofScope (scope : Scope) : ScopeTree :=
  (place 0 none 0 0 1 scope).1

mutual

/-- The scopes inside, by ascending number. -/
def inner : ScopeTree → List ScopeEntry
  | node _ branches => branches.map entry ++ innerAll branches

def innerAll : List ScopeTree → List ScopeEntry
  | [] => []
  | branch :: rest => innerAll rest ++ inner branch

end

/-- All scopes, by ascending number. -/
def entries (tree : ScopeTree) : List ScopeEntry :=
  tree.entry :: tree.inner

mutual

/-- The scopes that hold an offset within a tree whose outermost scope holds it, innermost first and
before the scopes `outer`. -/
def descend (offset : Nat) (outer : List ScopeEntry) : ScopeTree → List ScopeEntry
  | node entry branches => descendAny offset (entry :: outer) branches

/-- The same for the first of several trees that holds the offset, or `outer` if none does. -/
def descendAny (offset : Nat) (outer : List ScopeEntry) : List ScopeTree → List ScopeEntry
  | [] => outer
  | branch :: rest =>
    if branch.entry.contains offset then descend offset outer branch
    else descendAny offset outer rest

end

/-- The scopes that hold an offset, innermost first; the module scope comes last and always. -/
def chain (offset : Nat) (tree : ScopeTree) : List ScopeEntry :=
  tree.descend offset []

/-- The innermost scope that holds an offset. -/
def innermost (offset : Nat) (tree : ScopeTree) : ScopeEntry :=
  (tree.chain offset).head?.getD tree.entry

/-- The symbols of the scopes that hold an offset, innermost scope first. A name that an inner scope
hides is listed too. -/
def visible (offset : Nat) (tree : ScopeTree) : List VisibleSymbol :=
  (tree.chain offset).zipIdx.flatMap fun (entry, distance) =>
    entry.symbols.map fun (symbol, span) => ⟨symbol, entry.id, span, distance⟩

end ScopeTree

end MuCompletion
