import MuCompletion.Language.Keyword

/-!
# Scopes

A `Scope` is a region of a source text with the names declared in it and the scopes inside it. All
its offsets are relative to its own start, so a scope says nothing about where it stands: the same
scope may appear at several places, and in several versions of a text.
-/

namespace MuCompletion

/-- What a region of a source text is. -/
inductive ScopeKind where
  | «module»
  | «namespace»
  | «class»
  | function
  /-- Braces without a declaration. -/
  | block
  deriving DecidableEq, Repr

/-- The name of the kind in an outline. -/
def ScopeKind.name : ScopeKind → String
  | «module» => "module"
  | «namespace» => "namespace"
  | «class» => "class"
  | function => "function"
  | block => "block"

/-- What a name stands for. -/
inductive SymbolKind where
  | keyword | «type» | «variable» | function | «namespace»
  deriving DecidableEq, Repr

/-- The name of the kind, as outlines and completions show it. -/
def SymbolKind.name : SymbolKind → String
  | keyword => "keyword"
  | «type» => "type"
  | «variable» => "variable"
  | function => "function"
  | «namespace» => "namespace"

/-- The scope and the symbol that a declaration makes; nothing if it cannot own a scope. -/
def DeclarationKind.owns : DeclarationKind → Option (ScopeKind × SymbolKind)
  | «namespace» => some (.«namespace», .«namespace»)
  | «type» => some (.«class», .«type»)
  | function => some (.function, .function)
  | «variable» | «import» => none

/-- A name declared in a scope. -/
structure Symbol where
  name : String
  kind : SymbolKind
  /-- Where the name stands, from the start of the scope. -/
  offset : Nat
  length : Nat
  documentation : Option String
  deriving DecidableEq, Repr

/-- The name that a scope's declaration introduces into the scope around it. -/
structure Declared where
  name : String
  kind : SymbolKind
  /-- Where the name stands, from the start of the scope. -/
  offset : Nat
  length : Nat
  deriving DecidableEq, Repr

/-- All of a scope but the scopes inside it. -/
structure Scope.Head where
  kind : ScopeKind
  name : Option String
  length : Nat
  /-- Whether a closing brace ends the region, rather than the end of the text. -/
  closed : Bool
  /-- The names declared in the scope, in order. -/
  symbols : List Symbol
  declared : Option Declared
  deriving DecidableEq, Repr

/-- A region of a source text, with the scopes inside it in order; each stands at an offset from the
start of the region. -/
inductive Scope where
  | node (head : Scope.Head) (children : List (Nat × Scope))

namespace Scope

/-- All of the scope but the scopes inside it. -/
def head : Scope → Head
  | node head _ => head

/-- The scopes inside the scope, with their offsets. -/
def children : Scope → List (Nat × Scope)
  | node _ children => children

mutual

def same : Scope → Scope → Bool
  | node head children, node head' children' => head == head' && sameAll children children'

def sameAll : List (Nat × Scope) → List (Nat × Scope) → Bool
  | [], [] => true
  | (offset, scope) :: rest, (offset', scope') :: rest' =>
    offset == offset' && same scope scope' && sameAll rest rest'
  | _, _ => false

end

mutual

theorem same_iff : ∀ s t : Scope, s.same t = true ↔ s = t
  | node head children, node head' children' => by
    simp [same, sameAll_iff children children']

theorem sameAll_iff : ∀ ss ts : List (Nat × Scope), sameAll ss ts = true ↔ ss = ts
  | [], [] => by simp [sameAll]
  | [], _ :: _ => by simp [sameAll]
  | _ :: _, [] => by simp [sameAll]
  | (offset, scope) :: rest, (offset', scope') :: rest' => by
    simp [sameAll, same_iff scope scope', sameAll_iff rest rest', and_assoc]

end

instance : DecidableEq Scope := fun s t =>
  decidable_of_iff (s.same t = true) (same_iff s t)

end Scope

end MuCompletion
