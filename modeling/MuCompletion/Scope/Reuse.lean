import MuCompletion.Scope.Builder

/-!
# Scopes of an earlier version

After an edit, a closed scope of the earlier version that lies outside the bytes scanned again is put
in place of its tokens, where the new text has nothing waiting at its start. The rest is built from
the tokens. What is put in place keeps its contents, so the new tree shares it with the old one.
-/

namespace MuCompletion

namespace ScopeTree

mutual

/-- The outermost closed scopes of a tree that lie wholly outside `changed`, with their starts in the
new text: a scope before `changed` stays, one after it moves by `delta`. -/
def reusable (changed : Span) (delta : Int) : ScopeTree → List (Nat × ScopeTree)
  | node entry branches =>
    if entry.head.closed && entry.span.stop ≤ changed.start then
      [(entry.span.start, node entry branches)]
    else if entry.head.closed && changed.stop ≤ entry.span.start then
      [(shiftOffset delta entry.span.start, node entry branches)]
    else reusableAll changed delta branches

/-- The same for several trees, in document order. -/
def reusableAll (changed : Span) (delta : Int) : List ScopeTree → List (Nat × ScopeTree)
  | [] => []
  | branch :: rest => reusable changed delta branch ++ reusableAll changed delta rest

end

mutual

/-- The numbers of the scopes of two trees of one shape, paired. -/
def pairIds : ScopeTree → ScopeTree → List (Nat × Nat)
  | node new branches, node old branches' => (new.id, old.id) :: pairIdsAll branches branches'

def pairIdsAll : List ScopeTree → List ScopeTree → List (Nat × Nat)
  | branch :: rest, branch' :: rest' => pairIds branch branch' ++ pairIdsAll rest rest'
  | _, _ => []

end

mutual

/-- The numbers, new and old, of all scopes inside a tree that came from an earlier version, when
`reattached` lists what was put in place at which start. -/
def sharedWith (reattached : List (Nat × ScopeTree)) : ScopeTree → List (Nat × Nat)
  | node _ branches => sharedWithAll reattached branches

/-- The same for several trees, their outermost scopes included. -/
def sharedWithAll (reattached : List (Nat × ScopeTree)) : List ScopeTree → List (Nat × Nat)
  | [] => []
  | branch :: rest =>
    (match reattached.lookup branch.entry.span.start with
      | some old => pairIds branch old
      | none => sharedWith reattached branch) ++ sharedWithAll reattached rest

end

end ScopeTree

/-- A scope tree brought up to date with an edit. -/
structure ScopeUpdate where
  tree : ScopeTree
  /-- The scopes that the new tree shares with the old one: the new number and the old one, by
  ascending new number. -/
  shared : List (Nat × Nat)

namespace ScopeTree

/-- Build the tree of new tokens, using scopes of the old tree outside `changed`, a range of the old
text; what follows it has moved by `delta`. -/
def update (old : ScopeTree) (tokens : List Token) (changed : Span) (delta : Int) : ScopeUpdate :=
  let built := ScopeBuilder.initial.run (reusableAll changed delta old.branches) tokens
  let tree := ofScope (ScopeBuilder.finish (lastStop tokens) built.frame built.outer)
  ⟨tree, (tree.sharedWith built.reattached).mergeSort fun first second => first.1 ≤ second.1⟩

end ScopeTree

end MuCompletion
