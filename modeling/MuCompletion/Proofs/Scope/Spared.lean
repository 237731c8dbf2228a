import MuCompletion.Proofs.Scope.Nesting
import MuCompletion.Scope.Reuse

/-! # Scopes that an edit spares

An update looks for the outermost closed scopes outside the bytes scanned again, each where it begins in
the new text. It looks for no others, and where it looks for them they are still apart.
-/

namespace MuCompletion

open ScopeTree

/-- Whether the scope is closed and lies wholly outside the bytes scanned again. -/
def ScopeEntry.Spared (changed : Span) (entry : ScopeEntry) : Prop :=
  entry.head.closed = true ∧ (entry.span.stop ≤ changed.start ∨ changed.stop ≤ entry.span.start)

/-- Where the scope begins after the edit: in front of the bytes scanned again it stays, and behind them
it moves by `delta`. -/
def ScopeEntry.movedStart (changed : Span) (delta : Int) (entry : ScopeEntry) : Nat :=
  if entry.span.stop ≤ changed.start then entry.span.start else shiftOffset delta entry.span.start

/-- A spared scope inside the tree, and no larger spared scope inside the tree holds it. -/
structure Outermost (changed : Span) (tree kept : ScopeTree) : Prop where
  inside : Inside tree kept
  spared : kept.entry.Spared changed
  maximal : ∀ around, Inside tree around → around.entry.Spared changed → Within around kept →
    around = kept

section

variable {changed : Span} {delta : Int} {tree kept : ScopeTree}

theorem outermost_iff (nesting : Nesting tree) :
    Outermost changed tree kept ↔ ∃ branch ∈ tree.branches,
      branch.entry.Spared changed ∧ kept = branch ∨
        ¬branch.entry.Spared changed ∧ Outermost changed branch kept := by
  constructor
  · intro outermost
    obtain ⟨branch, member, within⟩ := inside_iff.mp outermost.inside
    refine ⟨branch, member, ?_⟩
    by_cases spared : branch.entry.Spared changed
    · exact .inl ⟨spared, (outermost.maximal branch (.single member) spared within).symm⟩
    · right
      rcases within_iff.mp within with rfl | deeper
      · exact absurd outermost.spared spared
      · refine ⟨spared, deeper, outermost.spared, ?_⟩
        intro around inside
        exact outermost.maximal around (.head member inside)
  · rintro ⟨branch, member, ⟨spared, rfl⟩ | ⟨spared, outermost⟩⟩
    · refine ⟨.single member, spared, ?_⟩
      intro around inside _ within
      obtain ⟨other, member', within'⟩ := inside_iff.mp inside
      have same := nesting.branch_eq member member' .refl (within'.trans within)
      subst same
      rcases within_iff.mp within' with rfl | deeper
      · rfl
      · have later := nesting.start_lt (.single member) deeper
        have before := nesting.span_le inside within
        omega
    · refine ⟨.head member outermost.inside, outermost.spared, ?_⟩
      intro around inside spared' within
      obtain ⟨other, member', within'⟩ := inside_iff.mp inside
      have same := nesting.branch_eq member member' outermost.inside.to_reflTransGen
        (within'.trans within)
      subst same
      rcases within_iff.mp within' with rfl | deeper
      · exact absurd spared' spared
      · exact outermost.maximal around deeper spared' within

namespace ScopeTree

theorem reusable_of_spared (delta : Int) (spared : tree.entry.Spared changed) :
    reusable changed delta tree = [(tree.entry.movedStart changed delta, tree)] := by
  obtain ⟨closed, outside⟩ := spared
  cases tree with
  | node place branches =>
      simp only [entry] at closed outside ⊢
      by_cases before : place.span.stop ≤ changed.start
      · simp [reusable, ScopeEntry.movedStart, closed, before]
      · have after := outside.resolve_left before
        simp [reusable, ScopeEntry.movedStart, closed, before, after]

theorem reusable_of_not_spared (delta : Int) (scanned : ¬tree.entry.Spared changed) :
    reusable changed delta tree = reusableAll changed delta tree.branches := by
  cases tree with
  | node place branches =>
      simp only [ScopeEntry.Spared, entry, not_and_or, not_or] at scanned
      rcases scanned with unclosed | inside
      · simp [reusable, unclosed, ScopeTree.branches]
      · simp [reusable, inside, ScopeTree.branches]

/-- The entry is a spared tree or an outermost spared scope of one that is not, with its start after the
edit. -/
def Keeps (changed : Span) (delta : Int) (tree : ScopeTree) (entry : Nat × ScopeTree) : Prop :=
  ∃ kept, (tree.entry.Spared changed ∧ kept = tree ∨
      ¬tree.entry.Spared changed ∧ Outermost changed tree kept) ∧
    entry = (kept.entry.movedStart changed delta, kept)

theorem exists_keeps_iff (nesting : Nesting tree) {entry : Nat × ScopeTree} :
    (∃ branch ∈ tree.branches, Keeps changed delta branch entry) ↔
      ∃ kept, Outermost changed tree kept ∧ entry = (kept.entry.movedStart changed delta, kept) := by
  constructor
  · rintro ⟨branch, member, kept, outermost, placed⟩
    exact ⟨kept, (outermost_iff nesting).mpr ⟨branch, member, outermost⟩, placed⟩
  · rintro ⟨kept, outermost, placed⟩
    obtain ⟨branch, member, outermost⟩ := (outermost_iff nesting).mp outermost
    exact ⟨branch, member, kept, outermost, placed⟩

mutual

theorem mem_reusable (changed : Span) (delta : Int) :
    ∀ tree : ScopeTree, Nesting tree → ∀ entry,
      entry ∈ reusable changed delta tree ↔ Keeps changed delta tree entry
  | .node place branches, nesting, entry => by
    by_cases spared : (node place branches).entry.Spared changed
    · rw [reusable_of_spared delta spared, List.mem_singleton]
      simp [Keeps, spared]
    · have inside := mem_reusable_branches changed delta branches
        (fun branch member => nesting.of_branch member) entry
      rw [reusable_of_not_spared delta spared]
      simp only [Keeps, spared, false_and, false_or, not_false_eq_true, true_and]
      exact inside.trans (exists_keeps_iff nesting)

theorem mem_reusable_branches (changed : Span) (delta : Int) :
    ∀ branches : List ScopeTree, (∀ branch ∈ branches, Nesting branch) → ∀ entry,
      entry ∈ reusableAll changed delta branches ↔
        ∃ branch ∈ branches, Keeps changed delta branch entry
  | [], _, entry => by simp [reusableAll]
  | branch :: rest, nesting, entry => by
    have here := mem_reusable changed delta branch (nesting branch List.mem_cons_self) entry
    have later := mem_reusable_branches changed delta rest
      (fun other member => nesting other (List.mem_cons_of_mem _ member)) entry
    simp only [reusableAll, List.mem_append, here, later, List.exists_mem_cons_iff]

end

/-- An update looks for the outermost spared scopes, and for nothing else. -/
theorem mem_reusableAll (nesting : Nesting tree) {entry : Nat × ScopeTree} :
    entry ∈ reusableAll changed delta tree.branches ↔
      ∃ kept, Outermost changed tree kept ∧ entry = (kept.entry.movedStart changed delta, kept) :=
  (mem_reusable_branches changed delta tree.branches (fun _ member => nesting.of_branch member)
    entry).trans (exists_keeps_iff nesting)

end ScopeTree

theorem Outermost.mem_reusableAll (nesting : Nesting tree) (outermost : Outermost changed tree kept)
    (delta : Int) :
    (kept.entry.movedStart changed delta, kept) ∈ reusableAll changed delta tree.branches :=
  (ScopeTree.mem_reusableAll nesting).mpr ⟨kept, outermost, rfl⟩

/-- Outermost spared scopes are apart, and they are still apart where the edit moves them. -/
theorem Outermost.moved_apart {other : ScopeTree} (nesting : Nesting tree)
    (outermost : Outermost changed tree kept) (outermost' : Outermost changed tree other)
    (moves : (changed.start : Int) ≤ changed.stop + delta) :
    kept = other ∨
      kept.entry.movedStart changed delta + kept.scope.head.length ≤
        other.entry.movedStart changed delta ∨
      other.entry.movedStart changed delta + other.scope.head.length ≤
        kept.entry.movedStart changed delta := by
  have measured : kept.entry.span.stop = kept.entry.span.start + kept.scope.head.length :=
    nesting.measured kept outermost.inside.to_reflTransGen
  have measured' : other.entry.span.stop = other.entry.span.start + other.scope.head.length :=
    nesting.measured other outermost'.inside.to_reflTransGen
  have filled := nesting.filled kept outermost.inside
  have filled' := nesting.filled other outermost'.inside
  have outside := outermost.spared.2
  have outside' := outermost'.spared.2
  rcases nesting.nested_or_apart outermost.inside outermost'.inside with within | within | apart
  · exact .inl (outermost'.maximal kept outermost.inside outermost.spared within)
  · exact .inl (outermost.maximal other outermost'.inside outermost'.spared within).symm
  · right
    simp only [ScopeEntry.movedStart, shiftOffset]
    split <;> split <;> omega

end

end MuCompletion
