import MuCompletion.Proofs.Scope.Complete
import MuCompletion.Proofs.Scope.Rooted

/-! # Where scopes begin and end

Every scope inside the module begins where a token begins. If a brace closes it, it ends where that
token ends, and otherwise it ends with the text. No scope begins or ends within a word, so all cursors
of a word behind its start are in the same scopes.
-/

namespace MuCompletion

open ScopeBuilder

/-- Where a scope that begins at `start` may begin and end in a text of `length` bytes. -/
structure Edges (tokens : List Token) (length start : Nat) (head : Scope.Head) : Prop where
  begins : start = 0 ∨ ∃ token ∈ tokens, token.span.start = start
  closes : head.closed = true →
    ∃ token ∈ tokens, token.mark? = some "\x7d" ∧ token.span.stop = start + head.length
  ends : head.closed = false → start + head.length = length

/-- The scope at a start and all scopes inside it begin and end where they may. -/
def Edged (tokens : List Token) (length : Nat) (entry : Nat × Scope) : Prop :=
  ∀ tree, Placed entry.1 entry.2 tree → ∀ node, Within tree node →
    Edges tokens length node.entry.span.start node.entry.head

section

variable {tokens : List Token} {length stop : Nat} {builder : ScopeBuilder} {token : Token}

theorem Edged.node {start : Nat} {scope : Scope} (edges : Edges tokens length start scope.head)
    (inside : ∀ child ∈ scope.children, Edged tokens length (start + child.1, child.2)) :
    Edged tokens length (start, scope) := by
  intro tree placed node within
  rcases placed.cases_within within with rfl | ⟨child, complete, branch, placed, within⟩
  · rw [placed.span, placed.head]
    exact edges
  · exact inside child complete branch placed node within

theorem Edged.finish {frame : Frame} {closed : Bool} (after : frame.start ≤ stop)
    (begins : frame.start = 0 ∨ ∃ token ∈ tokens, token.span.start = frame.start)
    (closes : closed = true → ∃ token ∈ tokens, token.mark? = some "\x7d" ∧ token.span.stop = stop)
    (ends : closed = false → stop = length)
    (inside : ∀ entry ∈ frame.scopes, Edged tokens length entry) :
    Edged tokens length (frame.start, frame.finish stop closed) := by
  have whole : frame.start + (stop - frame.start) = stop := Nat.add_sub_cancel' after
  apply Edged.node
  · constructor
    · exact begins
    · intro closed
      obtain ⟨token, member, marked, stops⟩ := closes closed
      exact ⟨token, member, marked, stops.trans whole.symm⟩
    · intro closed
      exact whole.trans (ends closed)
  · intro child complete
    apply inside
    exact List.mem_map_of_mem (List.mem_reverse.mp complete)

/-- The builder has begun and completed scopes only where they may begin and end. -/
structure Bordered (tokens : List Token) (length : Nat) (builder : ScopeBuilder) : Prop where
  begins : ∀ start ∈ builder.starts, start = 0 ∨ ∃ token ∈ tokens, token.span.start = start
  inside : ∀ entry ∈ builder.scopes, Edged tokens length entry

namespace Bordered

theorem begins_frame (bordered : Bordered tokens length builder) :
    builder.frame.start = 0 ∨ ∃ token ∈ tokens, token.span.start = builder.frame.start :=
  bordered.begins _ (List.mem_append_right _ List.mem_cons_self)

theorem step {before : List Token} (bordered : Bordered tokens length builder)
    (grounded : Grounded before stop builder) (member : token ∈ tokens)
    (filled : stop < token.span.stop) :
    Bordered tokens length (builder.read token) where
  begins := by
    intro start begun
    rcases List.mem_cons.mp (starts_read.subset begun) with rfl | old
    · exact .inr ⟨token, member, rfl⟩
    · exact bordered.begins start old
  inside := by
    apply forall_scopes_read bordered.inside
    · intro around outermost
      obtain ⟨outer, open_⟩ := List.head?_eq_some_iff.mp outermost
      exact grounded.start_le open_
    · intro closing _
      have after : builder.frame.start ≤ token.span.stop :=
        Nat.le_trans grounded.start_le_stop (Nat.le_of_lt filled)
      apply Edged.finish after bordered.begins_frame
      · intro _
        exact ⟨token, member, closing, rfl⟩
      · intro unclosed
        cases unclosed
      · intro entry complete
        exact bordered.inside entry (List.mem_append_left _ complete)

theorem initial : Bordered tokens length .initial where
  begins := by simp [starts, ScopeBuilder.initial, Frame.opening]
  inside := by simp [scopes, Frame.scopes, ScopeBuilder.initial, Frame.opening]

theorem run (tiles : Tiles 0 tokens stop) :
    Bordered tokens length (tokens.foldl read .initial) := by
  have both : Grounded tokens stop (tokens.foldl read .initial) ∧
      Bordered tokens length (tokens.foldl read .initial) := by
    apply @foldl_read_of_step (fun before stop builder =>
      Grounded before stop builder ∧ Bordered tokens length builder) tokens stop tiles
    · exact ⟨.initial, initial⟩
    · rintro before token after start builder rfl here filled ⟨grounded, bordered⟩
      have member : token ∈ before ++ token :: after := by simp
      exact ⟨grounded.step here filled, bordered.step grounded member filled⟩
  exact both.2

end Bordered

theorem edges_ofTokens (tiles : Tiles 0 tokens stop) {branch node : ScopeTree}
    (member : branch ∈ (ScopeTree.ofTokens tokens).branches) (within : Within branch node) :
    Edges tokens stop node.entry.span.start node.entry.head := by
  have grounded := Grounded.run tiles
  have bordered : Bordered tokens stop (tokens.foldl read .initial) := Bordered.run tiles
  have last : lastStop tokens = stop := by
    by_cases empty : tokens = []
    · subst empty
      exact tiles
    · exact tiles.lastStop empty
  have unclosed : ∀ open_ : Frame, open_.start ∈ ((tokens.foldl read .initial).frame ::
      (tokens.foldl read .initial).outer).map (·.start) →
      (∀ entry ∈ open_.scopes, Edged tokens stop entry) →
        Edged tokens stop (open_.start, open_.finish stop false) := by
    intro open_ begun inside
    have started : open_.start ∈ (tokens.foldl read .initial).starts :=
      List.mem_append_right _ begun
    apply Edged.finish
    · exact (List.pairwise_cons.mp grounded.ordered).1 _ started
    · exact bordered.begins _ started
    · intro closed
      cases closed
    · intro _
      rfl
    · exact inside
  have inside := forall_scopes_finish grounded.frames_ordered bordered.inside unclosed
  obtain ⟨child, complete, placed⟩ := Placed.of_mem (Placed.ofTokens tokens).branches member
  have whole : Scope.ofTokens tokens = finish stop (tokens.foldl read .initial).frame
      (tokens.foldl read .initial).outer := by
    rw [Scope.ofTokens, run_nil_eq_foldl, last]
  have bottom : (((tokens.foldl read .initial).outer).getLastD
      (tokens.foldl read .initial).frame).start = 0 := grounded.bottom
  rw [whole] at complete
  have edged := inside child complete
  rw [bottom] at edged
  exact edged branch placed node within

/-! ## Cursors in a word -/

/-- A scope holds all cursors behind the start of a token that closes none, or no such cursor. -/
theorem Edges.contains_eq {entry : ScopeEntry} {first second : Nat} (tiles : Tiles 0 tokens length)
    (edges : Edges tokens length entry.span.start entry.head)
    (spans : entry.span.stop = entry.span.start + entry.head.length) (member : token ∈ tokens)
    (closesNone : token.mark? ≠ some "\x7d") (after : token.span.start < first)
    (ordered : first ≤ second) (within : second ≤ token.span.stop) :
    entry.contains second = entry.contains first := by
  have begins : entry.span.start < second ↔ entry.span.start < first := by
    rcases edges.begins with zero | ⟨other, member', here⟩
    · omega
    · have apart := tiles.apart member member'
      have filled := (tiles.of_mem member').2.1
      rcases apart with rfl | apart | apart <;> omega
  cases closed : entry.head.closed with
  | true =>
      obtain ⟨other, member', marked, here⟩ := edges.closes closed
      have ends : second < entry.span.stop ↔ first < entry.span.stop := by
        have filled := (tiles.of_mem member').2.1
        rcases tiles.apart member member' with rfl | apart | apart
        · exact absurd marked closesNone
        · omega
        · omega
      simp [ScopeEntry.contains, closed, begins, ends]
  | false =>
      have whole := edges.ends closed
      have inside := (tiles.of_mem member).2.2
      have ends : second ≤ entry.span.stop ∧ first ≤ entry.span.stop := by omega
      simp [ScopeEntry.contains, closed, begins, ends]

end

namespace ScopeTree

variable {first second : Nat}

mutual

theorem descend_eq :
    ∀ (tree : ScopeTree) (outer : List ScopeEntry),
    (∀ branch ∈ tree.branches, ∀ node, Within branch node →
      node.entry.contains second = node.entry.contains first) →
    descend second outer tree = descend first outer tree
  | .node entry branches, outer, same => by
    simp only [descend]
    exact descendAny_eq branches (entry :: outer) same

theorem descendAny_eq :
    ∀ (branches : List ScopeTree) (outer : List ScopeEntry),
    (∀ branch ∈ branches, ∀ node, Within branch node →
      node.entry.contains second = node.entry.contains first) →
    descendAny second outer branches = descendAny first outer branches
  | [], _, _ => rfl
  | branch :: rest, outer, same => by
    have here := same branch List.mem_cons_self
    simp only [descendAny, here branch .refl]
    split
    · apply descend_eq branch outer
      intro inner member node within
      exact here node (.head member within)
    · apply descendAny_eq rest outer
      intro later member
      exact same later (List.mem_cons_of_mem _ member)

end

theorem visible_ofTokens_eq {tokens : List Token} {stop : Nat} (tiles : Tiles 0 tokens stop)
    {token : Token} (member : token ∈ tokens) (closesNone : token.mark? ≠ some "\x7d")
    (after : token.span.start < first) (ordered : first ≤ second) (within : second ≤ token.span.stop) :
    (ofTokens tokens).visible second = (ofTokens tokens).visible first := by
  have chains : (ofTokens tokens).chain second = (ofTokens tokens).chain first := by
    apply descend_eq
    intro branch member' node inside
    have edges := edges_ofTokens tiles member' inside
    obtain ⟨start, scope, placed⟩ := (Placed.ofTokens tokens).within (.head member' inside)
    have spans : node.entry.span.stop = node.entry.span.start + node.entry.head.length := by
      rw [placed.span, placed.head]
    exact edges.contains_eq tiles spans member closesNone after ordered within
  simp only [visible, chains]

end ScopeTree

end MuCompletion
