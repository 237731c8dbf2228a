import Mathlib.Order.Bounds.Basic
import MuCompletion.Document.Region
import MuCompletion.Proofs.Scope.Edges
import MuCompletion.Proofs.Text.Lines
import MuCompletion.Proofs.Token.Shape

/-! # The region of an edit

The region that an edit asks to be read again holds the edit and begins and ends on character
boundaries. A paragraph goes up to the nearest blank line or edge of a top-level scope on either side.
-/

namespace MuCompletion

open Text

/-! ## Lines around an offset -/

/-- A line begins at the offset, and the line before it is blank. -/
def FollowsBlank (cs : List Char) (offset : Nat) : Prop :=
  ∃ line next, IsLine cs line ∧ line.blank = true ∧ IsLine cs next ∧ line.Before next ∧
    next.start = offset

/-- A blank line begins at the offset. -/
def BeginsBlank (cs : List Char) (offset : Nat) : Prop :=
  ∃ line, IsLine cs line ∧ line.blank = true ∧ line.start = offset

/-- A scope directly inside the module begins or ends at the offset. -/
def ScopeTree.HasEdge (tree : ScopeTree) (offset : Nat) : Prop :=
  ∃ branch ∈ tree.branches, branch.entry.span.start = offset ∨ branch.entry.span.stop = offset

namespace Region

section

variable {lines rest : List Line} {line : Line} {offset first stop : Nat}

theorem isGreatest_startAfterBlank (chain : lines.IsChain Line.Before)
    (before : ∀ line ∈ lines.head?, first ≤ line.start) :
    IsGreatest ({first} ∪ {start | start ≤ offset ∧ ∃ line ∈ lines, ∃ next ∈ lines,
      line.blank = true ∧ line.Before next ∧ next.start = start})
      (startAfterBlank offset first lines) := by
  fun_induction startAfterBlank offset first lines with
  | case1 first line next rest within ih =>
      obtain ⟨follows, chain'⟩ := List.isChain_cons_cons.mp chain
      have later := stop_lt_of_isChain chain
      have ordered := line.start_le_stop
      have first_le : first ≤ line.start := before line rfl
      -- The answer so far only grows, since the next line begins behind this one.
      have wider : first ≤ if line.blank then next.start else first := by
        have := later next List.mem_cons_self
        split <;> omega
      obtain ⟨attained, bound⟩ := ih chain' (by
        have := later next List.mem_cons_self
        intro head is
        obtain rfl : next = head := by simpa using is
        split <;> omega)
      constructor
      · rcases attained with here | ⟨earlier, other, member, other', member', found⟩
        · rw [here]
          split
          · next blank =>
              exact .inr ⟨within, line, by simp, next, by simp, blank, follows, rfl⟩
          · exact .inl rfl
        · exact .inr ⟨earlier, other, by simp [member], other', by simp [member'], found⟩
      · rintro start (rfl | ⟨earlier, other, member, other', member', blank, behind, rfl⟩)
        · exact Nat.le_trans wider (bound (.inl rfl))
        · rcases List.mem_cons.mp member with rfl | inner
          · have here : other'.start = next.start := behind.trans follows.symm
            rw [here]
            exact bound (.inl (by simp [blank]))
          · rcases List.mem_cons.mp member' with rfl | inner'
            · exact absurd behind (not_before_first chain member)
            · exact bound (.inr ⟨earlier, other, inner, other', inner', blank, behind, rfl⟩)
  | case2 first line next rest beyond =>
      refine ⟨.inl rfl, ?_⟩
      rintro start (rfl | ⟨earlier, other, member, other', member', blank, behind, rfl⟩)
      · exact Nat.le_refl _
      · rcases List.mem_cons.mp member' with rfl | inner'
        · exact absurd behind (not_before_first chain member)
        · rcases List.mem_cons.mp inner' with rfl | later
          · exact absurd earlier beyond
          · have after := stop_lt_of_isChain (List.isChain_cons_cons.mp chain).2 other' later
            have ends := next.start_le_stop
            omega
  | case3 lines first short =>
      refine ⟨.inl rfl, ?_⟩
      rintro start (rfl | ⟨earlier, other, member, other', member', blank, behind, rfl⟩)
      · exact Nat.le_refl _
      · cases lines with
        | nil => cases member
        | cons line rest =>
            cases rest with
            | nil =>
                obtain rfl := List.mem_singleton.mp member'
                exact absurd behind (not_before_first chain member)
            | cons next rest => exact (short line next rest rfl).elim

theorem isLeast_startOfBlank (chain : lines.IsChain Line.Before) (stop : Nat)
    (inside : ∀ line ∈ lines, line.start ≤ stop) :
    IsLeast ({stop} ∪ {start | offset < start ∧ ∃ line ∈ lines, line.blank = true ∧ line.start = start})
      (startOfBlank offset stop lines) := by
  unfold startOfBlank
  cases found : lines.find? fun line => offset < line.start && line.blank with
  | none =>
      have none := List.find?_eq_none.mp found
      refine ⟨.inl rfl, ?_⟩
      rintro start (rfl | ⟨behind, line, member, blank, rfl⟩)
      · exact Nat.le_refl _
      · exact absurd (by simp [behind, blank]) (none line member)
  | some line =>
      obtain ⟨holds, front, back, rfl, none⟩ := List.find?_eq_some_iff_append.mp found
      obtain ⟨behind, blank⟩ : offset < line.start ∧ line.blank = true := by simpa using holds
      refine ⟨.inr ⟨behind, line, by simp, blank, rfl⟩, ?_⟩
      rintro start (rfl | ⟨behind', other, member, blank', rfl⟩)
      · exact inside line (by simp)
      · rcases List.mem_append.mp member with earlier | later
        · simpa [behind', blank'] using none other earlier
        · rcases List.mem_cons.mp later with rfl | later
          · exact Nat.le_refl _
          · have after := stop_lt_of_isChain (chain.right_of_append) other later
            exact Nat.le_of_lt (Nat.lt_of_le_of_lt line.start_le_stop after)

theorem lineAt_spec (chain : lines.IsChain Line.Before) (begins : ∀ line ∈ lines.head?, line.start ≤ offset)
    (ends : ∀ line ∈ lines.getLast?, offset ≤ line.stop) (some : lines ≠ []) :
    lineAt offset lines ∈ lines ∧ (lineAt offset lines).start ≤ offset ∧
      offset ≤ (lineAt offset lines).stop := by
  fun_induction lineAt offset lines with
  | case1 => exact absurd rfl some
  | case2 line => exact ⟨List.mem_singleton_self _, begins line rfl, ends line rfl⟩
  | case3 line rest long within => exact ⟨List.mem_cons_self, begins line rfl, within⟩
  | case4 line rest long beyond ih =>
      cases rest with
      | nil => exact absurd rfl long
      | cons next rest =>
          obtain ⟨follows, chain⟩ := List.isChain_cons_cons.mp chain
          have begins' : ∀ head ∈ (next :: rest).head?, head.start ≤ offset := by
            intro head is
            obtain rfl : next = head := by simpa using is
            rw [follows]
            omega
          have last : (line :: next :: rest).getLast? = (next :: rest).getLast? := by simp
          obtain ⟨member, holds⟩ := ih chain begins' (last ▸ ends) (List.cons_ne_nil _ _)
          exact ⟨List.mem_cons_of_mem _ member, holds⟩

end

/-! ## Edges of scopes -/

theorem isGreatest_foldl_clip {places : Set Nat} {span : Span} (greatest : IsGreatest places span.start)
    (start stop : Nat) (boundaries : List Nat) :
    IsGreatest (places ∪ {edge | edge ≤ start ∧ edge ∈ boundaries})
      (boundaries.foldl (clip start stop) span).start := by
  induction boundaries generalizing places span with
  | nil => simpa using greatest
  | cons boundary rest ih =>
      have clipped : IsGreatest (places ∪ {edge | edge ≤ start ∧ edge = boundary})
          (clip start stop span boundary).start := by
        simp only [clip]
        split
        · next within =>
            have same : places ∪ {edge | edge ≤ start ∧ edge = boundary} = insert boundary places := by
              ext edge
              grind
            rw [same, max_comm]
            exact greatest.insert boundary
        · next beyond =>
            have same : places ∪ {edge | edge ≤ start ∧ edge = boundary} = places := by
              ext edge
              grind
            rwa [same]
      have same : places ∪ {edge | edge ≤ start ∧ edge ∈ boundary :: rest} =
          places ∪ {edge | edge ≤ start ∧ edge = boundary} ∪ {edge | edge ≤ start ∧ edge ∈ rest} := by
        simp only [List.mem_cons, and_or_left, Set.ofPred_or, Set.union_assoc]
      rw [same]
      exact ih clipped

theorem isLeast_foldl_clip {places : Set Nat} {span : Span} (least : IsLeast places span.stop)
    (start stop : Nat) (boundaries : List Nat) :
    IsLeast (places ∪ {edge | stop ≤ edge ∧ edge ∈ boundaries})
      (boundaries.foldl (clip start stop) span).stop := by
  induction boundaries generalizing places span with
  | nil => simpa using least
  | cons boundary rest ih =>
      have clipped : IsLeast (places ∪ {edge | stop ≤ edge ∧ edge = boundary})
          (clip start stop span boundary).stop := by
        simp only [clip]
        split
        · next within =>
            have same : places ∪ {edge | stop ≤ edge ∧ edge = boundary} = insert boundary places := by
              ext edge
              grind
            rw [same, min_comm]
            exact least.insert boundary
        · next beyond =>
            have same : places ∪ {edge | stop ≤ edge ∧ edge = boundary} = places := by
              ext edge
              grind
            rwa [same]
      have same : places ∪ {edge | stop ≤ edge ∧ edge ∈ boundary :: rest} =
          places ∪ {edge | stop ≤ edge ∧ edge = boundary} ∪ {edge | stop ≤ edge ∧ edge ∈ rest} := by
        simp only [List.mem_cons, and_or_left, Set.ofPred_or, Set.union_assoc]
      rw [same]
      exact ih clipped

end Region

/-! ## Regions -/

/-- The line holds the offset; the newline behind a line counts to it. -/
structure HoldsOffset (cs : List Char) (line : Line) (offset : Nat) : Prop where
  stands : IsLine cs line
  begins : line.start ≤ offset
  ends : offset ≤ line.stop

/-- The span holds the edit, and lies in the text on character boundaries. -/
structure Span.Around (span : Span) (text : String) (edit : Edit) : Prop where
  begins : isBoundary span.start text.toList = true
  ends : isBoundary span.stop text.toList = true
  before : span.start ≤ edit.start
  behind : edit.stop ≤ span.stop
  inside : span.stop ≤ byteLength text.toList

/-- The span goes back from the first line of the edit to the nearest line that follows a blank one, and
on from its last line to the nearest blank one, unless a top-level scope begins or ends between. -/
def Span.IsParagraph (span : Span) (text : String) (tree : ScopeTree) (edit : Edit) : Prop :=
  ∃ first last, HoldsOffset text.toList first edit.start ∧ HoldsOffset text.toList last edit.stop ∧
    IsGreatest ({0} ∪ {start | start ≤ first.start ∧ FollowsBlank text.toList start} ∪
      {edge | edge ≤ edit.start ∧ tree.HasEdge edge}) span.start ∧
    IsLeast ({byteLength text.toList} ∪ {start | last.stop < start ∧ BeginsBlank text.toList start} ∪
      {edge | edit.stop ≤ edge ∧ tree.HasEdge edge}) span.stop

namespace Region

variable {cs : List Char} {text : String} {edit : Edit} {offset : Nat} {line other : Line}
  {tree : ScopeTree}

theorem holdsOffset_lineAt (inside : offset ≤ byteLength cs) :
    HoldsOffset cs (lineAt offset (linesOf cs)) offset := by
  obtain ⟨chars, rest, lines⟩ := exists_linesOf_eq_cons cs
  obtain ⟨member, begins, ends⟩ := @lineAt_spec (linesOf cs) offset (isChain_placeLines 0 _)
    (by simp [lines]) (fun line last => by rwa [stop_getLast?_linesOf last]) (by simp [lines])
  exact ⟨mem_linesOf_iff.mp member, begins, ends⟩

theorem start_le_iff (holds : HoldsOffset cs line offset) (stands : IsLine cs other) :
    other.start ≤ offset ↔ other.start ≤ line.start := by
  have begins := holds.begins
  have ends := holds.ends
  have ordered := other.start_le_stop
  rcases holds.stands.apart stands with rfl | before | behind <;> omega

theorem lt_start_iff (holds : HoldsOffset cs line offset) (stands : IsLine cs other) :
    offset < other.start ↔ line.stop < other.start := by
  have begins := holds.begins
  have ends := holds.ends
  have ordered := other.start_le_stop
  rcases holds.stands.apart stands with rfl | before | behind <;> omega

theorem hasEdge_iff : tree.HasEdge offset ↔ offset ∈ tree.branches.flatMap fun branch =>
    [branch.entry.span.start, branch.entry.span.stop] := by
  simp [ScopeTree.HasEdge, eq_comm]

theorem le_byteLength_of_fits (fits : edit.fits text = true) :
    edit.start ≤ byteLength text.toList ∧ edit.stop ≤ byteLength text.toList := by
  simp only [Edit.fits, Bool.and_eq_true] at fits
  exact ⟨le_byteLength_of_isBoundary fits.1.2, le_byteLength_of_isBoundary fits.2⟩

theorem isParagraph_paragraphSpan (fits : edit.fits text = true) (tree : ScopeTree) :
    (paragraphSpan text tree edit).IsParagraph text tree edit := by
  obtain ⟨begins, ends⟩ := le_byteLength_of_fits fits
  have first := holdsOffset_lineAt begins
  have last := holdsOffset_lineAt ends
  have chain := isChain_placeLines 0 (splitLines text.toList)
  refine ⟨_, _, first, last, ?_, ?_⟩
  · have lines : {start | start ≤ edit.start ∧ ∃ line ∈ linesOf text.toList,
        ∃ next ∈ linesOf text.toList, line.blank = true ∧ line.Before next ∧ next.start = start} =
        {start | start ≤ (lineAt edit.start (linesOf text.toList)).start ∧
          FollowsBlank text.toList start} := by
      ext start
      constructor
      · rintro ⟨within, line, member, next, member', blank, before, rfl⟩
        have stands := mem_linesOf_iff.mp member'
        exact ⟨(start_le_iff first stands).mp within, line, next, mem_linesOf_iff.mp member, blank,
          stands, before, rfl⟩
      · rintro ⟨within, line, next, stands, blank, stands', before, rfl⟩
        exact ⟨(start_le_iff first stands').mpr within, line, stands.mem_linesOf, next,
          stands'.mem_linesOf, blank, before, rfl⟩
    simp only [← lines, hasEdge_iff]
    exact isGreatest_foldl_clip (isGreatest_startAfterBlank chain (by simp)) _ _ _
  · have lines : {start | edit.stop < start ∧ ∃ line ∈ linesOf text.toList,
        line.blank = true ∧ line.start = start} =
        {start | (lineAt edit.stop (linesOf text.toList)).stop < start ∧
          BeginsBlank text.toList start} := by
      ext start
      constructor
      · rintro ⟨within, line, member, blank, rfl⟩
        have stands := mem_linesOf_iff.mp member
        exact ⟨(lt_start_iff last stands).mp within, line, stands, blank, rfl⟩
      · rintro ⟨within, line, stands, blank, rfl⟩
        exact ⟨(lt_start_iff last stands).mpr within, line, stands.mem_linesOf, blank, rfl⟩
    have inside : ∀ line ∈ linesOf text.toList, line.start ≤ byteLength text.toList :=
      fun line member => le_byteLength_of_isBoundary (mem_linesOf_iff.mp member).isBoundary.1
    simp only [← lines, hasEdge_iff]
    exact isLeast_foldl_clip (isLeast_startOfBlank chain _ inside) _ _ _

theorem isBoundary_of_hasEdge (edge : (ScopeTree.ofTokens (lex text)).HasEdge offset) :
    isBoundary offset text.toList = true := by
  obtain ⟨branch, member, edge⟩ := edge
  have edges := edges_ofTokens (lex_tiles text) member .refl
  obtain ⟨start, scope, placed⟩ := (Placed.ofTokens (lex text)).within (.single member)
  have spans : branch.entry.span.stop = branch.entry.span.start + branch.entry.head.length := by
    rw [placed.span, placed.head]
  rcases edge with rfl | rfl
  · rcases edges.begins with zero | ⟨token, listed, here⟩
    · rw [zero]
      exact isBoundary_zero _
    · rw [← here]
      exact (isBoundary_of_mem_lex listed).1
  · rw [spans]
    cases closed : branch.entry.head.closed with
    | true =>
        obtain ⟨token, listed, -, here⟩ := edges.closes closed
        rw [← here]
        exact (isBoundary_of_mem_lex listed).2
    | false =>
        rw [edges.ends closed]
        exact isBoundary_byteLength _

theorem around_of_isParagraph {span : Span} (fits : edit.fits text = true)
    (paragraph : span.IsParagraph text (.ofTokens (lex text)) edit) : span.Around text edit := by
  obtain ⟨first, last, holds, holds', ⟨start, -⟩, ⟨stop, -⟩⟩ := paragraph
  have begins : isBoundary span.start text.toList = true ∧ span.start ≤ edit.start := by
    rcases start with (zero | ⟨within, line, next, -, -, stands, -, here⟩) | ⟨within, edge⟩
    · rw [show span.start = 0 from zero]
      exact ⟨isBoundary_zero _, Nat.zero_le _⟩
    · exact ⟨here ▸ stands.isBoundary.1, Nat.le_trans within holds.begins⟩
    · exact ⟨isBoundary_of_hasEdge edge, within⟩
  have ends : isBoundary span.stop text.toList = true ∧ edit.stop ≤ span.stop := by
    rcases stop with (whole | ⟨behind, line, stands, -, here⟩) | ⟨behind, edge⟩
    · rw [show span.stop = byteLength text.toList from whole]
      exact ⟨isBoundary_byteLength _, (le_byteLength_of_fits fits).2⟩
    · exact ⟨here ▸ stands.isBoundary.1, Nat.le_trans holds'.ends (Nat.le_of_lt behind)⟩
    · exact ⟨isBoundary_of_hasEdge edge, behind⟩
  exact ⟨begins.1, ends.1, begins.2, ends.2, le_byteLength_of_isBoundary ends.1⟩

theorem around_lineSpan (fits : edit.fits text = true) :
    (lineSpan (linesOf text.toList) edit).Around text edit := by
  obtain ⟨begins, ends⟩ := le_byteLength_of_fits fits
  have first := holdsOffset_lineAt begins
  have last := holdsOffset_lineAt ends
  exact ⟨first.stands.isBoundary.1, last.stands.isBoundary.2, first.begins, last.ends,
    le_byteLength_of_isBoundary last.stands.isBoundary.2⟩

theorem around_whole (fits : edit.fits text = true) : (whole text).span.Around text edit :=
  ⟨isBoundary_zero _, isBoundary_byteLength _, Nat.zero_le _, (le_byteLength_of_fits fits).2,
    Nat.le_refl _⟩

/-- The region of an edit holds the edit, and a paragraph goes up to the nearest blank line or edge of a
top-level scope on either side. -/
theorem around_ofEdit (incremental : Bool) (text : String) (edit : Edit) (fits : edit.fits text = true) :
    (ofEdit incremental text (some (.ofTokens (lex text))) edit).span.Around text edit ∧
      ((ofEdit incremental text (some (.ofTokens (lex text))) edit).kind = .paragraph →
        (ofEdit incremental text (some (.ofTokens (lex text))) edit).span.IsParagraph text
          (.ofTokens (lex text)) edit) := by
  have paragraph := isParagraph_paragraphSpan fits (.ofTokens (lex text))
  simp only [ofEdit]
  split
  · exact ⟨around_whole fits, fun is => by simp [whole] at is⟩
  · split
    · exact ⟨around_of_isParagraph fits paragraph, fun _ => paragraph⟩
    · exact ⟨around_lineSpan fits, fun is => by cases is⟩

/-- A newline behind a class asks for the lines from the end of the class on. -/
theorem around_ofEdit_class :
    (⟨22, 44⟩ : Span).IsParagraph "class A \x7b let x = 1; \x7d\nlet y = 2;\nlet z = 3;"
      (.ofTokens (lex "class A \x7b let x = 1; \x7d\nlet y = 2;\nlet z = 3;")) ⟨23, 23, "\n"⟩ := by
  have region : ofEdit true "class A \x7b let x = 1; \x7d\nlet y = 2;\nlet z = 3;"
      (some (.ofTokens (lex "class A \x7b let x = 1; \x7d\nlet y = 2;\nlet z = 3;"))) ⟨23, 23, "\n"⟩ =
      ⟨.paragraph, ⟨22, 44⟩⟩ := by decide +kernel
  have spec := around_ofEdit true "class A \x7b let x = 1; \x7d\nlet y = 2;\nlet z = 3;" ⟨23, 23, "\n"⟩
    (by decide +kernel)
  rw [region] at spec
  exact spec.2 rfl

end Region

end MuCompletion
