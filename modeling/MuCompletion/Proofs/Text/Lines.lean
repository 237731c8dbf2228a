import Mathlib.Data.List.Chain
import MuCompletion.Proofs.Text.Split
import MuCompletion.Text.Line

/-! # Where lines stand

A line of a text goes from the start of the text or a newline to the next newline or the end. Lines follow
each other with one newline between them, from the start of the text to its end.
-/

namespace MuCompletion

namespace Text

/-- The line stands in the text, from its start or a newline on up to a newline or its end. -/
structure IsLine (cs : List Char) (line : Line) : Prop where
  whole : '\n' ∉ line.chars
  placed : ∃ front back, cs = front ++ line.chars ++ back ∧ byteLength front = line.start ∧
    (∀ c ∈ front.getLast?, c = '\n') ∧ ∀ c ∈ back.head?, c = '\n'

/-- One newline stands between a line and the next. -/
def Line.Before (line next : Line) : Prop :=
  next.start = line.stop + 1

section

variable {cs front back : List Char} {line : Line} {start : Nat}

theorem splitLines_plain (plain : '\n' ∉ cs) : splitLines cs = [cs] := by
  induction cs with
  | nil => rfl
  | cons c cs ih =>
      obtain ⟨here, later⟩ : '\n' ≠ c ∧ '\n' ∉ cs := by simpa using plain
      simp [splitLines, Ne.symm here, ih later]

theorem splitLines_append (front back : List Char) :
    splitLines (front ++ '\n' :: back) = splitLines front ++ splitLines back := by
  induction front with
  | nil => simp [splitLines]
  | cons c front ih =>
      by_cases newline : c = '\n'
      · simp [splitLines, newline, ih]
      · obtain ⟨line, rest, split⟩ := List.exists_cons_of_ne_nil (splitLines_ne_nil front)
        simp [splitLines, newline, ih, split]

theorem newline_not_mem_of_mem_splitLines (cs : List Char) : ∀ chars ∈ splitLines cs, '\n' ∉ chars := by
  intro chars member
  by_cases newline : '\n' ∈ cs
  · obtain ⟨first, rest, rfl, plain⟩ := List.eq_append_cons_of_mem newline
    rw [splitLines_append, splitLines_plain plain] at member
    rcases List.mem_cons.mp member with rfl | later
    · exact plain
    · exact newline_not_mem_of_mem_splitLines rest chars later
  · rw [splitLines_plain newline] at member
    obtain rfl := List.mem_singleton.mp member
    exact newline
termination_by cs.length

theorem splitLines_flatMap (lines : List (List Char)) :
    splitLines (lines.flatMap (· ++ ['\n'])) = lines.flatMap splitLines ++ [[]] := by
  induction lines with
  | nil => rfl
  | cons line lines ih =>
      rw [List.flatMap_cons, List.append_assoc, List.singleton_append, splitLines_append, ih,
        List.flatMap_cons, List.append_assoc]

/-- The parts are the lines if no part holds a newline of its own. -/
theorem splitLines_flatMap_eq_iff (lines : List (List Char)) :
    splitLines (lines.flatMap (· ++ ['\n'])) = lines ++ [[]] ↔ ∀ line ∈ lines, '\n' ∉ line := by
  constructor
  · intro same line member
    apply newline_not_mem_of_mem_splitLines (lines.flatMap (· ++ ['\n']))
    rw [same]
    exact List.mem_append_left _ member
  · intro plain
    have single : lines.flatMap splitLines = lines.flatMap fun line => [line] :=
      List.flatMap_congr fun line member => splitLines_plain (plain line member)
    rw [splitLines_flatMap, single, List.flatMap_singleton']

/-- The bytes of lines with a newline behind each. -/
def extent : List (List Char) → Nat
  | [] => 0
  | line :: rest => byteLength line + 1 + extent rest

theorem extent_splitLines (cs : List Char) : extent (splitLines cs) = byteLength cs + 1 := by
  induction cs with
  | nil => rfl
  | cons c cs ih =>
      obtain ⟨line, rest, split⟩ := List.exists_cons_of_ne_nil (splitLines_ne_nil cs)
      rw [split] at ih
      by_cases newline : c = '\n'
      · subst newline
        have size : '\n'.utf8Size = 1 := by decide
        simp only [extent] at ih
        simp only [splitLines, if_true, split, extent, byteLength_nil, byteLength_cons]
        omega
      · simp only [extent] at ih
        simp only [splitLines, newline, if_false, split, extent, byteLength_cons]
        omega

theorem length_splitLines (cs : List Char) : (splitLines cs).length = cs.count '\n' + 1 := by
  induction cs with
  | nil => rfl
  | cons c cs ih =>
      obtain ⟨line, rest, split⟩ := List.exists_cons_of_ne_nil (splitLines_ne_nil cs)
      rw [split] at ih
      by_cases newline : c = '\n'
      · simpa [splitLines, newline, split] using ih
      · simpa [splitLines, newline, split] using ih

theorem length_placeLines (start : Nat) (lines : List (List Char)) :
    (placeLines start lines).length = lines.length := by
  induction lines generalizing start with
  | nil => rfl
  | cons line rest ih => rw [placeLines, List.length_cons, List.length_cons, ih]

theorem placeLines_append (start : Nat) (first second : List (List Char)) :
    placeLines start (first ++ second) =
      placeLines start first ++ placeLines (start + extent first) second := by
  induction first generalizing start with
  | nil => rfl
  | cons line first ih =>
      have place : start + byteLength line + 1 + extent first = start + extent (line :: first) := by
        simp only [extent]
        omega
      simp only [List.cons_append, placeLines, ih, place]

theorem lines_append (start : Nat) (front back : List Char) :
    placeLines start (splitLines (front ++ '\n' :: back)) =
      placeLines start (splitLines front) ++
        placeLines (start + byteLength front + 1) (splitLines back) := by
  rw [splitLines_append, placeLines_append, extent_splitLines, Nat.add_assoc]

theorem IsLine.mem_linesOf (stands : IsLine cs line) : line ∈ linesOf cs := by
  obtain ⟨whole, front, back, rfl, begins, before, behind⟩ := stands
  have here : line ∈ placeLines line.start (splitLines (line.chars ++ back)) := by
    cases back with
    | nil => simp [splitLines_plain whole, placeLines]
    | cons c back =>
        obtain rfl := behind c rfl
        rw [lines_append, splitLines_plain whole]
        exact List.mem_append_left _ List.mem_cons_self
  rw [linesOf, List.append_assoc]
  cases split : front.getLast? with
  | none =>
      obtain rfl := List.getLast?_eq_none_iff.mp split
      rw [List.nil_append, show 0 = line.start from begins]
      exact here
  | some c =>
      obtain rfl := before c split
      obtain ⟨front, rfl⟩ := List.getLast?_eq_some_iff.mp split
      have place : 0 + byteLength front + 1 = line.start := by
        rw [byteLength_append] at begins
        have size : byteLength ['\n'] = 1 := by decide
        omega
      rw [List.append_assoc, List.singleton_append, lines_append, place]
      exact List.mem_append_right _ here

theorem isLine_of_mem (cs : List Char) (start : Nat) (member : line ∈ placeLines start (splitLines cs)) :
    '\n' ∉ line.chars ∧ ∃ front back, cs = front ++ line.chars ++ back ∧
      start + byteLength front = line.start ∧
      (∀ c ∈ front.getLast?, c = '\n') ∧ ∀ c ∈ back.head?, c = '\n' := by
  by_cases newline : '\n' ∈ cs
  · obtain ⟨first, rest, rfl, plain⟩ := List.eq_append_cons_of_mem newline
    rw [lines_append, splitLines_plain plain] at member
    rcases List.mem_append.mp member with first | later
    · obtain rfl := List.mem_singleton.mp first
      exact ⟨plain, [], '\n' :: rest, rfl, rfl, by simp, by simp⟩
    · obtain ⟨whole, front, back, rfl, begins, before, behind⟩ := isLine_of_mem rest _ later
      refine ⟨whole, first ++ '\n' :: front, back, by simp, ?_, ?_, behind⟩
      · have size : '\n'.utf8Size = 1 := by decide
        simp only [byteLength_append, byteLength_cons]
        omega
      · intro c last
        cases front with
        | nil => simpa using last.symm
        | cons d front => exact before c (by simpa using last)
  · rw [splitLines_plain newline] at member
    obtain rfl := List.mem_singleton.mp member
    exact ⟨newline, [], [], by simp, rfl, by simp, by simp⟩
termination_by cs.length

theorem mem_linesOf_iff : line ∈ linesOf cs ↔ IsLine cs line := by
  constructor
  · intro member
    obtain ⟨whole, front, back, split, begins, newlines⟩ := isLine_of_mem cs 0 member
    exact ⟨whole, front, back, split, by omega, newlines⟩
  · exact IsLine.mem_linesOf

theorem isChain_placeLines (start : Nat) (lines : List (List Char)) :
    (placeLines start lines).IsChain Line.Before := by
  induction lines generalizing start with
  | nil => exact .nil
  | cons line rest ih =>
      cases rest with
      | nil => exact .singleton _
      | cons next rest => exact List.isChain_cons_cons.mpr ⟨rfl, ih (start + byteLength line + 1)⟩

theorem Line.start_le_stop (line : Line) : line.start ≤ line.stop :=
  Nat.le_add_right _ _

theorem stop_lt_of_isChain {rest : List Line} (chain : (line :: rest).IsChain Line.Before) :
    ∀ other ∈ rest, line.stop < other.start := by
  induction rest generalizing line with
  | nil => simp
  | cons next rest ih =>
      obtain ⟨before, chain⟩ := List.isChain_cons_cons.mp chain
      have here : line.stop < next.start := by
        rw [before]
        exact Nat.lt_succ_self _
      intro other member
      rcases List.mem_cons.mp member with rfl | member
      · exact here
      · exact Nat.lt_trans here (Nat.lt_of_le_of_lt next.start_le_stop (ih chain other member))

theorem not_before_first {rest : List Line} (chain : (line :: rest).IsChain Line.Before) {other : Line}
    (member : other ∈ line :: rest) : ¬other.Before line := by
  intro before
  have ends := other.start_le_stop
  unfold Line.Before at before
  rcases List.mem_cons.mp member with rfl | later
  · omega
  · have after := stop_lt_of_isChain chain other later
    have begins := line.start_le_stop
    omega

theorem pairwise_of_isChain {lines : List Line} (chain : lines.IsChain Line.Before) :
    lines.Pairwise fun line other => line.stop < other.start := by
  induction lines with
  | nil => exact .nil
  | cons line rest ih => exact .cons (stop_lt_of_isChain chain) (ih chain.tail)

theorem IsLine.apart {other : Line} (stands : IsLine cs line) (stands' : IsLine cs other) :
    line = other ∨ line.stop < other.start ∨ other.stop < line.start := by
  have pairwise := pairwise_of_isChain (isChain_placeLines 0 (splitLines cs))
  have apart : (linesOf cs).Pairwise fun line other =>
      line.stop < other.start ∨ other.stop < line.start := pairwise.imp .inl
  have : Std.Symm fun line other : Line => line.stop < other.start ∨ other.stop < line.start :=
    ⟨fun _ _ => Or.symm⟩
  by_cases same : line = other
  · exact .inl same
  · exact .inr (apart.forall stands.mem_linesOf stands'.mem_linesOf same)

theorem exists_linesOf_eq_cons (cs : List Char) : ∃ chars rest, linesOf cs = ⟨0, chars⟩ :: rest := by
  obtain ⟨chars, rest, split⟩ := List.exists_cons_of_ne_nil (splitLines_ne_nil cs)
  exact ⟨chars, _, by rw [linesOf, split, placeLines]⟩

theorem IsLine.isBoundary (stands : IsLine cs line) :
    isBoundary line.start cs = true ∧ isBoundary line.stop cs = true := by
  obtain ⟨whole, front, back, rfl, begins, -, -⟩ := stands
  refine ⟨isBoundary_iff.mpr ⟨front, _, List.append_assoc .., begins⟩,
    isBoundary_iff.mpr ⟨_, back, rfl, ?_⟩⟩
  rw [byteLength_append, begins]
  rfl

theorem stop_getLast?_placeLines {lines : List (List Char)} (start : Nat)
    (last : line ∈ (placeLines start lines).getLast?) : line.stop + 1 = start + extent lines := by
  induction lines generalizing start with
  | nil => cases last
  | cons first rest ih =>
      cases rest with
      | nil =>
          obtain rfl : ⟨start, first⟩ = line := by simpa [placeLines] using last
          simp [Line.stop, extent, Nat.add_assoc]
      | cons next rest =>
          have later := ih (start + byteLength first + 1) (by simpa [placeLines] using last)
          simp only [extent] at later ⊢
          omega

theorem stop_getLast?_linesOf (last : line ∈ (linesOf cs).getLast?) : line.stop = byteLength cs := by
  have ends := stop_getLast?_placeLines 0 last
  rw [extent_splitLines] at ends
  omega

end

end Text

end MuCompletion
