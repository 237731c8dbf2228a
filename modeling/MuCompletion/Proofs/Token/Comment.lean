import Mathlib.Data.List.Induction
import MuCompletion.Proofs.Text.Blank
import MuCompletion.Proofs.Text.Lines
import MuCompletion.Token.Comment

/-! # What comments say, line by line

A comment says the lines of it that hold more than marks and blanks. Documentation puts the lines of
several comments below each other and takes the blanks away around them, so it has more than one line
exactly if the comments say more than one.
-/

namespace MuCompletion

open Text

/-- The lines that hold more than blanks. -/
def filledLines (cs : List Char) : List (List Char) :=
  (splitLines cs).filter (! allBlank ·)

/-- The lines that comments say. -/
def saidLines (comments : List String) : List (List Char) :=
  comments.flatMap fun comment => Comment.bodyLines comment.toList

/-- A newline stands in the text with more than blanks on both sides. -/
def SplitByNewline (cs : List Char) : Prop :=
  ∃ front back, cs = front ++ '\n' :: back ∧ allBlank front = false ∧ allBlank back = false

section

variable {cs front back : List Char}

theorem newline_mem_trim_iff : '\n' ∈ trim cs ↔ SplitByNewline cs := by
  constructor
  · intro inside
    obtain ⟨before, behind, whole, begins, ends⟩ := exists_trim cs
    obtain ⟨front, back, split⟩ := List.append_of_mem inside
    rw [split] at whole begins ends
    refine ⟨before ++ front, back ++ behind, by simp [whole], ?_, ?_⟩
    · rw [allBlank_eq_false_iff]
      cases front with
      | nil => exact absurd (begins '\n' rfl) (by decide)
      | cons c front => exact ⟨c, by simp, begins c rfl⟩
    · rw [allBlank_eq_false_iff]
      cases back using List.reverseRecOn with
      | nil => exact absurd (ends '\n' (by simp)) (by decide)
      | append_singleton back c =>
          refine ⟨c, by simp, ends c ?_⟩
          rw [← List.cons_append, ← List.append_assoc, List.getLast?_concat, Option.mem_def]
  · rintro ⟨front, back, rfl, before, behind⟩
    have turned : allBlank back.reverse = false := by rwa [allBlank, List.all_reverse]
    rw [trim, dropWhile_isBlank_append before, List.reverse_append, List.reverse_cons,
      List.append_assoc, dropWhile_isBlank_append turned]
    simp

/-! ## Lines that hold something -/

theorem filledLines_append (front back : List Char) :
    filledLines (front ++ '\n' :: back) = filledLines front ++ filledLines back := by
  rw [filledLines, splitLines_append, List.filter_append]
  rfl

theorem filledLines_plain (plain : '\n' ∉ cs) :
    filledLines cs = if allBlank cs then [] else [cs] := by
  rw [filledLines, splitLines_plain plain]
  cases blank : allBlank cs <;> simp [blank]

theorem allBlank_append_newline : allBlank (front ++ '\n' :: back) = (allBlank front && allBlank back) := by
  rw [allBlank, List.all_append, List.all_cons, show isBlank '\n' = true by decide, Bool.true_and]
  rfl

theorem filledLines_eq_nil_iff (cs : List Char) : filledLines cs = [] ↔ allBlank cs = true := by
  by_cases newline : '\n' ∈ cs
  · obtain ⟨first, rest, rfl, plain⟩ := List.eq_append_cons_of_mem newline
    rw [filledLines_append, filledLines_plain plain, allBlank_append_newline, Bool.and_eq_true,
      ← filledLines_eq_nil_iff rest]
    cases allBlank first <;> simp
  · rw [filledLines_plain newline]
    cases allBlank cs <;> simp
termination_by cs.length

/-- A newline splits what a text holds exactly if two of its lines hold something. -/
theorem splitByNewline_iff (cs : List Char) : SplitByNewline cs ↔ 2 ≤ (filledLines cs).length := by
  have filled (cs : List Char) : allBlank cs = false ↔ 1 ≤ (filledLines cs).length := by
    rw [← Bool.not_eq_true, ← filledLines_eq_nil_iff, Nat.one_le_iff_ne_zero, ne_eq,
      List.length_eq_zero_iff]
  constructor
  · rintro ⟨front, back, rfl, before, behind⟩
    rw [filled] at before behind
    rw [filledLines_append, List.length_append]
    omega
  · intro two
    by_cases newline : '\n' ∈ cs
    · obtain ⟨first, rest, rfl, plain⟩ := List.eq_append_cons_of_mem newline
      rw [filledLines_append, filledLines_plain plain, List.length_append] at two
      cases blank : allBlank first with
      | true =>
          rw [blank, if_pos rfl] at two
          have later : 2 ≤ (filledLines rest).length := by simpa using two
          obtain ⟨front, back, rfl, before, behind⟩ := (splitByNewline_iff rest).mpr later
          exact ⟨first ++ '\n' :: front, back, by simp, by rw [allBlank_append_newline, before, Bool.and_false],
            behind⟩
      | false =>
          rw [blank, if_neg Bool.false_ne_true, List.length_singleton] at two
          exact ⟨first, rest, rfl, blank, (filled rest).mpr (by omega)⟩
    · rw [filledLines_plain newline] at two
      cases blank : allBlank cs <;> simp [blank] at two
termination_by cs.length

theorem filledLines_joinLines (texts : List (List Char)) :
    filledLines (joinLines texts) = texts.flatMap filledLines := by
  induction texts with
  | nil => rfl
  | cons text rest ih =>
      cases rest with
      | nil => simp [joinLines]
      | cons next rest =>
          rw [joinLines, filledLines_append, ih]
          · rfl
          · simp

end

/-! ## Comments -/

section

variable {cs line : List Char}

namespace Comment

theorem mem_bodyLines (member : line ∈ bodyLines cs) : '\n' ∉ line ∧ allBlank line = false := by
  obtain ⟨bare, some⟩ := List.mem_filter.mp member
  obtain ⟨whole, listed, rfl⟩ := List.mem_map.mp bare
  have plain := newline_not_mem_of_mem_splitLines (inner cs) whole listed
  constructor
  · intro newline
    exact plain (trim_subset whole (List.dropWhile_subset _ (trim_subset _ newline)))
  · exact allBlank_trim (by simpa [bareLine] using some)

theorem filledLines_body (comment : String) :
    filledLines (body comment).toList = bodyLines comment.toList := by
  have single : ∀ line ∈ bodyLines comment.toList, filledLines line = [line] := by
    intro line member
    obtain ⟨plain, filled⟩ := mem_bodyLines member
    rw [filledLines_plain plain, filled, if_neg Bool.false_ne_true]
  rw [body, String.toList_ofList, filledLines_joinLines, List.flatMap_congr single]
  simp

end Comment

/-- Documentation goes over several lines exactly if its comments say several. -/
theorem newline_mem_documentation?_iff (comments : List String) :
    (∃ doc ∈ documentation? (comments.map Comment.body), '\n' ∈ doc.toList) ↔
      2 ≤ (saidLines comments).length := by
  have said : filledLines (joinLines ((comments.map Comment.body).map String.toList)) =
      saidLines comments := by
    rw [filledLines_joinLines, saidLines, List.map_map, List.flatMap_map]
    exact List.flatMap_congr fun comment _ => Comment.filledLines_body comment
  rw [← said, ← splitByNewline_iff, ← newline_mem_trim_iff, documentation?]
  generalize trim _ = shown
  cases shown with
  | nil => simp
  | cons c cs => simp

end

end MuCompletion
