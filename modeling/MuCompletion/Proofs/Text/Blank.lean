import Mathlib.Data.List.TakeWhile
import MuCompletion.Text.Blank

/-! # Trimming

What trimming leaves of a text stands in it and neither begins nor ends with a blank, so it is empty or
holds more than blanks.
-/

namespace MuCompletion

namespace Text

section

variable {cs front back : List Char}

theorem allBlank_eq_false_iff : allBlank cs = false ↔ ∃ c ∈ cs, isBlank c = false := by
  rw [allBlank, List.all_eq_false]
  simp only [Bool.not_eq_true]

theorem dropWhile_isBlank_append (filled : allBlank front = false) :
    (front ++ back).dropWhile isBlank = front.dropWhile isBlank ++ back := by
  rw [List.dropWhile_append, if_neg]
  rw [List.isEmpty_iff, List.dropWhile_eq_nil_iff]
  intro blanks
  obtain ⟨c, member, stays⟩ := allBlank_eq_false_iff.mp filled
  rw [blanks c member] at stays
  cases stays

theorem exists_dropWhile_isBlank (cs : List Char) :
    ∃ blanks, cs = blanks ++ cs.dropWhile isBlank ∧
      ∀ c ∈ (cs.dropWhile isBlank).head?, isBlank c = false :=
  ⟨cs.takeWhile isBlank, List.takeWhile_append_dropWhile.symm, fun c first => by
    have stops := List.head?_dropWhile_not isBlank cs
    rw [Option.mem_def] at first
    simpa [first] using stops⟩

theorem exists_trim (cs : List Char) : ∃ before behind, cs = before ++ trim cs ++ behind ∧
    (∀ c ∈ (trim cs).head?, isBlank c = false) ∧ ∀ c ∈ (trim cs).getLast?, isBlank c = false := by
  obtain ⟨before, whole, begins⟩ := exists_dropWhile_isBlank cs
  obtain ⟨behind, turned, ends⟩ := exists_dropWhile_isBlank (cs.dropWhile isBlank).reverse
  have rest : cs.dropWhile isBlank = trim cs ++ behind.reverse := by
    rw [← List.reverse_reverse (cs.dropWhile isBlank), turned, List.reverse_append]
    rfl
  refine ⟨before, behind.reverse, ?_, fun c first => begins c ?_, fun c last => ends c ?_⟩
  · rw [List.append_assoc, ← rest, ← whole]
  · rw [rest, List.head?_append, Option.mem_def.mp first]
    rfl
  · rwa [trim, List.getLast?_reverse] at last

theorem trim_subset (cs : List Char) : trim cs ⊆ cs := by
  obtain ⟨before, behind, whole, -⟩ := exists_trim cs
  intro c inside
  rw [whole]
  simp [inside]

theorem allBlank_trim (some : trim cs ≠ []) : allBlank (trim cs) = false := by
  obtain ⟨c, rest, split⟩ := List.exists_cons_of_ne_nil some
  obtain ⟨before, behind, -, begins, -⟩ := exists_trim cs
  rw [split] at begins ⊢
  exact allBlank_eq_false_iff.mpr ⟨c, List.mem_cons_self, begins c rfl⟩

end

end Text

end MuCompletion
