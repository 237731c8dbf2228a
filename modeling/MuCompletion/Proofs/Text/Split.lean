import Mathlib.Algebra.GroupWithZero.Nat
import MuCompletion.Text.Edit

/-! # Splitting a text at byte offsets

An offset on a character boundary splits the characters of a text in exactly one way. An edit that
fits its text therefore splits it into what comes before the replaced bytes, the replaced characters
and what comes after; those three parts determine the text after the edit.
-/

namespace MuCompletion

namespace Text

theorem byteLength_eq_zero {cs : List Char} (h : byteLength cs = 0) : cs = [] := by
  cases cs with
  | nil => rfl
  | cons c cs =>
      have size := c.utf8Size_pos
      simp only [byteLength_cons] at h
      omega

theorem byteLength_pos {cs : List Char} (nonempty : cs ≠ []) : 0 < byteLength cs :=
  Nat.pos_of_ne_zero fun empty => nonempty (byteLength_eq_zero empty)

theorem byteLength_eq_sum (cs : List Char) : byteLength cs = (cs.map Char.utf8Size).sum := by
  induction cs with
  | nil => rfl
  | cons c cs ih => rw [byteLength_cons, List.map_cons, List.sum_cons, ih]

theorem takeWithin_add_sum (size : Char → Nat) (budget : Nat) (cs ds : List Char) :
    takeWithin size (budget + (cs.map size).sum) (cs ++ ds) = cs ++ takeWithin size budget ds := by
  induction cs with
  | nil => rfl
  | cons c cs ih =>
      have fits : size c ≤ budget + (size c + (cs.map size).sum) := by omega
      have left : budget + (size c + (cs.map size).sum) - size c = budget + (cs.map size).sum := by omega
      simpa [takeWithin, fits, left] using ih

theorem takeWithin_zero {size : Char → Nat} (filled : ∀ c, 0 < size c) (cs : List Char) :
    takeWithin size 0 cs = [] := by
  cases cs with
  | nil => rfl
  | cons c cs => rw [takeWithin, if_neg (Nat.not_le.mpr (filled c))]

theorem units16_pos (c : Char) : 0 < units16 c := by
  unfold units16
  split <;> decide

theorem before_add_byteLength (offset : Nat) (cs ds : List Char) :
    before (offset + byteLength cs) (cs ++ ds) = cs ++ before offset ds := by
  rw [byteLength_eq_sum]
  exact takeWithin_add_sum Char.utf8Size offset cs ds

@[simp] theorem before_byteLength_append (cs ds : List Char) :
    before (byteLength cs) (cs ++ ds) = cs := by
  have nothing : before 0 ds = [] := takeWithin_zero Char.utf8Size_pos ds
  have whole := before_add_byteLength 0 cs ds
  rwa [nothing, Nat.zero_add, List.append_nil] at whole

theorem before_append_of_le {offset : Nat} {cs : List Char} (within : offset ≤ byteLength cs)
    (ds : List Char) : before offset (cs ++ ds) = before offset cs := by
  induction cs generalizing offset with
  | nil =>
      obtain rfl : offset = 0 := Nat.le_zero.mp within
      exact before_byteLength_append [] ds
  | cons c cs ih =>
      by_cases fits : c.utf8Size ≤ offset
      · rw [byteLength_cons] at within
        have later := @ih (offset - c.utf8Size) (by omega)
        simpa [before, takeWithin, fits] using later
      · simp [before, takeWithin, fits]

theorem takeWithin_prefix_of_le (size : Char → Nat) {budget budget' : Nat} (le : budget ≤ budget')
    (cs : List Char) : takeWithin size budget cs <+: takeWithin size budget' cs := by
  induction cs generalizing budget budget' with
  | nil => exact List.prefix_rfl
  | cons c cs ih =>
      by_cases fits : size c ≤ budget
      · have later := @ih (budget - size c) (budget' - size c) (by omega)
        have fits' : size c ≤ budget' := Nat.le_trans fits le
        simpa [takeWithin, fits, fits'] using later
      · simp [takeWithin, fits]

theorem before_of_le {offset offset' : Nat} (le : offset ≤ offset') (cs : List Char) :
    before offset cs <+: before offset' cs :=
  takeWithin_prefix_of_le Char.utf8Size le cs

theorem byteLength_le_of_isPrefix {cs ds : List Char} (first : cs <+: ds) :
    byteLength cs ≤ byteLength ds := by
  obtain ⟨rest, rfl⟩ := first
  rw [byteLength_append]
  exact Nat.le_add_right _ _

@[simp] theorem after_byteLength_append (cs ds : List Char) :
    after (byteLength cs) (cs ++ ds) = ds := by
  have whole := before_append_after (byteLength cs) (cs ++ ds)
  rw [before_byteLength_append] at whole
  exact List.append_cancel_left whole

@[simp] theorem floorOffset_byteLength_append (cs ds : List Char) :
    floorOffset (byteLength cs) (cs ++ ds) = byteLength cs :=
  congrArg byteLength (before_byteLength_append cs ds)

theorem floorOffset_append_of_le {offset : Nat} {cs : List Char} (within : offset ≤ byteLength cs)
    (ds : List Char) : floorOffset offset (cs ++ ds) = floorOffset offset cs :=
  congrArg byteLength (before_append_of_le within ds)

theorem floorOffset_add_byteLength (offset : Nat) (cs ds : List Char) :
    floorOffset (offset + byteLength cs) (cs ++ ds) = floorOffset offset ds + byteLength cs := by
  rw [floorOffset, before_add_byteLength, byteLength_append, Nat.add_comm]
  rfl

theorem after_add_byteLength (offset : Nat) (cs ds : List Char) :
    after (offset + byteLength cs) (cs ++ ds) = after offset ds := by
  have whole := before_append_after (offset + byteLength cs) (cs ++ ds)
  rw [before_add_byteLength, List.append_assoc] at whole
  have rest := List.append_cancel_left whole
  exact List.append_cancel_left (rest.trans (before_append_after offset ds).symm)

theorem after_append_of_le {offset : Nat} {cs : List Char} (within : offset ≤ byteLength cs)
    (ds : List Char) : after offset (cs ++ ds) = after offset cs ++ ds := by
  have whole := before_append_after offset (cs ++ ds)
  rw [before_append_of_le within] at whole
  apply @List.append_cancel_left _ (before offset cs)
  rw [whole, ← List.append_assoc, before_append_after]

theorem slice_append_of_le {start stop : Nat} {cs : List Char} (ordered : start ≤ stop)
    (within : stop ≤ byteLength cs) (ds : List Char) :
    slice start stop (cs ++ ds) = slice start stop cs := by
  have whole := congrArg byteLength (before_append_after start cs)
  have bound : byteLength (before start cs) ≤ start := floorOffset_le start cs
  rw [byteLength_append] at whole
  unfold slice
  rw [after_append_of_le (by omega), before_append_of_le (by omega)]

theorem slice_add_byteLength (start stop : Nat) (cs ds : List Char) :
    slice (start + byteLength cs) (stop + byteLength cs) (cs ++ ds) = slice start stop ds := by
  unfold slice
  rw [after_add_byteLength, Nat.add_sub_add_right]

theorem isBoundary_iff {offset : Nat} {cs : List Char} :
    isBoundary offset cs = true ↔ ∃ as bs, cs = as ++ bs ∧ byteLength as = offset := by
  constructor
  · intro boundary
    exact ⟨before offset cs, after offset cs, (before_append_after offset cs).symm,
      by simpa [isBoundary, floorOffset] using boundary⟩
  · rintro ⟨as, bs, rfl, rfl⟩
    simp [isBoundary]

theorem after_add {start : Nat} {cs : List Char} (boundary : isBoundary start cs = true) (offset : Nat) :
    after (start + offset) cs = after offset (after start cs) := by
  obtain ⟨front, back, rfl, rfl⟩ := isBoundary_iff.mp boundary
  rw [Nat.add_comm, after_add_byteLength, after_byteLength_append]

theorem isBoundary_zero (cs : List Char) : isBoundary 0 cs = true :=
  isBoundary_iff.mpr ⟨[], cs, rfl, rfl⟩

theorem isBoundary_byteLength (cs : List Char) : isBoundary (byteLength cs) cs = true :=
  isBoundary_iff.mpr ⟨cs, [], (List.append_nil cs).symm, rfl⟩

theorem le_byteLength_of_isBoundary {offset : Nat} {cs : List Char}
    (boundary : isBoundary offset cs = true) : offset ≤ byteLength cs := by
  obtain ⟨front, back, rfl, rfl⟩ := isBoundary_iff.mp boundary
  simp

/-- Of two ways to split one text, the one at the lesser offset splits the first part of the other. -/
theorem append_eq_append_of_le {as bs cs ds : List Char} (same : as ++ bs = cs ++ ds)
    (le : byteLength as ≤ byteLength cs) : ∃ es, cs = as ++ es ∧ bs = es ++ ds := by
  rcases List.append_eq_append_iff.mp same with ⟨es, rfl, rfl⟩ | ⟨es, rfl, rfl⟩
  · exact ⟨es, rfl, rfl⟩
  · have empty : es = [] := byteLength_eq_zero (by simp only [byteLength_append] at le; omega)
    exact ⟨[], by simp [empty], by simp [empty]⟩

theorem suffix_unique {as bs text : List Char} (first : as <:+ text) (second : bs <:+ text)
    (same : byteLength as = byteLength bs) : as = bs := by
  obtain ⟨front, rfl⟩ := first
  obtain ⟨front', whole⟩ := second
  have lengths := congrArg byteLength whole
  simp only [byteLength_append] at lengths
  obtain ⟨es, -, split⟩ := append_eq_append_of_le whole (by omega)
  have empty : es = [] := byteLength_eq_zero (by
    have := congrArg byteLength split
    simp only [byteLength_append] at this
    omega)
  simpa [empty] using split.symm

end Text

/-- The edit's range splits the text into what it leaves before, what it removes and what it leaves
after. -/
structure Edit.Splits (edit : Edit) (text : String) (front removed back : List Char) : Prop where
  text : text.toList = front ++ removed ++ back
  start : Text.byteLength front = edit.start
  stop : Text.byteLength (front ++ removed) = edit.stop

namespace Edit

open Text

theorem fits_iff {edit : Edit} {text : String} :
    edit.fits text = true ↔ ∃ front removed back, edit.Splits text front removed back := by
  simp only [fits, Bool.and_eq_true, decide_eq_true_eq, isBoundary_iff]
  constructor
  · rintro ⟨⟨ordered, front, rest, whole, start⟩, front', back, whole', stop⟩
    obtain ⟨removed, rfl, rfl⟩ :=
      append_eq_append_of_le (whole.symm.trans whole') (by omega)
    exact ⟨front, removed, back, ⟨whole', start, stop⟩⟩
  · rintro ⟨front, removed, back, whole, start, stop⟩
    refine ⟨⟨?_, front, removed ++ back, by simp [whole], start⟩, front ++ removed, back, whole, stop⟩
    rw [← start, ← stop, byteLength_append]
    omega

namespace Splits

variable {edit : Edit} {text : String} {front removed back : List Char}

theorem toList_apply (split : edit.Splits text front removed back) :
    (edit.apply text).toList = front ++ edit.insert.toList ++ back := by
  have first : before edit.start text.toList = front := by
    rw [split.text, ← split.start, List.append_assoc]
    exact before_byteLength_append front (removed ++ back)
  have second : after edit.stop text.toList = back := by
    rw [split.text, ← split.stop]
    exact after_byteLength_append (front ++ removed) back
  simp [apply, first, second]

end Splits

end Edit

end MuCompletion
