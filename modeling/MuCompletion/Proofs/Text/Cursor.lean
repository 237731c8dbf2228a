import Mathlib.Data.List.DropRight
import MuCompletion.Proofs.Text.Order

/-! # Cursors and positions

A place of a text can be named by the newlines before it and what stands between the last of them and
the place: characters for a cursor, UTF-16 code units for a position. Both names lead back to the place,
a position as long as no carriage return stands between. Whatever line and column they are given, the two
agree in exactly those texts that have no carriage return and no character of two code units.
-/

namespace MuCompletion

namespace Text

/-- The characters since the last newline. -/
def lastLine (cs : List Char) : List Char :=
  cs.rtakeWhile (· ≠ '\n')

/-- The cursor behind a text, by newlines and characters. -/
def Cursor.behind (front : List Char) : Cursor :=
  .lineColumn (1 + front.count '\n') (1 + (lastLine front).length)

/-- The position behind a text, by newlines and UTF-16 code units. -/
def Position.behind (front : List Char) : Position :=
  ⟨front.count '\n', ((lastLine front).map units16).sum⟩

section

variable {cs front back : List Char} {line : Line} {c : Char}

/-! ## The line of a place -/

theorem newline_not_mem_lastLine (cs : List Char) : '\n' ∉ lastLine cs := by
  intro member
  simpa using List.mem_rtakeWhile_imp member

theorem exists_lastLine (cs : List Char) :
    lastLine cs = cs ∨ ∃ earlier, cs = earlier ++ '\n' :: lastLine cs := by
  induction cs using List.reverseRecOn with
  | nil => exact .inl rfl
  | append_singleton cs c ih =>
      by_cases newline : c = '\n'
      · have empty : lastLine (cs ++ [c]) = [] := List.rtakeWhile_concat_neg _ _ _ (by simpa using newline)
        exact .inr ⟨cs, by rw [empty, newline]⟩
      · have longer : lastLine (cs ++ [c]) = lastLine cs ++ [c] :=
          List.rtakeWhile_concat_pos _ _ _ (by simpa using newline)
        rw [longer]
        rcases ih with whole | ⟨earlier, split⟩
        · exact .inl (by rw [whole])
        · refine .inr ⟨earlier, ?_⟩
          rw [← List.cons_append, ← List.append_assoc, ← split]

theorem takeWhile_append_of_not_mem {end_ : Char} (plain : end_ ∉ front) (back : List Char) :
    (front ++ back).takeWhile (· ≠ end_) = front ++ back.takeWhile (· ≠ end_) := by
  apply List.takeWhile_append_of_pos
  intro c member
  have other : c ≠ end_ := fun is => plain (is ▸ member)
  simpa using other

theorem takeWhile_append_cons {end_ : Char} (plain : end_ ∉ front) (back : List Char) :
    (front ++ end_ :: back).takeWhile (· ≠ end_) = front := by
  rw [takeWhile_append_of_not_mem plain]
  simp

theorem getElem?_placeLines_zero (start : Nat) (cs : List Char) :
    (placeLines start (splitLines cs))[0]? = some ⟨start, cs.takeWhile (· ≠ '\n')⟩ := by
  by_cases newline : '\n' ∈ cs
  · obtain ⟨first, rest, rfl, plain⟩ := List.eq_append_cons_of_mem newline
    rw [takeWhile_append_cons plain, lines_append, splitLines_plain plain]
    rfl
  · have whole : cs.takeWhile (· ≠ '\n') = cs := by
      simpa using takeWhile_append_of_not_mem newline []
    rw [whole, splitLines_plain newline]
    rfl

theorem exists_line_behind (front back : List Char) : ∃ start,
    (linesOf (front ++ back))[front.count '\n']? =
        some ⟨start, lastLine front ++ back.takeWhile (· ≠ '\n')⟩ ∧
      start + byteLength (lastLine front) = byteLength front := by
  have plain := newline_not_mem_lastLine front
  have split := exists_lastLine front
  generalize lastLine front = last at plain split ⊢
  have single : last.count '\n' = 0 := List.count_eq_zero.mpr plain
  rcases split with rfl | ⟨earlier, rfl⟩
  · refine ⟨0, ?_, Nat.zero_add _⟩
    rw [single, ← takeWhile_append_of_not_mem plain]
    exact getElem?_placeLines_zero 0 (last ++ back)
  · have size : '\n'.utf8Size = 1 := by decide
    refine ⟨byteLength earlier + 1, ?_, by simp only [byteLength_append, byteLength_cons]; omega⟩
    have number : (earlier ++ '\n' :: last).count '\n' =
        (placeLines 0 (splitLines earlier)).length := by
      rw [length_placeLines, length_splitLines, List.count_append, List.count_cons_self, single]
    rw [number, linesOf, List.append_assoc, List.cons_append, lines_append,
      List.getElem?_append_right (Nat.le_refl _), Nat.sub_self, Nat.zero_add,
      getElem?_placeLines_zero, takeWhile_append_of_not_mem plain]

/-! ## Columns -/

theorem Cursor.toOffset_of_line {number column : Nat} (found : (linesOf cs)[number]? = some line) :
    (Cursor.lineColumn (number + 1) (column + 1)).toOffset cs =
      line.start + byteLength (line.chars.take column) := by
  simp only [toOffset, Nat.add_sub_cancel, found]

theorem Cursor.toOffset_behind (front back : List Char) :
    (Cursor.behind front).toOffset (front ++ back) = byteLength front := by
  obtain ⟨start, found, place⟩ := exists_line_behind front back
  rw [Cursor.behind, Nat.add_comm 1, Nat.add_comm 1, toOffset_of_line found, List.take_left, place]

/-- Behind what stands between the last newline and a place, columns go on if no carriage return stands
there. -/
theorem Position.toOffset_beside (plain : '\r' ∉ lastLine front) (back : List Char) (more : Nat) :
    (⟨front.count '\n', more + ((lastLine front).map units16).sum⟩ : Position).toOffset
        (front ++ back) =
      byteLength front + byteLength (takeWithin units16 more
        ((back.takeWhile (· ≠ '\n')).takeWhile (· ≠ '\r'))) := by
  obtain ⟨start, found, place⟩ := exists_line_behind front back
  rw [toOffset_of_line found, columnsIn, takeWhile_append_of_not_mem plain, takeWithin_add_sum,
    byteLength_append, ← place, Nat.add_assoc]

theorem Position.toOffset_lt (hidden : '\r' ∈ lastLine front) (back : List Char) (column : Nat) :
    (⟨front.count '\n', column⟩ : Position).toOffset (front ++ back) < byteLength front := by
  obtain ⟨start, found, place⟩ := exists_line_behind front back
  obtain ⟨shown, rest, split, plain⟩ := List.eq_append_cons_of_mem hidden
  have counted : takeWithin units16 column shown <+: shown :=
    ⟨_, takeWithin_append_dropWithin units16 column shown⟩
  have fewer := byteLength_le_of_isPrefix counted
  have size := byteLength_pos (List.cons_ne_nil '\r' rest)
  rw [split, byteLength_append] at place
  rw [toOffset_of_line found, columnsIn, split, List.append_assoc, List.cons_append,
    takeWhile_append_cons plain]
  show start + byteLength (takeWithin units16 column shown) < byteLength front
  omega

theorem Position.toOffset_behind_iff (front back : List Char) :
    (Position.behind front).toOffset (front ++ back) = byteLength front ↔ '\r' ∉ lastLine front := by
  constructor
  · intro same hidden
    exact Nat.ne_of_lt (toOffset_lt hidden back _) same
  · intro plain
    have here := toOffset_beside plain back 0
    rwa [Nat.zero_add, takeWithin_zero units16_pos, byteLength_nil, Nat.add_zero] at here

/-! ## Where lines and columns mean the same -/

/-- Whether a column of a cursor and one of a position count the character alike. -/
def CountedAlike (c : Char) : Prop :=
  c ≠ '\r' ∧ c.val < 0x10000

instance : DecidablePred CountedAlike :=
  fun c => inferInstanceAs (Decidable (c ≠ '\r' ∧ c.val < 0x10000))

theorem takeWithin_units16_of_basic (basic : ∀ c ∈ cs, c.val < 0x10000) (budget : Nat) :
    takeWithin units16 budget cs = cs.take budget := by
  induction cs generalizing budget with
  | nil => simp
  | cons c cs ih =>
      have one : units16 c = 1 := if_pos (basic c List.mem_cons_self)
      cases budget with
      | zero => exact takeWithin_zero units16_pos _
      | succ budget =>
          have later := ih (fun c member => basic c (List.mem_cons_of_mem _ member)) budget
          simp [takeWithin, one, later]

theorem toOffset_eq_of_alike (alike : ∀ c ∈ cs, CountedAlike c) (number column : Nat) :
    (Cursor.lineColumn (number + 1) (column + 1)).toOffset cs =
      (⟨number, column⟩ : Position).toOffset cs := by
  cases found : (linesOf cs)[number]? with
  | none =>
      have missing : (⟨number, column⟩ : Position).toOffset cs = byteLength cs :=
        Position.toOffset_of_none found
      simp only [Cursor.toOffset, Nat.add_sub_cancel, found, missing]
  | some line =>
      obtain ⟨front, back, rfl, -⟩ := (mem_linesOf_iff.mp (List.mem_of_getElem? found)).placed
      have inside : ∀ c ∈ line.chars, CountedAlike c := fun c member => alike c (by simp [member])
      have shown : line.chars.takeWhile (· ≠ '\r') = line.chars := by
        simpa using takeWhile_append_of_not_mem (fun member => (inside _ member).1 rfl) []
      have position : (⟨number, column⟩ : Position).toOffset (front ++ line.chars ++ back) =
          line.start + byteLength (takeWithin units16 column (line.chars.takeWhile (· ≠ '\r'))) :=
        Position.toOffset_of_line found
      rw [Cursor.toOffset_of_line found, position, shown,
        takeWithin_units16_of_basic fun c member => (inside c member).2]

theorem return_not_mem_lastLine (same : ∀ number column,
    (Cursor.lineColumn (number + 1) (column + 1)).toOffset (front ++ back) =
      (⟨number, column⟩ : Position).toOffset (front ++ back)) : '\r' ∉ lastLine front := by
  intro hidden
  have cursor := Cursor.toOffset_behind front back
  have position := Position.toOffset_lt hidden back (lastLine front).length
  rw [Cursor.behind, Nat.add_comm 1, Nat.add_comm 1, same] at cursor
  exact Nat.ne_of_lt position cursor

theorem lastLine_concat (other : c ≠ '\n') : lastLine (front ++ [c]) = lastLine front ++ [c] :=
  List.rtakeWhile_concat_pos _ _ _ (by simpa using other)

theorem length_le_sum_units16 (cs : List Char) : cs.length ≤ (cs.map units16).sum := by
  induction cs with
  | nil => exact Nat.le_refl _
  | cons c cs ih =>
      have filled := units16_pos c
      rw [List.length_cons, List.map_cons, List.sum_cons]
      omega

theorem Cursor.le_toOffset (other : c ≠ '\n') (back : List Char) {column : Nat}
    (behind : (lastLine front).length < column) :
    byteLength front + c.utf8Size ≤
      (Cursor.lineColumn (front.count '\n' + 1) (column + 1)).toOffset (front ++ c :: back) := by
  obtain ⟨start, found, place⟩ := exists_line_behind (front ++ [c]) back
  have same : (front ++ [c]).count '\n' = front.count '\n' := by
    simp [List.count_append, other]
  rw [same, List.append_assoc, List.singleton_append, lastLine_concat other] at found
  rw [lastLine_concat other, byteLength_append] at place
  have long : (lastLine front ++ [c]).length ≤ column := by
    rw [List.length_append]
    exact behind
  rw [toOffset_of_line found, List.take_append, List.take_of_length_le long]
  simp only [byteLength_append, byteLength_cons, byteLength_nil] at place ⊢
  omega

theorem countedAlike_of_same (same : ∀ number column,
    (Cursor.lineColumn (number + 1) (column + 1)).toOffset (front ++ c :: back) =
      (⟨number, column⟩ : Position).toOffset (front ++ c :: back)) : CountedAlike c := by
  have split : front ++ c :: back = front ++ [c] ++ back := by simp
  have plain := return_not_mem_lastLine same
  by_cases newline : c = '\n'
  · subst newline
    exact ⟨by decide, by decide⟩
  · refine ⟨?_, ?_⟩
    · rintro rfl
      rw [split] at same
      have plain' := return_not_mem_lastLine same
      rw [lastLine_concat newline] at plain'
      simp at plain'
    · by_contra beyond
      -- A column one past the place is inside the surrogate pair.
      have two : units16 c = 2 := if_neg beyond
      have position := Position.toOffset_beside plain (c :: back) 1
      have return_ : c ≠ '\r' := by
        rintro rfl
        exact beyond (by decide)
      have nothing : takeWithin units16 1 (((c :: back).takeWhile (· ≠ '\n')).takeWhile (· ≠ '\r')) =
          [] := by
        simp [newline, return_, takeWithin, two]
      have cursor := @Cursor.le_toOffset front c newline back (1 + ((lastLine front).map units16).sum)
        (by have := length_le_sum_units16 (lastLine front); omega)
      have size := c.utf8Size_pos
      rw [same, position, nothing, byteLength_nil] at cursor
      omega

end

/-- For every place of a text the cursor that counts newlines and characters before it leads back to it,
and the position that counts newlines and UTF-16 code units does unless a carriage return stands since
the last newline. A cursor and a position with the same line and column, past the end or not, are the
same place in all cases just if every character is counted alike: in texts without carriage returns,
those with characters of the basic plane only. -/
theorem toOffset_before (cs : List Char) :
    (∀ offset, isBoundary offset cs = true →
      (Cursor.behind (before offset cs)).toOffset cs = offset ∧
        ((Position.behind (before offset cs)).toOffset cs = offset ↔
          '\r' ∉ lastLine (before offset cs))) ∧
      ((∀ line column, (Cursor.lineColumn (line + 1) (column + 1)).toOffset cs =
          (⟨line, column⟩ : Position).toOffset cs) ↔ ∀ c ∈ cs, CountedAlike c) := by
  refine ⟨fun offset boundary => ?_, fun same c member => ?_, toOffset_eq_of_alike⟩
  · obtain ⟨front, back, rfl, rfl⟩ := isBoundary_iff.mp boundary
    rw [before_byteLength_append]
    exact ⟨Cursor.toOffset_behind front back, Position.toOffset_behind_iff front back⟩
  · obtain ⟨front, back, rfl⟩ := List.append_of_mem member
    exact countedAlike_of_same same

/-- The clef has two code units. Without it the two agree, also past the end of a line or of the text. -/
theorem toOffset_before_clef :
    isBoundary 8 ['a', '\n', 'é', '𝄞', 'x'] = true ∧
      before 8 ['a', '\n', 'é', '𝄞', 'x'] = ['a', '\n', 'é', '𝄞'] ∧
      (Cursor.lineColumn 2 3).toOffset ['a', '\n', 'é', '𝄞', 'x'] = 8 ∧
      (⟨1, 3⟩ : Position).toOffset ['a', '\n', 'é', '𝄞', 'x'] = 8 ∧
      (∀ c ∈ ['a', '\n', 'é', 'x'], CountedAlike c) ∧
      ∀ line column, (Cursor.lineColumn (line + 1) (column + 1)).toOffset ['a', '\n', 'é', 'x'] =
        (⟨line, column⟩ : Position).toOffset ['a', '\n', 'é', 'x'] := by
  have front : before 8 ['a', '\n', 'é', '𝄞', 'x'] = ['a', '\n', 'é', '𝄞'] := by decide
  have boundary : isBoundary 8 ['a', '\n', 'é', '𝄞', 'x'] = true := by decide
  have place := (toOffset_before ['a', '\n', 'é', '𝄞', 'x']).1 8 boundary
  have alike : ∀ c ∈ ['a', '\n', 'é', 'x'], CountedAlike c := by
    simp only [List.forall_mem_cons, List.not_mem_nil, false_imp_iff, implies_true, and_true]
    decide
  rw [front] at place
  refine ⟨boundary, front, place.1, place.2.mpr (by decide), alike, ?_⟩
  exact (toOffset_before ['a', '\n', 'é', 'x']).2.mpr alike

end Text

end MuCompletion
