import MuCompletion.Proofs.Text.Split
import MuCompletion.Text.Position

/-! # Offsets of positions

An editor ends a line at a newline, at a carriage return, or at the two together. Here newlines alone
end lines, and a carriage return only ends the part of a line that columns count. The offset of a
position is therefore the one that an editor means as long as no carriage return stands alone on an
earlier line; behind one that does, lines are found too late. In every text the offset is a character
boundary.
-/

namespace MuCompletion

namespace Text

/-! ## Lines as editors end them -/

/-- A character that ends no line, in front of the first of the lines. -/
def extendFirst (start : Nat) (c : Char) : List Line → List Line
  | [] => [⟨start, [c]⟩]
  | line :: rest => ⟨start, c :: line.chars⟩ :: rest

/-- The lines of a text that begins at `start`. A newline, a carriage return or the two together end
a line and belong to none. -/
def editorLines (start : Nat) : List Char → List Line
  | [] => [⟨start, []⟩]
  | '\r' :: '\n' :: cs => ⟨start, []⟩ :: editorLines (start + 2) cs
  | '\n' :: cs => ⟨start, []⟩ :: editorLines (start + 1) cs
  | '\r' :: cs => ⟨start, []⟩ :: editorLines (start + 1) cs
  | c :: cs => extendFirst start c (editorLines (start + c.utf8Size) cs)

/-- The place that a position names among lines, in a text that ends at `stop`: in its line after the
longest run of whole characters that take no more than `character` code units, or else the end. -/
def Position.among (stop : Nat) (lines : List Line) (position : Position) : Nat :=
  match lines[position.line]? with
  | none => stop
  | some line => line.start + byteLength (takeWithin units16 position.character line.chars)

/-- The byte offset that an editor means by a position. -/
def Position.editorOffset (cs : List Char) (position : Position) : Nat :=
  position.among (byteLength cs) (editorLines 0 cs)

/-- The text `back`, behind a carriage return, leaves it alone: it goes on, and not with a newline. -/
def LeavesAlone (back : List Char) : Prop :=
  ∃ c cs, back = c :: cs ∧ c ≠ '\n'

/-! ## Lines as columns count them -/

/-- The lines of a text that begins at `start`, each up to its first carriage return. -/
def columnLines (start : Nat) (cs : List Char) : List Line :=
  (placeLines start (splitLines cs)).map fun line => ⟨line.start, line.chars.takeWhile (· ≠ '\r')⟩

theorem Position.toOffset_eq_among (cs : List Char) (position : Position) :
    position.toOffset cs = position.among (byteLength cs) (columnLines 0 cs) := by
  simp only [toOffset, among, columnLines, linesOf, List.getElem?_map]
  cases (placeLines 0 (splitLines cs))[position.line]? <;> rfl

section

variable {start : Nat} {cs : List Char}

theorem add_byteLength_cons (start : Nat) (c : Char) (cs : List Char) :
    start + byteLength (c :: cs) = start + c.utf8Size + byteLength cs := by
  rw [byteLength_cons, Nat.add_assoc]

theorem columnLines_newline :
    columnLines start ('\n' :: cs) = ⟨start, []⟩ :: columnLines (start + 1) cs := rfl

theorem columnLines_return_newline :
    columnLines start ('\r' :: '\n' :: cs) = ⟨start, []⟩ :: columnLines (start + 2) cs := rfl

/-- A character that ends no line goes in front of the first one, or hides it from columns. -/
theorem columnLines_inside {c : Char} (newline : c ≠ '\n') : ∃ chars rest,
    columnLines (start + c.utf8Size) cs = ⟨start + c.utf8Size, chars⟩ :: rest ∧
      columnLines start (c :: cs) = ⟨start, if c = '\r' then [] else c :: chars⟩ :: rest := by
  cases split : splitLines cs with
  | nil => exact absurd split (splitLines_ne_nil cs)
  | cons line rest =>
      refine ⟨_, _, by rw [columnLines, split, placeLines, List.map_cons], ?_⟩
      simp only [columnLines, splitLines, newline, if_false, split, placeLines, add_byteLength_cons,
        List.map_cons]
      by_cases ends : c = '\r' <;> simp [ends]

end

theorem editorLines_eq_cons (start : Nat) (cs : List Char) :
    ∃ chars rest, editorLines start cs = ⟨start, chars⟩ :: rest := by
  fun_cases editorLines start cs with
  | case5 c cs other newline return_ =>
      cases lines : editorLines (start + c.utf8Size) cs <;> simp [extendFirst]
  | _ => exact ⟨_, _, rfl⟩

/-! ## Where the two agree -/

/-- The two ways to end lines give the same line, or one has only none at the end of the text where
the other has an empty one. -/
def SameLine (stop : Nat) (column editor : Option Line) : Prop :=
  editor = column ∨ column = none ∧ editor = some ⟨stop, []⟩

theorem SameLine.among {stop : Nat} {column editor : List Line} {position : Position}
    (same : SameLine stop column[position.line]? editor[position.line]?) :
    position.among stop column = position.among stop editor := by
  rcases same with same | ⟨none, empty⟩
  · simp only [Position.among, same]
  · simp [Position.among, none, empty]

theorem sameLine {start line : Nat} {cs : List Char}
    (before : ∀ front back, cs = front ++ '\r' :: back → LeavesAlone back → line ≤ front.count '\n') :
    SameLine (start + byteLength cs) (columnLines start cs)[line]? (editorLines start cs)[line]? := by
  fun_induction editorLines start cs generalizing line with
  | case1 start => exact .inl rfl
  | case2 start cs ih =>
      rw [columnLines_return_newline]
      cases line with
      | zero => exact .inl rfl
      | succ line =>
          have rest := @ih line fun front back split alone => by
            simpa using before ('\r' :: '\n' :: front) back (by simp [split]) alone
          have stop : start + byteLength ('\r' :: '\n' :: cs) = start + 2 + byteLength cs :=
            (add_byteLength_cons start '\r' _).trans (add_byteLength_cons (start + 1) '\n' cs)
          rw [stop]
          exact rest
  | case3 start cs ih =>
      rw [columnLines_newline]
      cases line with
      | zero => exact .inl rfl
      | succ line =>
          have rest := @ih line fun front back split alone => by
            simpa using before ('\n' :: front) back (by simp [split]) alone
          have stop : start + byteLength ('\n' :: cs) = start + 1 + byteLength cs :=
            add_byteLength_cons start '\n' cs
          rw [stop]
          exact rest
  | case4 start cs next ih =>
      cases cs with
      | nil =>
          match line with
          | 0 => exact .inl rfl
          | 1 => exact .inr ⟨rfl, rfl⟩
          | _ + 2 => exact .inl rfl
      | cons c cs =>
          have alone : LeavesAlone (c :: cs) := ⟨c, cs, rfl, fun is => next cs (is ▸ rfl)⟩
          obtain rfl : line = 0 := by simpa using before [] (c :: cs) rfl alone
          obtain ⟨chars, rest, -, lines⟩ := @columnLines_inside start (c :: cs) '\r' (by decide)
          simp [lines, SameLine]
  | case5 start c cs pair newline return_ ih =>
      have newline' : c ≠ '\n' := fun is => newline is
      have return' : c ≠ '\r' := fun is => return_ is
      obtain ⟨chars, rest, lines, whole⟩ := @columnLines_inside start cs c newline'
      obtain ⟨chars', rest', lines'⟩ := editorLines_eq_cons (start + c.utf8Size) cs
      have later := @ih line fun front back split alone => by
        simpa [newline'] using before (c :: front) back (by simp [split]) alone
      rw [add_byteLength_cons, whole, lines', extendFirst, if_neg return']
      rw [lines, lines'] at later
      cases line with
      | zero => simpa [SameLine, eq_comm] using later
      | succ line => exact later

/-! ## Where they part -/

theorem among_line_start (stop line : Nat) (lines : List Line) :
    (⟨line, 0⟩ : Position).among stop lines = (lines[line]?.map (·.start)).getD stop := by
  cases found : lines[line]? <;> simp [Position.among, found, takeWithin_zero units16_pos]

theorem start_lt_columnLines_second {start : Nat} {cs : List Char} (some : cs ≠ []) :
    start < ((columnLines start cs)[1]?.map (·.start)).getD (start + byteLength cs) := by
  have filled := byteLength_pos some
  match split : splitLines cs with
  | [] => exact absurd split (splitLines_ne_nil cs)
  | [line] => simpa [columnLines, split, placeLines] using filled
  | line :: next :: rest =>
      simp only [columnLines, split, placeLines, List.map_cons, List.getElem?_cons_succ,
        List.getElem?_cons_zero, Option.map_some, Option.getD_some]
      omega

/-- The line behind a carriage return that stands alone is found too late. -/
theorem editorLines_lt_columnLines {start : Nat} {cs front back : List Char}
    (split : cs = front ++ '\r' :: back) (alone : LeavesAlone back) :
    ∃ line ≤ front.count '\n',
      ((editorLines start cs)[line + 1]?.map (·.start)).getD (start + byteLength cs) <
        ((columnLines start cs)[line + 1]?.map (·.start)).getD (start + byteLength cs) := by
  fun_induction editorLines start cs generalizing front with
  | case1 start => simp at split
  | case2 start cs ih =>
      obtain ⟨c, rest, rfl, other⟩ := alone
      match front with
      | [] => exact absurd (List.cons.inj (List.cons.inj split).2).1.symm other
      | [_] => simp at split
      | _ :: _ :: front =>
          simp only [List.cons_append, List.cons.injEq] at split
          obtain ⟨rfl, rfl, rest⟩ := split
          obtain ⟨line, within, before⟩ := ih rest
          refine ⟨line + 1, by simpa using within, ?_⟩
          have stop : start + byteLength ('\r' :: '\n' :: cs) = start + 2 + byteLength cs :=
            (add_byteLength_cons start '\r' _).trans (add_byteLength_cons (start + 1) '\n' cs)
          rw [stop, columnLines_return_newline]
          exact before
  | case3 start cs ih =>
      match front with
      | [] => simp at split
      | _ :: front =>
          simp only [List.cons_append, List.cons.injEq] at split
          obtain ⟨rfl, rest⟩ := split
          obtain ⟨line, within, before⟩ := ih rest
          refine ⟨line + 1, by simpa using within, ?_⟩
          have stop : start + byteLength ('\n' :: cs) = start + 1 + byteLength cs :=
            add_byteLength_cons start '\n' cs
          rw [stop, columnLines_newline]
          exact before
  | case4 start cs next ih =>
      obtain ⟨c, rest, rfl, other⟩ := alone
      have some : cs ≠ [] := by
        rintro rfl
        cases front <;> simp at split
      refine ⟨0, Nat.zero_le _, ?_⟩
      obtain ⟨chars, later, lines⟩ := editorLines_eq_cons (start + 1) cs
      obtain ⟨chars', later', first, whole⟩ := @columnLines_inside start cs '\r' (by decide)
      have second := @start_lt_columnLines_second (start + 1) cs some
      have stop : start + byteLength ('\r' :: cs) = start + 1 + byteLength cs :=
        add_byteLength_cons start '\r' cs
      have size : '\r'.utf8Size = 1 := by decide
      rw [size] at first
      rw [first] at second
      rw [stop, whole, lines]
      exact second
  | case5 start c cs pair newline return_ ih =>
      have newline' : c ≠ '\n' := fun is => newline is
      match front with
      | [] => exact absurd (List.cons.inj split).1 fun is => return_ is
      | _ :: front =>
          simp only [List.cons_append, List.cons.injEq] at split
          obtain ⟨same, split⟩ := split
          obtain ⟨line, within, before⟩ := ih split
          refine ⟨line, by simpa [← same, newline'] using within, ?_⟩
          obtain ⟨chars, rest, lines, whole⟩ := @columnLines_inside start cs c newline'
          obtain ⟨chars', rest', lines'⟩ := editorLines_eq_cons (start + c.utf8Size) cs
          rw [add_byteLength_cons, whole, lines', extendFirst]
          rw [lines, lines'] at before
          exact before

/-- A position has the offset that an editor means by it, as long as no carriage return stands alone
on an earlier line. Behind each one that does, a line begins earlier for an editor. -/
theorem toOffset_eq_editorOffset_unless_alone (cs : List Char) :
    (∀ position : Position,
      (∀ front back, cs = front ++ '\r' :: back → LeavesAlone back →
        position.line ≤ front.count '\n') →
      position.toOffset cs = position.editorOffset cs) ∧
    ∀ front back, cs = front ++ '\r' :: back → LeavesAlone back →
      ∃ line ≤ front.count '\n',
        (⟨line + 1, 0⟩ : Position).editorOffset cs < (⟨line + 1, 0⟩ : Position).toOffset cs := by
  constructor
  · intro position before
    have same := @sameLine 0 position.line cs before
    rw [Nat.zero_add] at same
    rw [Position.toOffset_eq_among, Position.editorOffset, same.among]
  · intro front back split alone
    obtain ⟨line, within, earlier⟩ := @editorLines_lt_columnLines 0 cs front back split alone
    refine ⟨line, within, ?_⟩
    rw [Position.toOffset_eq_among, Position.editorOffset, among_line_start, among_line_start]
    rwa [Nat.zero_add] at earlier

/-- A return before a newline ends no line of its own, and one before another character does. -/
theorem editorOffset_behind_returns :
    (⟨1, 1⟩ : Position).toOffset ['\r', '\n', 'b'] =
        (⟨1, 1⟩ : Position).editorOffset ['\r', '\n', 'b'] ∧
      ∃ line ≤ 0, (⟨line + 1, 0⟩ : Position).editorOffset ['a', '\r', 'b'] <
        (⟨line + 1, 0⟩ : Position).toOffset ['a', '\r', 'b'] := by
  refine ⟨(toOffset_eq_editorOffset_unless_alone _).1 ⟨1, 1⟩ fun front back split alone => ?_,
    (toOffset_eq_editorOffset_unless_alone _).2 ['a'] ['b'] rfl ⟨'b', [], rfl, by decide⟩⟩
  obtain ⟨c, rest, rfl, other⟩ := alone
  cases front with
  | nil => exact absurd (List.cons.inj (List.cons.inj split).2).1.symm other
  | cons _ front =>
      have member : '\r' ∈ ['\n', 'b'] := by simp [(List.cons.inj split).2]
      exact absurd member (by decide)

/-- The second line that an editor sees begins at the second letter, where no position is found. -/
theorem not_toOffset_eq_editorOffset :
    ¬∀ (cs : List Char) (position : Position), position.toOffset cs = position.editorOffset cs := by
  intro always
  exact absurd (always ['a', '\r', 'b'] ⟨1, 0⟩) (by decide)

/-! ## Boundaries -/

theorem joinLines_eq_append {start number : Nat} {lines : List (List Char)} {line : Line}
    (found : (placeLines start lines)[number]? = some line) :
    ∃ front back, joinLines lines = front ++ line.chars ++ back ∧
      line.start = start + byteLength front := by
  induction lines generalizing start number with
  | nil => simp [placeLines] at found
  | cons chars rest ih =>
      cases number with
      | zero =>
          obtain rfl : ⟨start, chars⟩ = line := by simpa [placeLines] using found
          cases rest with
          | nil => exact ⟨[], [], by simp [joinLines], rfl⟩
          | cons next rest => exact ⟨[], '\n' :: joinLines (next :: rest), rfl, rfl⟩
      | succ number =>
          obtain ⟨front, back, whole, begins⟩ := ih (by simpa [placeLines] using found)
          cases rest with
          | nil => simp [placeLines] at found
          | cons next rest =>
              refine ⟨chars ++ '\n' :: front, back, by simp [joinLines, whole], ?_⟩
              have stop : byteLength chars + byteLength ('\n' :: front) =
                  byteLength chars + 1 + byteLength front := add_byteLength_cons _ '\n' front
              rw [begins, byteLength_append, stop]
              omega

theorem isBoundary_toOffset (cs : List Char) (position : Position) :
    isBoundary (position.toOffset cs) cs = true := by
  rw [isBoundary_iff]
  unfold Position.toOffset
  split
  · exact ⟨cs, [], by simp, rfl⟩
  · next line found =>
      obtain ⟨front, back, whole, begins⟩ := joinLines_eq_append found
      rw [joinLines_splitLines] at whole
      rw [Nat.zero_add] at begins
      have counted := @List.takeWhile_append_dropWhile _ (· ≠ '\r') line.chars
      generalize line.chars.takeWhile (· ≠ '\r') = content,
        line.chars.dropWhile (· ≠ '\r') = hidden at counted ⊢
      have taken := takeWithin_append_dropWithin units16 position.character content
      generalize takeWithin units16 position.character content = inside,
        dropWithin units16 position.character content = beyond at taken ⊢
      refine ⟨front ++ inside, beyond ++ hidden ++ back, ?_, by simp [begins]⟩
      rw [whole, ← counted, ← taken]
      simp

end Text

end MuCompletion
