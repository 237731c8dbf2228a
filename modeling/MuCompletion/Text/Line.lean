import MuCompletion.Text.Bytes
import MuCompletion.Text.Blank

/-!
# Lines of a text

A newline ends a line and belongs to none, so a text always has one line more than it has
newlines. Main statement: joining the lines by newlines gives the text back.
-/

namespace MuCompletion.Text

/-- The characters of each line, without the newlines between them. -/
def splitLines : List Char → List (List Char)
  | [] => [[]]
  | c :: cs =>
    if c = '\n' then [] :: splitLines cs
    else match splitLines cs with
      | [] => [[c]]
      | line :: rest => (c :: line) :: rest

/-- Lines joined by newlines. -/
def joinLines : List (List Char) → List Char
  | [] => []
  | [line] => line
  | line :: rest => line ++ '\n' :: joinLines rest

theorem splitLines_ne_nil (cs : List Char) : splitLines cs ≠ [] := by
  cases cs with
  | nil => simp [splitLines]
  | cons c cs =>
    simp only [splitLines]
    split
    · simp
    · split <;> simp

theorem joinLines_splitLines (cs : List Char) : joinLines (splitLines cs) = cs := by
  induction cs with
  | nil => rfl
  | cons c cs ih =>
    cases found : splitLines cs with
    | nil => exact absurd found (splitLines_ne_nil cs)
    | cons line rest =>
      rw [found] at ih
      by_cases newline : c = '\n'
      · simp [splitLines, newline, found, joinLines, ih]
      · cases rest with
        | nil => simpa [splitLines, newline, found, joinLines] using ih
        | cons next rest =>
          simp only [joinLines] at ih
          simp [splitLines, newline, found, joinLines, ih]

/-- A line and where it begins. -/
structure Line where
  /-- The offset of the first character, or of the line's end where it is empty. -/
  start : Nat
  /-- The characters of the line, without its newline. -/
  chars : List Char
  deriving DecidableEq, Repr

namespace Line

/-- The offset of the newline that ends the line, or the end of the text. -/
def stop (line : Line) : Nat :=
  line.start + byteLength line.chars

/-- Whether the line holds blank characters only. -/
def blank (line : Line) : Bool :=
  allBlank line.chars

end Line

/-- Lines placed one after the other, the first at `start`, a newline after each. -/
def placeLines (start : Nat) : List (List Char) → List Line
  | [] => []
  | chars :: rest => ⟨start, chars⟩ :: placeLines (start + byteLength chars + 1) rest

/-- The lines of a text with their offsets. -/
def linesOf (cs : List Char) : List Line :=
  placeLines 0 (splitLines cs)

end MuCompletion.Text
