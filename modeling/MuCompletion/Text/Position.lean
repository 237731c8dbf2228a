import MuCompletion.Text.Line
import MuCompletion.Text.Span

/-!
# Positions by line and column

Two ways to name a place in a text besides its byte offset. A `Position` counts lines and columns
from zero, the columns in UTF-16 code units; a carriage return ends the part of a line that
columns count. A `Cursor` counts lines and columns from one, the columns in characters. Both go to
the end of the line when the column lies past it, and to the end of the text when the line does.
-/

namespace MuCompletion.Text

/-- A place by line and UTF-16 column, both counted from zero. -/
structure Position where
  /-- The number of newlines before the place. -/
  line : Nat
  /-- The number of UTF-16 code units between the start of the line and the place. -/
  character : Nat
  deriving DecidableEq, Repr

/-- The byte offset of a position. A column inside a surrogate pair goes to the start of its
character. -/
def Position.toOffset (cs : List Char) (position : Position) : Nat :=
  match (linesOf cs)[position.line]? with
  | none => byteLength cs
  | some line =>
    line.start +
      byteLength (takeWithin units16 position.character (line.chars.takeWhile (· ≠ '\r')))

/-- The span between two positions, whichever comes first. -/
def spanBetween (cs : List Char) (first second : Position) : Span :=
  let start := first.toOffset cs
  let stop := second.toOffset cs
  ⟨min start stop, max start stop⟩

/-- Where a user's cursor stands. -/
inductive Cursor where
  | offset (bytes : Nat)
  /-- At a line and a character column, both counted from one; zero means one. -/
  | lineColumn (line column : Nat)
  deriving DecidableEq, Repr

/-- The byte offset of a cursor. An offset stands for itself, also past the end of the text. -/
def Cursor.toOffset (cs : List Char) : Cursor → Nat
  | .offset bytes => bytes
  | .lineColumn line column =>
    match (linesOf cs)[line - 1]? with
    | none => byteLength cs
    | some found => found.start + byteLength (found.chars.take (column - 1))

end MuCompletion.Text
