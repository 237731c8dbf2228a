import MuCompletion.Error
import MuCompletion.Text.Bytes

/-!
# Edits

An `Edit` replaces a range of bytes by a text. It fits a text when its range is ordered, within the
text and on character boundaries. A `TextChange` is what an edit means for offsets: where it starts,
where the replaced and the replacing text end, and by how far everything after it moves.
-/

namespace MuCompletion

/-- A replacement of a range of bytes in a text. -/
structure Edit where
  /-- The first byte replaced. -/
  start : Nat
  /-- The byte after the last one replaced. -/
  stop : Nat
  /-- The text that takes their place. -/
  insert : String
  deriving DecidableEq, Repr

/-- The offsets of a replacement of `[start, oldStop)` by `[start, newStop)`. -/
structure TextChange where
  /-- Where both texts begin to differ. -/
  start : Nat
  /-- The end of the replaced range in the old text. -/
  oldStop : Nat
  /-- The end of the replacing range in the new text. -/
  newStop : Nat
  /-- The distance by which everything after the replaced range moves. -/
  delta : Int
  deriving DecidableEq, Repr

namespace TextChange

/-- The change between two ends; what follows moves by the distance between them. -/
def between (start oldStop newStop : Nat) : TextChange :=
  ⟨start, oldStop, newStop, newStop - oldStop⟩

/-- The change between two ends given as 64-bit words; the distance is a signed word, which wraps. -/
def ofWords (start oldStop newStop : UInt64) : TextChange :=
  ⟨start.toNat, oldStop.toNat, newStop.toNat,
    ((newStop.toNat : Int) - (oldStop.toNat : Int)).bmod 0x10000000000000000⟩

end TextChange

namespace Edit

/-- Whether the edit's range is ordered, within the text and on character boundaries. -/
def fits (edit : Edit) (text : String) : Bool :=
  edit.start ≤ edit.stop && Text.isBoundary edit.start text.toList &&
    Text.isBoundary edit.stop text.toList

/-- Refuses an edit that does not fit the text. -/
def check (edit : Edit) (text : String) : Except RequestError Unit :=
  if edit.fits text then .ok ()
  else .error (.editOutOfBounds edit.start edit.stop (Text.byteLength text.toList))

/-- The text that the edit removes. -/
def removed (edit : Edit) (text : String) : String :=
  String.ofList (Text.slice edit.start edit.stop text.toList)

/-- The text after the edit. -/
def apply (edit : Edit) (text : String) : String :=
  String.ofList
    (Text.before edit.start text.toList ++ edit.insert.toList ++ Text.after edit.stop text.toList)

/-- The offsets of the edit. -/
def change (edit : Edit) : TextChange :=
  .between edit.start edit.stop (edit.start + Text.byteLength edit.insert.toList)

end Edit

end MuCompletion
