/-!
# Byte offsets into text

A text is a list of characters; a position in it is a number of bytes of its UTF-8 form. This
module measures characters (`byteLength`), cuts a text within a budget (`takeWithin`,
`dropWithin`), and rounds an offset down to a character boundary (`floorOffset`). A cut loses
nothing, and what it takes never exceeds its budget.
-/

namespace MuCompletion.Text

/-- The number of bytes that characters take in UTF-8. -/
def byteLength : List Char → Nat
  | [] => 0
  | c :: cs => c.utf8Size + byteLength cs

@[simp] theorem byteLength_nil : byteLength [] = 0 := rfl

@[simp] theorem byteLength_cons (c : Char) (cs : List Char) :
    byteLength (c :: cs) = c.utf8Size + byteLength cs := rfl

@[simp] theorem byteLength_append (cs ds : List Char) :
    byteLength (cs ++ ds) = byteLength cs + byteLength ds := by
  induction cs with
  | nil => simp
  | cons c cs ih => simp [ih, Nat.add_assoc]

/-- The longest run of leading characters whose sizes add up to at most `budget`. -/
def takeWithin (size : Char → Nat) : Nat → List Char → List Char
  | _, [] => []
  | budget, c :: cs =>
    if size c ≤ budget then c :: takeWithin size (budget - size c) cs else []

/-- What `takeWithin` leaves of the text. -/
def dropWithin (size : Char → Nat) : Nat → List Char → List Char
  | _, [] => []
  | budget, c :: cs =>
    if size c ≤ budget then dropWithin size (budget - size c) cs else c :: cs

@[simp] theorem takeWithin_nil (size : Char → Nat) (budget : Nat) :
    takeWithin size budget [] = [] := rfl

@[simp] theorem dropWithin_nil (size : Char → Nat) (budget : Nat) :
    dropWithin size budget [] = [] := rfl

theorem takeWithin_append_dropWithin (size : Char → Nat) (budget : Nat) (cs : List Char) :
    takeWithin size budget cs ++ dropWithin size budget cs = cs := by
  induction cs generalizing budget with
  | nil => rfl
  | cons c cs ih =>
    by_cases fits : size c ≤ budget
    · simp [takeWithin, dropWithin, fits, ih]
    · simp [takeWithin, dropWithin, fits]

theorem byteLength_takeWithin_le (budget : Nat) (cs : List Char) :
    byteLength (takeWithin Char.utf8Size budget cs) ≤ budget := by
  induction cs generalizing budget with
  | nil => exact Nat.zero_le budget
  | cons c cs ih =>
    by_cases fits : c.utf8Size ≤ budget
    · have rest := ih (budget - c.utf8Size)
      simp only [takeWithin, if_pos fits, byteLength_cons]
      omega
    · simp [takeWithin, fits]

/-- The characters that lie wholly before byte `offset`. -/
def before (offset : Nat) (cs : List Char) : List Char :=
  takeWithin Char.utf8Size offset cs

/-- The characters from byte `offset` on; a character that holds the offset inside it is kept. -/
def after (offset : Nat) (cs : List Char) : List Char :=
  dropWithin Char.utf8Size offset cs

@[simp] theorem before_append_after (offset : Nat) (cs : List Char) :
    before offset cs ++ after offset cs = cs :=
  takeWithin_append_dropWithin Char.utf8Size offset cs

/-- The characters between two byte offsets. -/
def slice (start stop : Nat) (cs : List Char) : List Char :=
  before (stop - start) (after start cs)

/-- The greatest character boundary that is at most `offset`; offsets past the end go to the
end. -/
def floorOffset (offset : Nat) (cs : List Char) : Nat :=
  byteLength (before offset cs)

theorem floorOffset_le (offset : Nat) (cs : List Char) : floorOffset offset cs ≤ offset :=
  byteLength_takeWithin_le offset cs

theorem floorOffset_le_byteLength (offset : Nat) (cs : List Char) :
    floorOffset offset cs ≤ byteLength cs := by
  have whole := congrArg byteLength (before_append_after offset cs)
  rw [byteLength_append] at whole
  unfold floorOffset
  omega

/-- Whether `offset` lies on a character boundary of the text, its end included. -/
def isBoundary (offset : Nat) (cs : List Char) : Bool :=
  floorOffset offset cs == offset

/-- The number of code units that a character takes in UTF-16: two beyond the basic plane. -/
def units16 (c : Char) : Nat :=
  if c.val < 0x10000 then 1 else 2

end MuCompletion.Text
