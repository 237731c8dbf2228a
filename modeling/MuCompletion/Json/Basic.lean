/-!
# JSON values

A JSON value keeps what its document wrote: the digits of a number as they stood, and the members
of an object in their order, repeated names included.
-/

namespace MuCompletion

/-- A number as written: sign, digits before and after the point, and a power of ten. -/
structure Json.Number where
  /-- Whether a minus sign stands in front. -/
  negative : Bool
  whole : List Char
  /-- The digits after the point; none if there is no point. -/
  fraction : List Char
  /-- The power of ten after the exponent letter, if there is one. -/
  exponent : Option Int
  deriving DecidableEq, Repr

inductive Json where
  | null
  | bool (value : Bool)
  | number (value : Json.Number)
  | string (value : String)
  | array (items : List Json)
  | object (members : List (String × Json))

namespace Json

/-- The number that a list of decimal digits writes. -/
def digitsValue (digits : List Char) : Nat :=
  digits.foldl (fun n d => 10 * n + (d.toNat - '0'.toNat)) 0

namespace Number

def ofInt (n : Int) : Number :=
  ⟨n < 0, Nat.toDigits 10 n.natAbs, [], none⟩

/-- The whole number written without point or exponent; a number with either has none, and neither
has minus zero, which a whole number cannot tell from zero. -/
def toInt? (number : Number) : Option Int :=
  let n := digitsValue number.whole
  if number.fraction.isEmpty && number.exponent.isNone then
    if number.negative then (if n = 0 then none else some (-n)) else some n
  else none

end Number

/-- The value of a member: of several with the name, the last one's. -/
def member? (name : String) : Json → Option Json
  | object members => (members.reverse.find? (·.1 == name)).map (·.2)
  | _ => none

def ofNat (n : Nat) : Json :=
  number (.ofInt n)

end Json

end MuCompletion
