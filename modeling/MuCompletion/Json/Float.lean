import MuCompletion.Decimal.Shortest
import MuCompletion.Json.Basic

/-!
# JSON numbers as floating-point numbers

A number that is not a machine integer is read as a 64-bit float: its leading digits, as many as fit
into 64 bits, scaled by a power of ten. Its text is the shortest decimal that reads back, positional
with a point where the point lies within the first sixteen digits or at most four zeros before them,
and with a signed exponent otherwise.
-/

namespace MuCompletion.Json

namespace Number

/-- Append digits to a significand while it fits into 64 bits; also the number of digits that were
appended. -/
def extend (significand : Nat) : List Char → Nat × Nat
  | [] => (significand, 0)
  | d :: ds =>
    let longer := 10 * significand + (d.toNat - '0'.toNat)
    if longer < 0x10000000000000000 then
      let (result, taken) := extend longer ds
      (result, taken + 1)
    else (significand, 0)

/-- A float divided by a power of ten, in steps that a float can hold. -/
def divideByPower (x : Float) (n : Nat) : Float :=
  if n ≤ 308 then x / Float.ofScientific 1 false n
  else if x == 0 then x
  else divideByPower (x / Float.ofScientific 1 false 308) (n - 308)
termination_by n

/-- The number as a 64-bit float, without its sign. -/
def magnitude (number : Number) : Float :=
  let (wholePart, taken) := extend 0 number.whole
  let (significand, fractional) := extend wholePart number.fraction
  let scale := ((number.whole.length - taken : Nat) : Int) - fractional + number.exponent.getD 0
  let x := Float.ofNat significand
  if 0 ≤ scale then x * Float.ofScientific 1 false scale.toNat
  else divideByPower x (-scale).toNat

end Number

/-- The text of a decimal: positional near the point, with a signed exponent further away. -/
def decimalText (decimal : Decimal) : String :=
  let digits := Nat.toDigits 10 decimal.digits
  let length := digits.length
  let point : Int := length + decimal.exponent
  let chars :=
    if 0 ≤ decimal.exponent && point ≤ 16 then
      digits ++ List.replicate decimal.exponent.toNat '0' ++ ['.', '0']
    else if 0 < point && point ≤ 16 then
      digits.take point.toNat ++ ['.'] ++ digits.drop point.toNat
    else if -5 < point && point ≤ 0 then
      ['0', '.'] ++ List.replicate (-point).toNat '0' ++ digits
    else
      let mantissa := if length = 1 then digits else digits.take 1 ++ ['.'] ++ digits.drop 1
      let sign := if point < 1 then '-' else '+'
      mantissa ++ ['e', sign] ++ Nat.toDigits 10 (point - 1).natAbs
  String.ofList chars

/-- The number as the text of a 64-bit float. -/
def Number.floatText (number : Number) : String :=
  let x := number.magnitude
  let (m, q) := Decimal.binaryParts x
  let text := if m = 0 then "0.0" else decimalText (Decimal.shortest m q)
  if number.negative then "-" ++ text else text

end MuCompletion.Json
