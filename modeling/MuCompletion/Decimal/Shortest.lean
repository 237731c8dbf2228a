/-!
# Shortest decimals

A binary floating-point number stands for every real number that rounds to it. Its shortest decimal
is the one on the coarsest decimal grid that meets these numbers; of two on that grid it is the
nearer one, and the even one where both are as near. All is done in exact arithmetic on the
significand and the exponent.
-/

namespace MuCompletion

/-- The number `digits · 10 ^ exponent`. -/
structure Decimal where
  digits : Nat
  exponent : Int
  deriving DecidableEq, Repr

namespace Decimal

/-- The leading bit of a significand of full length, which is not stored. -/
def hiddenBit : Nat :=
  0x10000000000000

/-- The significand and the power of two of a finite number without its sign. -/
def binaryParts (x : Float) : Nat × Int :=
  let bits := x.toBits.toNat
  let exponent := bits / hiddenBit % 0x800
  let fraction := bits % hiddenBit
  if exponent = 0 then (fraction, -1074) else (fraction + hiddenBit, (exponent : Int) - 1075)

/-- The power of a base as numerator and denominator. -/
def powerParts (base : Nat) (exponent : Int) : Nat × Nat :=
  (Nat.pow base exponent.toNat, Nat.pow base (-exponent).toNat)

/-- The point of the grid of `10 ^ k` that rounds to `m · 2 ^ q`, the nearer one if there are two. The
bounds of the numbers that round to `m · 2 ^ q` lie half a step away; below a power of two the steps
are half as wide. -/
def onGrid? (m : Nat) (q : Int) (k : Int) : Option Nat :=
  let (gridNum, gridDen) := powerParts 10 k
  let (unitNum, unitDen) := powerParts 2 (q - 2)
  let grid := gridNum * unitDen
  let unit := unitNum * gridDen
  let value := 4 * m * unit
  let low := (4 * m - (if m = hiddenBit && -1074 < q then 1 else 2)) * unit
  let high := (4 * m + 2) * unit
  let even := m % 2 == 0
  let meets (d : Nat) : Bool :=
    (low < d * grid || (even && low = d * grid)) && (d * grid < high || (even && d * grid = high))
  let below := value / grid
  let above := below + 1
  match meets below, meets above with
  | true, true =>
    let down := value - below * grid
    let up := above * grid - value
    if down < up || (down = up && below % 2 = 0) then some below else some above
  | true, false => some below
  | false, true => some above
  | false, false => none

/-- The shortest decimal of `m · 2 ^ q`, for a positive `m` of at most 53 bits and a `q` from -1074 to
971. -/
def shortest (m : Nat) (q : Int) : Decimal :=
  let found := (List.range 653).findSome? fun (step : Nat) =>
    let k : Int := 309 - step
    (onGrid? m q k).map fun d => (⟨d, k⟩ : Decimal)
  found.getD ⟨0, 0⟩

end Decimal

end MuCompletion
