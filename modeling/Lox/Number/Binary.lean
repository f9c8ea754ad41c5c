/-
Finite doubles as exact numbers.

A finite double is a sign and a magnitude `significand * 2 ^ exponent`.  Everything that is
written about a number (its digits, whether it is an integer) is decided on this magnitude in
exact natural arithmetic:

* `Binary.numerator`, `Binary.denominator` — the magnitude as a quotient of naturals;
* `Binary.readsBack` — a decimal lies among the reals that round to the magnitude.

Design notes: the interval test compares products of naturals, so nothing is rounded; both ends
of the interval belong to it exactly when the significand is even, as ties round to even.
-/
namespace Lox.Number

/-- A finite magnitude, `significand * 2 ^ exponent`.  `narrowBelow` holds of powers of two, where
the gap to the next smaller double is half of the gap to the next larger one. -/
structure Binary where
  significand : Nat
  exponent : Int
  narrowBelow : Bool

/-- A decimal, `digits * 10 ^ exponent`. -/
structure Decimal where
  digits : Nat
  exponent : Int
deriving Repr, DecidableEq

/-- The sign bit; it is set for `-0.0` too. -/
def isNegative (x : Float) : Bool :=
  x.toBits >>> 63 == 1

namespace Binary

/-- The magnitude of a finite double; NaN and the infinities have none. -/
def ofFloat (x : Float) : Binary :=
  let bits := x.toBits
  let biased := ((bits >>> 52) &&& 0x7FF).toNat
  let fraction := (bits &&& 0xFFFFFFFFFFFFF).toNat
  if biased = 0 then ⟨fraction, -1074, false⟩
  else ⟨Nat.pow 2 52 + fraction, (biased : Int) - 1075, fraction = 0 && 1 < biased⟩

/-- With `denominator`, the magnitude as a quotient of naturals. -/
def numerator (b : Binary) : Nat :=
  b.significand * Nat.pow 2 b.exponent.toNat

/-- A power of two, `1` unless the exponent is negative. -/
def denominator (b : Binary) : Nat :=
  Nat.pow 2 (-b.exponent).toNat

/-- The magnitude has no fractional part. -/
def isInteger (b : Binary) : Bool :=
  b.numerator % b.denominator = 0

/-- The magnitude without its fractional part. -/
def floor (b : Binary) : Nat :=
  b.numerator / b.denominator

end Binary

/-- Compares `a * 10 ^ i` with `n * 2 ^ j`, exactly. -/
def compareScaled (a : Nat) (i : Int) (n : Nat) (j : Int) : Ordering :=
  compare (a * Nat.pow 10 i.toNat * Nat.pow 2 (-j).toNat)
    (n * Nat.pow 2 j.toNat * Nat.pow 10 (-i).toNat)

/-- `d` lies among the reals that round to `b`, the nearest double with ties to even. -/
def Binary.readsBack (b : Binary) (d : Decimal) : Bool :=
  let low := if b.narrowBelow then 4 * b.significand - 1 else 4 * b.significand - 2
  let high := 4 * b.significand + 2
  let closed := b.significand % 2 == 0
  let aboveLow := compareScaled d.digits d.exponent low (b.exponent - 2)
  let belowHigh := compareScaled d.digits d.exponent high (b.exponent - 2)
  (aboveLow == .gt || (closed && aboveLow == .eq)) &&
    (belowHigh == .lt || (closed && belowHigh == .eq))

end Lox.Number
