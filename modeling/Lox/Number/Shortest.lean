/-
The fewest digits that read back.

For a positive magnitude `b` the decimals with `n` significant digits form a grid.  `shortest`
takes the first `n` for which the grid has a point among the reals that round to `b`; such a
point is then one of the two grid neighbours of `b`, and the nearer one is chosen.

Design notes: two neighbours can be equally near.  Which one is then written is the writer's
decision (`Tie`), not a matter of arithmetic.  Seventeen digits always suffice for a double; the
exact decimal stands behind them, so the function is total and never guesses.
-/
import Lox.Number.Binary

namespace Lox.Number

/-- Which of two equally near decimals is written. -/
inductive Tie where
  /-- the larger one -/
  | up
  /-- the one with the even last digit -/
  | even
deriving DecidableEq

/-- The number of decimal digits of a positive natural. -/
def digitCount (n : Nat) : Nat :=
  (Nat.toDigits 10 n).length

/-- The least `k` with `b < 10 ^ k`, for a positive magnitude. -/
def Binary.scale (b : Binary) : Int :=
  if b.denominator ≤ b.numerator then digitCount b.floor
  else 1 - (digitCount ((b.denominator - 1) / b.numerator) : Int)

/-- The largest multiple of `10 ^ grid` up to `b`, counted in that unit. -/
def Binary.gridFloor (b : Binary) (grid : Int) : Nat :=
  b.numerator * Nat.pow 10 (-grid).toNat / (b.denominator * Nat.pow 10 grid.toNat)

/-- Of the neighbours `d` and `d + 1` on a grid, the one nearer to `b`. -/
def Binary.nearer (b : Binary) (tie : Tie) (d : Nat) (grid : Int) : Nat :=
  match compareScaled (2 * d + 1) grid (2 * b.significand) b.exponent, tie with
  | .gt, _ => d
  | .lt, _ => d + 1
  | .eq, .up => d + 1
  | .eq, .even => if d % 2 = 0 then d else d + 1

/-- The neighbour of `b` on a grid that reads back, the nearer one if both do. -/
def Binary.onGrid (b : Binary) (tie : Tie) (grid : Int) : Option Decimal :=
  let d := b.gridFloor grid
  match b.readsBack ⟨d, grid⟩, b.readsBack ⟨d + 1, grid⟩ with
  | true, true => some ⟨b.nearer tie d grid, grid⟩
  | true, false => some ⟨d, grid⟩
  | false, true => some ⟨d + 1, grid⟩
  | false, false => none

/-- Moves trailing zeros of the digits into the exponent, at most `limit` of them. -/
def Decimal.stripZeros : Nat → Decimal → Decimal
  | 0, d => d
  | limit + 1, d =>
    if d.digits % 10 = 0 then stripZeros limit ⟨d.digits / 10, d.exponent + 1⟩ else d

/-- The exact decimal value of a magnitude. -/
def Binary.exact (b : Binary) : Decimal :=
  if 0 ≤ b.exponent then ⟨b.significand * Nat.pow 2 b.exponent.toNat, 0⟩
  else ⟨b.significand * Nat.pow 5 (-b.exponent).toNat, b.exponent⟩

/-- The decimal with the fewest digits that reads back to `b`, a positive magnitude. -/
def Binary.shortest (b : Binary) (tie : Tie) : Decimal :=
  let scale := b.scale
  let found := (List.range 17).findSome? fun (n : Nat) => b.onGrid tie (scale - (n + 1 : Nat))
  (found.getD b.exact).stripZeros 17

end Lox.Number
