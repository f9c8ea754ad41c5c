/-
Doubles and the reals that round to them.

The reals that round to a double lie between the two points halfway to its neighbours.  The doubles
without a sign are numbered by their bits, and where the reals of one of them end those of the next
one begin.  So a decimal that reads back to a double reads back to no other one.

* `Binary.value`, `Decimal.value` — magnitudes and decimals as rational numbers;
* `Binary.Rounds`, `readsBack_iff` — what it is to read back;
* `Binary.numbered` — the magnitude of a double without a sign, by its bits;
* `high_numbered` — where the reals that round to one double end, and those of the next begin;
* `eq_of_rounds` — no number rounds to two doubles.

Design notes: both ends of an interval belong to it if its number is even, and of two neighbours one
has an odd number, so that a common end belongs to one of them.
-/
import Lox.Number.Shortest
import Mathlib.Algebra.Order.Field.Power
import Mathlib.Algebra.Order.Field.Rat
import Mathlib.Order.Monotone.Basic
import Mathlib.Tactic.FieldSimp
import Mathlib.Tactic.Linarith
import Mathlib.Tactic.Positivity
import Mathlib.Tactic.Ring

namespace Lox.Number

/-! ### Values -/

/-- The value of a decimal. -/
def Decimal.value (d : Decimal) : ℚ :=
  d.digits * 10 ^ d.exponent

namespace Binary

/-- The value of a magnitude. -/
def value (b : Binary) : ℚ :=
  b.significand * 2 ^ b.exponent

/-- The point halfway to the next smaller double. -/
def low (b : Binary) : ℚ :=
  ((if b.narrowBelow then 4 * b.significand - 1 else 4 * b.significand - 2 : Nat) : ℚ) *
    2 ^ (b.exponent - 2)

/-- The point halfway to the next larger double. -/
def high (b : Binary) : ℚ :=
  ((4 * b.significand + 2 : Nat) : ℚ) * 2 ^ (b.exponent - 2)

/-- The number rounds to the double, of two that are equally near the even one. -/
def Rounds (b : Binary) (q : ℚ) : Prop :=
  (b.low < q ∨ b.significand % 2 = 0 ∧ q = b.low) ∧
    (q < b.high ∨ b.significand % 2 = 0 ∧ q = b.high)

end Binary

/-! ### Comparing -/

/-- A power with a negative exponent is a quotient. -/
theorem zpow_mul_pow_toNat {b : ℚ} (hb : b ≠ 0) (i : Int) :
    b ^ i * b ^ (-i).toNat = b ^ i.toNat := by
  rw [← zpow_natCast b (-i).toNat, ← zpow_natCast b i.toNat, ← zpow_add₀ hb]
  congr 1
  omega

section

variable {a n : Nat} {i j : Int}

/-- Both sides of a comparison, times the denominators, are natural numbers. -/
theorem scaled_eq (a n : Nat) (i j : Int) :
    (a : ℚ) * 10 ^ i * (10 ^ (-i).toNat * 2 ^ (-j).toNat) =
        ((a * Nat.pow 10 i.toNat * Nat.pow 2 (-j).toNat : Nat) : ℚ) ∧
      (n : ℚ) * 2 ^ j * (10 ^ (-i).toNat * 2 ^ (-j).toNat) =
        ((n * Nat.pow 2 j.toNat * Nat.pow 10 (-i).toNat : Nat) : ℚ) := by
  simp only [Nat.pow_eq]
  push_cast
  rw [← zpow_mul_pow_toNat (b := (10 : ℚ)) (by norm_num) i,
    ← zpow_mul_pow_toNat (b := (2 : ℚ)) (by norm_num) j]
  constructor
  · ring
  · ring

theorem compareScaled_eq_gt : compareScaled a i n j = .gt ↔ (n : ℚ) * 2 ^ j < a * 10 ^ i := by
  have hscale : (0 : ℚ) < 10 ^ (-i).toNat * 2 ^ (-j).toNat := by positivity
  rw [compareScaled, Nat.compare_eq_gt, ← Nat.cast_lt (α := ℚ), ← (scaled_eq a n i j).1,
    ← (scaled_eq a n i j).2, mul_lt_mul_iff_left₀ hscale]

theorem compareScaled_eq_lt : compareScaled a i n j = .lt ↔ (a : ℚ) * 10 ^ i < n * 2 ^ j := by
  have hscale : (0 : ℚ) < 10 ^ (-i).toNat * 2 ^ (-j).toNat := by positivity
  rw [compareScaled, Nat.compare_eq_lt, ← Nat.cast_lt (α := ℚ), ← (scaled_eq a n i j).1,
    ← (scaled_eq a n i j).2, mul_lt_mul_iff_left₀ hscale]

theorem compareScaled_eq_eq : compareScaled a i n j = .eq ↔ (a : ℚ) * 10 ^ i = n * 2 ^ j := by
  have hscale : (0 : ℚ) < 10 ^ (-i).toNat * 2 ^ (-j).toNat := by positivity
  rw [compareScaled, Nat.compare_eq_eq, ← Nat.cast_inj (R := ℚ), ← (scaled_eq a n i j).1,
    ← (scaled_eq a n i j).2, mul_left_inj' hscale.ne']

end

/-- A decimal reads back if its value rounds to the double. -/
theorem readsBack_iff (b : Binary) (d : Decimal) : b.readsBack d = true ↔ b.Rounds d.value := by
  unfold Binary.readsBack Binary.Rounds
  simp only [Bool.and_eq_true, Bool.or_eq_true, beq_iff_eq, compareScaled_eq_gt,
    compareScaled_eq_lt, compareScaled_eq_eq]
  rfl

/-! ### Doubles in their order -/

namespace Binary

/-- The magnitude of the double without a sign that has these bits. -/
def numbered (n : Nat) : Binary :=
  if n / 2 ^ 52 = 0 then ⟨n % 2 ^ 52, -1074, false⟩
  else ⟨2 ^ 52 + n % 2 ^ 52, (n / 2 ^ 52 : Nat) - 1075, n % 2 ^ 52 = 0 && 1 < n / 2 ^ 52⟩

theorem low_lt_high (b : Binary) : b.low < b.high := by
  refine mul_lt_mul_of_pos_right (Nat.cast_lt.mpr ?_) (by positivity)
  split <;> omega

/-- The last bit of a double is that of its significand. -/
theorem significand_numbered (n : Nat) : (numbered n).significand % 2 = n % 2 := by
  unfold numbered
  split
  · show n % 2 ^ 52 % 2 = n % 2
    omega
  · show (2 ^ 52 + n % 2 ^ 52) % 2 = n % 2
    omega

/-- With the same exponent, the next double has the next significand. -/
theorem high_eq_low {s : Nat} (e : Int) (narrow : Bool) :
    (⟨s, e, narrow⟩ : Binary).high = (⟨s + 1, e, false⟩ : Binary).low := by
  have hnext : 4 * (s + 1) - 2 = 4 * s + 2 := by omega
  show ((4 * s + 2 : Nat) : ℚ) * 2 ^ (e - 2) = ((4 * (s + 1) - 2 : Nat) : ℚ) * 2 ^ (e - 2)
  rw [hnext]

/-- A power of two is closer to the double below it, which has the exponent before. -/
theorem high_eq_low_narrow (e : Int) (narrow : Bool) :
    (⟨2 ^ 53 - 1, e, narrow⟩ : Binary).high = (⟨2 ^ 52, e + 1, true⟩ : Binary).low := by
  have hexponent : e + 1 - 2 = e - 2 + 1 := by omega
  show ((4 * (2 ^ 53 - 1) + 2 : Nat) : ℚ) * 2 ^ (e - 2) =
    ((4 * 2 ^ 52 - 1 : Nat) : ℚ) * 2 ^ (e + 1 - 2)
  rw [hexponent, zpow_add_one₀ (by norm_num)]
  norm_num
  ring

/-- Where the reals that round to one double end, those of the next one begin. -/
theorem high_numbered (n : Nat) : (numbered n).high = (numbered (n + 1)).low := by
  have hlt := Nat.mod_lt n (Nat.two_pow_pos 52)
  unfold numbered
  by_cases hlast : n % 2 ^ 52 + 1 < 2 ^ 52
  · -- the next double has the same exponent
    have hdiv : (n + 1) / 2 ^ 52 = n / 2 ^ 52 := by omega
    have hmod : (n + 1) % 2 ^ 52 = n % 2 ^ 52 + 1 := by omega
    rw [hdiv, hmod]
    by_cases hz : n / 2 ^ 52 = 0
    · rw [if_pos hz, if_pos hz]
      exact high_eq_low ..
    · rw [if_neg hz, if_neg hz]
      exact high_eq_low ..
  · have hdiv : (n + 1) / 2 ^ 52 = n / 2 ^ 52 + 1 := by omega
    have hmod : (n + 1) % 2 ^ 52 = 0 := by omega
    have hmax : n % 2 ^ 52 = 2 ^ 52 - 1 := by omega
    rw [hdiv, hmod, hmax, if_neg (Nat.succ_ne_zero _)]
    by_cases hz : n / 2 ^ 52 = 0
    · -- the least of the doubles with full precision has the exponent of those below it
      rw [if_pos hz, hz]
      exact high_eq_low ..
    · have hnarrow : 1 < n / 2 ^ 52 + 1 := by omega
      have hexponent : ((n / 2 ^ 52 + 1 : Nat) : Int) - 1075 = (n / 2 ^ 52 : Nat) - 1075 + 1 := by
        omega
      rw [if_neg hz, hexponent, decide_eq_true hnarrow]
      exact high_eq_low_narrow ..

theorem low_numbered_strictMono : StrictMono fun n => (numbered n).low :=
  strictMono_nat_of_lt_succ fun n => (low_lt_high _).trans_eq (high_numbered n)

/-- A number that rounds to a double is no less than the reals that do begin with, and no larger
than those that they end with. -/
theorem Rounds.le {b : Binary} {q : ℚ} (h : b.Rounds q) : b.low ≤ q ∧ q ≤ b.high :=
  ⟨h.1.elim le_of_lt fun he => he.2.ge, h.2.elim le_of_lt fun he => he.2.le⟩

theorem not_rounds_of_lt {m n : Nat} {q : ℚ} (hlt : m < n) (hm : (numbered m).Rounds q)
    (hn : (numbered n).Rounds q) : False := by
  have hbetween : (numbered m).high ≤ (numbered n).low :=
    (high_numbered m).trans_le (low_numbered_strictMono.monotone hlt)
  have hq : q = (numbered m).high := le_antisymm hm.le.2 (hbetween.trans hn.le.1)
  have hq' : q = (numbered n).low := le_antisymm (hm.le.2.trans hbetween) hn.le.1
  -- the two meet in the number, so that they are neighbours, and both of them are even
  have hnext : m + 1 = n :=
    low_numbered_strictMono.injective ((high_numbered m).symm.trans (hq.symm.trans hq'))
  have heven : m % 2 = 0 := by
    rw [← significand_numbered]
    exact (hm.2.resolve_left fun h => h.ne hq).1
  have heven' : n % 2 = 0 := by
    rw [← significand_numbered]
    exact (hn.1.resolve_left fun h => h.ne' hq').1
  omega

/-- No number rounds to two doubles. -/
theorem eq_of_rounds {m n : Nat} {q : ℚ} (hm : (numbered m).Rounds q) (hn : (numbered n).Rounds q) :
    m = n := by
  rcases Nat.lt_trichotomy m n with hlt | he | hlt
  · exact (not_rounds_of_lt hlt hm hn).elim
  · exact he
  · exact (not_rounds_of_lt hlt hn hm).elim

end Binary

end Lox.Number
