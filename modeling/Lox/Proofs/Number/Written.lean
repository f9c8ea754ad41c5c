/-
Numbers as they are written.

A text of digits, with a point among them or none, stands for a decimal.  That of a double without a
sign reads back to the double, whatever the style in which it is written, as long as there is no
exponent in it.  So two doubles that are written alike are one.

* `Binary.rounds_value`, `Binary.shortest_rounds` — the exact decimal and
  the shortest one read back;
* `Decimal.ofText` — the decimal for which a text stands;
* `Decimal.positional_spec`, `Style.writeMagnitude_spec` — that of a decimal, and of a magnitude;
* `Style.write_injective` — doubles without a sign that are written alike are one.

Design notes: that the digits are the fewest does not matter here; it matters that those which are
taken read back, and that they fall back on the exact decimal.
-/
import Lox.Number.Style
import Lox.Proofs.Number.Rounding
import Lox.Proofs.Number.Sign
import Mathlib.Data.List.TakeWhile

namespace Lox.Number

/-! ### Decimals that read back -/

namespace Binary

variable {b : Binary}

/-- A double rounds to itself. -/
theorem rounds_value (b : Binary) : b.Rounds b.value := by
  have hpow : (0 : ℚ) < 2 ^ (b.exponent - 2) := by positivity
  have hvalue : b.value = ((4 * b.significand : Nat) : ℚ) * 2 ^ (b.exponent - 2) := by
    have hexponent : b.exponent = b.exponent - 2 + 2 := by omega
    rw [value, hexponent, zpow_add₀ (by norm_num)]
    push_cast
    norm_num
    ring
  have hhigh : b.value < b.high := by
    rw [hvalue]
    exact mul_lt_mul_of_pos_right (Nat.cast_lt.mpr (by omega)) hpow
  refine ⟨?_, .inl hhigh⟩
  rcases Nat.eq_zero_or_pos b.significand with hz | hpos
  · refine .inr ⟨by rw [hz], ?_⟩
    rw [hvalue, low, hz]
    split <;> rfl
  · refine .inl ?_
    rw [hvalue]
    refine mul_lt_mul_of_pos_right (Nat.cast_lt.mpr ?_) hpow
    split <;> omega

theorem value_exact (b : Binary) : b.exact.value = b.value := by
  unfold exact value Decimal.value
  split
  · next he =>
    have hexponent : b.exponent = (b.exponent.toNat : Int) := (Int.toNat_of_nonneg he).symm
    rw [Nat.pow_eq]
    push_cast
    rw [mul_one, ← zpow_natCast, ← hexponent]
  · next he =>
    -- a power of two below the point is one of five above a power of ten
    have hexponent : b.exponent = -((-b.exponent).toNat : Int) := by omega
    have hpow : ((5 : ℚ) ^ (-b.exponent).toNat) * 10 ^ b.exponent = 2 ^ b.exponent := by
      rw [hexponent, zpow_neg, zpow_neg, zpow_natCast, zpow_natCast, neg_neg, Int.toNat_natCast]
      have hten : (10 : ℚ) = 5 * 2 := by norm_num
      rw [hten, mul_pow]
      field_simp
    rw [Nat.pow_eq]
    push_cast
    rw [mul_assoc, hpow]

theorem value_stripZeros (limit : Nat) (d : Decimal) : (d.stripZeros limit).value = d.value := by
  induction limit generalizing d with
  | zero => rfl
  | succ limit ih =>
    unfold Decimal.stripZeros
    split
    · next hd =>
      rw [ih]
      have hdigits : (d.digits : ℚ) = (d.digits / 10 : Nat) * 10 := by
        exact_mod_cast (Nat.div_mul_cancel (Nat.dvd_of_mod_eq_zero hd)).symm
      unfold Decimal.value
      simp only
      rw [zpow_add_one₀ (by norm_num), hdigits]
      ring
    · rfl

theorem readsBack_of_onGrid {tie : Tie} {grid : Int} {d : Decimal}
    (h : b.onGrid tie grid = some d) :
    b.readsBack d = true := by
  unfold onGrid at h
  simp only at h
  split at h
  · next hd hd' =>
    cases h
    unfold nearer
    split
    · exact hd
    · exact hd'
    · exact hd'
    · split
      · exact hd
      · exact hd'
  · next hd _ =>
    cases h
    exact hd
  · next _ hd =>
    cases h
    exact hd
  · cases h

/-- The shortest decimal reads back. -/
theorem shortest_rounds (b : Binary) (tie : Tie) : b.Rounds (b.shortest tie).value := by
  unfold shortest
  simp only
  rw [value_stripZeros]
  cases hfound : (List.range 17).findSome? fun (n : Nat) =>
    b.onGrid tie (b.scale - (n + 1 : Nat)) with
  | none =>
    rw [Option.getD_none, value_exact]
    exact b.rounds_value
  | some d =>
    obtain ⟨n, -, hd⟩ := List.exists_of_findSome?_eq_some hfound
    exact (readsBack_iff b d).mp (readsBack_of_onGrid hd)

end Binary

/-! ### Texts of decimals -/

/-- The decimal for which digits stand, with a point among them or none. -/
def Decimal.ofText (cs : List Char) : Decimal :=
  let fraction := (cs.dropWhile Char.isDigit).drop 1
  ⟨Nat.ofDigitChars 10 (cs.takeWhile Char.isDigit ++ fraction) 0, -fraction.length⟩

/-- The text begins with a digit and has no other characters but digits and points. -/
def Numeric : List Char → Prop
  | [] => False
  | c :: cs => c.isDigit = true ∧ ∀ x ∈ cs, x.isDigit = true ∨ x = '.'

theorem Numeric.exists_cons {text : List Char} (h : Numeric text) :
    ∃ c cs, text = c :: cs ∧ c.isDigit = true ∧ ∀ x ∈ cs, x.isDigit = true ∨ x = '.' := by
  cases text with
  | nil => exact h.elim
  | cons c cs => exact ⟨c, cs, rfl, h⟩

section

variable {ws fs : List Char}

theorem ofText_whole (hw : ∀ x ∈ ws, x.isDigit = true) :
    Decimal.ofText ws = ⟨Nat.ofDigitChars 10 ws 0, 0⟩ := by
  unfold Decimal.ofText
  rw [List.takeWhile_eq_self_iff.mpr hw, List.dropWhile_eq_nil_iff.mpr hw, List.drop_nil]
  simp only [List.append_nil]
  rfl

theorem ofText_point (hw : ∀ x ∈ ws, x.isDigit = true) :
    Decimal.ofText (ws ++ '.' :: fs) = ⟨Nat.ofDigitChars 10 (ws ++ fs) 0, -fs.length⟩ := by
  have htake : ('.' :: fs).takeWhile Char.isDigit = [] := rfl
  have hdrop : ('.' :: fs).dropWhile Char.isDigit = '.' :: fs := rfl
  unfold Decimal.ofText
  rw [List.takeWhile_append_of_pos hw, List.dropWhile_append_of_pos hw, htake, hdrop,
    List.append_nil]
  rfl

theorem numeric_whole (hne : ws ≠ []) (hw : ∀ x ∈ ws, x.isDigit = true) : Numeric ws := by
  cases ws with
  | nil => exact hne rfl
  | cons c cs =>
    obtain ⟨hc, hcs⟩ := List.forall_mem_cons.mp hw
    exact ⟨hc, fun x hx => .inl (hcs x hx)⟩

theorem numeric_point (hne : ws ≠ []) (hw : ∀ x ∈ ws, x.isDigit = true)
    (hf : ∀ x ∈ fs, x.isDigit = true) : Numeric (ws ++ '.' :: fs) := by
  cases ws with
  | nil => exact (hne rfl).elim
  | cons c cs =>
    obtain ⟨hc, hcs⟩ := List.forall_mem_cons.mp hw
    refine ⟨hc, fun x hx => ?_⟩
    rcases List.mem_append.mp hx with hx | hx
    · exact .inl (hcs x hx)
    · rcases List.mem_cons.mp hx with rfl | hx
      · exact .inr rfl
      · exact .inl (hf x hx)

end

/-- A text that stands for a value. -/
structure Denotes (cs : List Char) (q : ℚ) : Prop where
  numeric : Numeric cs
  value : (Decimal.ofText cs).value = q

theorem isDigit_of_mem_toDigits {n : Nat} : ∀ x ∈ Nat.toDigits 10 n, x.isDigit = true :=
  fun _ hx => Nat.isDigit_of_mem_toDigits (by decide) (by decide) hx

theorem isDigit_of_mem_replicate {n : Nat} : ∀ x ∈ List.replicate n '0', x.isDigit = true := by
  intro x hx
  rw [List.eq_of_mem_replicate hx]
  rfl

/-- An integer, with `.0` behind it or not. -/
theorem denotes_integer (n k : Nat) (point : Bool) :
    Denotes (Nat.toDigits 10 n ++ List.replicate k '0' ++ (if point then ['.', '0'] else []))
      (n * 10 ^ k) := by
  have hdigits : ∀ x ∈ Nat.toDigits 10 n ++ List.replicate k '0', x.isDigit = true :=
    List.forall_mem_append.mpr ⟨isDigit_of_mem_toDigits, isDigit_of_mem_replicate⟩
  have hne : Nat.toDigits 10 n ++ List.replicate k '0' ≠ [] := by simp
  have hvalue : Nat.ofDigitChars 10 (Nat.toDigits 10 n ++ List.replicate k '0') 0 = 10 ^ k * n := by
    rw [Nat.ofDigitChars_append, Nat.ofDigitChars_ten_toDigits, Nat.ofDigitChars_replicate_zero]
  cases point with
  | false =>
    simp only [Bool.false_eq_true, if_false, List.append_nil]
    refine ⟨numeric_whole hne hdigits, ?_⟩
    rw [ofText_whole hdigits, hvalue]
    unfold Decimal.value
    push_cast
    ring
  | true =>
    simp only [if_true]
    refine ⟨numeric_point hne hdigits (by simp), ?_⟩
    rw [ofText_point hdigits, Nat.ofDigitChars_append, hvalue]
    -- the digit behind the point is a zero
    show ((10 * (10 ^ k * n) + 0 : Nat) : ℚ) * 10 ^ (-1 : Int) = n * 10 ^ k
    push_cast
    rw [zpow_neg_one]
    ring

/-- Digits with a point among them. -/
theorem denotes_point {ws fs : List Char} {n : Nat} (hne : ws ≠ [])
    (hdigits : ∀ x ∈ ws ++ fs, x.isDigit = true) (hn : Nat.ofDigitChars 10 (ws ++ fs) 0 = n) :
    Denotes (ws ++ '.' :: fs) (n * 10 ^ (-fs.length : Int)) := by
  obtain ⟨hw, hf⟩ := List.forall_mem_append.mp hdigits
  refine ⟨numeric_point hne hw hf, ?_⟩
  rw [ofText_point hw, hn]
  rfl

/-- The point stands among the digits. -/
theorem denotes_inside {n places : Nat} (hlt : places < (Nat.toDigits 10 n).length) :
    Denotes ((Nat.toDigits 10 n).take ((Nat.toDigits 10 n).length - places) ++
        '.' :: (Nat.toDigits 10 n).drop ((Nat.toDigits 10 n).length - places))
      (n * 10 ^ (-places : Int)) := by
  have hfraction : ((Nat.toDigits 10 n).drop ((Nat.toDigits 10 n).length - places)).length =
      places := by
    rw [List.length_drop]
    omega
  have hne : (Nat.toDigits 10 n).take ((Nat.toDigits 10 n).length - places) ≠ [] := by
    rw [← List.length_pos_iff, List.length_take]
    omega
  have hpoint :=
    @denotes_point _ ((Nat.toDigits 10 n).drop ((Nat.toDigits 10 n).length - places)) n hne
  rw [List.take_append_drop, hfraction] at hpoint
  exact hpoint isDigit_of_mem_toDigits Nat.ofDigitChars_ten_toDigits

/-- The point stands in front of the digits, behind a zero. -/
theorem denotes_below {n places : Nat} (hle : (Nat.toDigits 10 n).length ≤ places) :
    Denotes (['0'] ++ '.' ::
        (List.replicate (places - (Nat.toDigits 10 n).length) '0' ++ Nat.toDigits 10 n))
      (n * 10 ^ (-places : Int)) := by
  have hfraction : (List.replicate (places - (Nat.toDigits 10 n).length) '0' ++
      Nat.toDigits 10 n).length = places := by
    rw [List.length_append, List.length_replicate]
    omega
  have hdigits : ∀ x ∈ ['0'] ++ (List.replicate (places - (Nat.toDigits 10 n).length) '0' ++
      Nat.toDigits 10 n), x.isDigit = true :=
    List.forall_mem_append.mpr ⟨isDigit_of_mem_replicate (n := 1),
      List.forall_mem_append.mpr ⟨isDigit_of_mem_replicate, isDigit_of_mem_toDigits⟩⟩
  have hvalue : Nat.ofDigitChars 10
      (['0'] ++ (List.replicate (places - (Nat.toDigits 10 n).length) '0' ++
        Nat.toDigits 10 n)) 0 = n := by
    -- zeros in front change nothing
    rw [Nat.ofDigitChars_append, Nat.ofDigitChars_append, Nat.ofDigitChars_replicate_zero]
    exact Nat.ofDigitChars_ten_toDigits
  have hpoint := denotes_point (List.cons_ne_nil _ _) hdigits hvalue
  rwa [hfraction] at hpoint

/-- The positional form of a decimal stands for its value. -/
theorem Decimal.positional_spec (d : Decimal) (point : Bool) :
    Denotes (d.positional point).toList d.value := by
  unfold positional value
  simp only
  split
  · next he =>
    have hinteger := denotes_integer d.digits d.exponent.toNat point
    have hexponent : (d.exponent.toNat : Int) = d.exponent := Int.toNat_of_nonneg he
    rw [← zpow_natCast, hexponent] at hinteger
    cases point <;> simpa [zeros] using hinteger
  · next he =>
    have hplaces : -((-d.exponent).toNat : Int) = d.exponent := by omega
    split
    · next hlt =>
      have hinside := denotes_inside hlt
      rw [hplaces] at hinside
      simpa using hinside
    · next hle =>
      have hbelow := denotes_below (Nat.le_of_not_lt hle)
      rw [hplaces] at hbelow
      simpa [zeros] using hbelow

/-! ### Texts of doubles -/

/-- An integer is the value of its magnitude. -/
theorem Binary.value_of_isInteger {b : Binary} (h : b.isInteger = true) : b.value = b.floor := by
  have hmod : b.numerator % b.denominator = 0 := of_decide_eq_true h
  have hfloor : b.floor * b.denominator = b.numerator :=
    Nat.div_mul_cancel (Nat.dvd_of_mod_eq_zero hmod)
  have hdenominator : (b.denominator : ℚ) = 2 ^ (-b.exponent).toNat := by
    rw [denominator, Nat.pow_eq]
    push_cast
    rfl
  have hnumerator : (b.numerator : ℚ) = b.significand * 2 ^ b.exponent.toNat := by
    rw [numerator, Nat.pow_eq]
    push_cast
    rfl
  have hpos : (b.denominator : ℚ) ≠ 0 := by
    rw [hdenominator]
    positivity
  refine mul_right_cancel₀ hpos ?_
  rw [← Nat.cast_mul, hfloor, hnumerator, hdenominator, value, mul_assoc,
    zpow_mul_pow_toNat (by norm_num)]

namespace Style

/-- A style without exponents writes a magnitude as a decimal that reads back. -/
theorem writeMagnitude_spec {s : Style} (hs : s.plain = none) (b : Binary) :
    ∃ q, Denotes (s.writeMagnitude b).toList q ∧ b.Rounds q := by
  unfold writeMagnitude
  split
  · next hexact =>
    have hinteger : b.isInteger = true := (Bool.and_eq_true_iff.mp hexact).1
    have hdenotes := denotes_integer b.floor 0 s.exactPoint
    rw [pow_zero, mul_one, ← Binary.value_of_isInteger hinteger] at hdenotes
    refine ⟨b.value, ?_, b.rounds_value⟩
    cases hp : s.exactPoint <;> simpa [hp] using hdenotes
  · unfold writeShortest
    split
    · next hz =>
      have hvalue : b.value = (0 : Nat) * 10 ^ 0 := by
        rw [Binary.value, hz]
        norm_num
      refine ⟨b.value, ?_, b.rounds_value⟩
      have hdenotes := denotes_integer 0 0 s.shortestPoint
      rw [← hvalue] at hdenotes
      cases hp : s.shortestPoint <;> simpa [hp] using hdenotes
    · rw [hs]
      exact ⟨_, Decimal.positional_spec _ _, b.shortest_rounds s.tie⟩

end Style

section

variable {x y : Float}

theorem isNegative_eq_false (h : Unsigned x) : isNegative x = false := by
  have hlt := h.sign
  have hzero : (x.toBits >>> 63).toNat = 0 := by
    rw [UInt64.toNat_shiftRight, Nat.shiftRight_eq_div_pow]
    exact Nat.div_eq_of_lt hlt
  refine beq_eq_false_iff_ne.mpr fun hone => ?_
  rw [hone] at hzero
  cases hzero

/-- The magnitude of a double without a sign is the one that its bits number. -/
theorem ofFloat_eq (h : Unsigned x) : Binary.ofFloat x = .numbered x.toBits.toNat := by
  have hlt := h.sign
  have hbiased : ((x.toBits >>> 52) &&& 0x7FF).toNat = x.toBits.toNat / 2 ^ 52 := by
    rw [UInt64.toNat_and, UInt64.toNat_shiftRight, Nat.shiftRight_eq_div_pow]
    show x.toBits.toNat / 2 ^ 52 &&& 2 ^ 11 - 1 = _
    rw [Nat.and_two_pow_sub_one_eq_mod]
    omega
  have hfraction : (x.toBits &&& 0xFFFFFFFFFFFFF).toNat = x.toBits.toNat % 2 ^ 52 := by
    rw [UInt64.toNat_and]
    show x.toBits.toNat &&& 2 ^ 52 - 1 = _
    rw [Nat.and_two_pow_sub_one_eq_mod]
  unfold Binary.ofFloat Binary.numbered
  simp only [hbiased, hfraction, Nat.pow_eq]

/-- A double is its bits. -/
theorem toBits_injective (h : x.toBits = y.toBits) : x = y := by
  obtain ⟨bits, valid⟩ := x
  obtain ⟨bits', valid'⟩ := y
  cases h
  rfl

/-- A double without a sign is written as a decimal that rounds to it and to no other one. -/
theorem Style.write_spec {s : Style} (hs : s.plain = none) (h : Unsigned x) (hf : x.isInf = false) :
    ∃ q, Denotes (s.write x).toList q ∧ (Binary.numbered x.toBits.toNat).Rounds q := by
  obtain ⟨q, hq, hrounds⟩ := writeMagnitude_spec hs (Binary.ofFloat x)
  refine ⟨q, ?_, ofFloat_eq h ▸ hrounds⟩
  unfold write
  rw [h.number, isNegative_eq_false h, hf]
  simpa using hq

/-- Doubles without a sign that are written alike in a style without exponents are one. -/
theorem Style.write_injective {s : Style} (hs : s.plain = none) (hx : Unsigned x) (hy : Unsigned y)
    (hfx : x.isInf = false) (hfy : y.isInf = false) (h : s.write x = s.write y) : x = y := by
  obtain ⟨q, hq, hrounds⟩ := write_spec hs hx hfx
  obtain ⟨q', hq', hrounds'⟩ := write_spec hs hy hfy
  have hsame : q' = q := by
    rw [← hq.value, ← hq'.value, h]
  rw [hsame] at hrounds'
  exact toBits_injective (UInt64.toNat_inj.mp (Binary.eq_of_rounds hrounds hrounds'))

end

end Lox.Number
