/-
Numbers without a sign.

A literal in a source has no sign.  What is read from it is a double that has none either, and that
is a number: it may be too large to be finite, but it is not NaN.

* `Positive` — an unpacked double that is no NaN and has no minus sign;
* `positive_unpack_pack` — packing keeps it so;
* `positive_ofScientific` — decimals are read as such doubles;
* `Unsigned` — a double that is written without a sign, and as a number;
* `unsigned_literalValue` — the values of all literals are.

Design notes: reading takes a shorter way for decimals with few digits, on which it divides two
exact doubles.  On both ways only the kinds and signs of doubles are looked at here, and no digit.
-/
import Mathlib
import Lox.Token.Segment

open Float.Model (Format UnpackedFloat)
open Float.Model.UnpackedFloat

namespace Lox.Number

/-! ### Unpacked doubles -/

/-- No NaN, and without a minus sign. -/
def Positive : UnpackedFloat → Prop
  | .notANumber => False
  | .infinity s | .zero s | .finite s _ _ _ => s = .positive

/-- Finite, not zero, and without a minus sign. -/
def isPlain : UnpackedFloat → Bool
  | .finite .positive _ _ _ => true
  | _ => false

section

variable {spec : Format}

theorem unpackSign_packComponents {sign : Sign} {exponent : BitVec spec.exponentBits}
    {mantissa : BitVec spec.mantissaBitsWithoutImplicit} :
    unpackSign (packComponents spec sign exponent mantissa) = sign.toBitVec := by
  refine BitVec.eq_of_getLsbD_eq fun i hi => ?_
  obtain rfl : i = 0 := Nat.lt_one_iff.mp hi
  simp [unpackSign, packComponents, BitVec.getLsbD_append, BitVec.getElem_append]

/-- Only a mantissa behind the exponent of all ones stands for NaN. -/
theorem positive_unpack {exponent : BitVec spec.exponentBits}
    {mantissa : BitVec spec.mantissaBitsWithoutImplicit} (h : exponent = -1#_ → mantissa = 0#_) :
    Positive (unpack spec (packComponents spec .positive exponent mantissa)) := by
  have hsign : Sign.ofBitVec (Sign.positive).toBitVec = .positive := rfl
  unfold unpack
  simp only [unpackMantissa_packComponents, unpackExponent_packComponents,
    unpackSign_packComponents, hsign]
  by_cases he : exponent = -1#_
  · rw [if_pos he, if_pos (h he)]
    rfl
  · rw [if_neg he]
    by_cases hz : exponent = 0#_
    · rw [if_pos hz]
      by_cases hm : mantissa = 0#_
      · rw [dif_pos hm]
        rfl
      · rw [dif_neg hm]
        rfl
    · rw [if_neg hz]
      rfl

/-- Packing a double that fits keeps its sign, and that it is a number. -/
theorem positive_unpack_pack {u : UnpackedFloat} (h : Positive u) :
    Positive (unpack spec (pack spec u)) := by
  cases u with
  | notANumber => exact h.elim
  | infinity s =>
    cases h
    exact positive_unpack fun _ => rfl
  | zero s =>
    cases h
    exact positive_unpack fun _ => rfl
  | finite s m e hm =>
    cases h
    simp only [pack]
    split
    · exact positive_unpack fun _ => rfl
    · next hlt =>
      have hbits := spec.he
      have hpow : 1 < 2 ^ spec.exponentBits := Nat.one_lt_two_pow (Nat.pos_iff_ne_zero.mp hbits)
      split
      · refine positive_unpack fun he => ?_
        -- an exponent that fits is not the one of all ones
        have htoNat := congrArg BitVec.toNat he
        rw [BitVec.toNat_ofNat, Nat.mod_eq_of_lt (by omega), BitVec.neg_one_eq_allOnes,
          BitVec.toNat_allOnes] at htoNat
        omega
      · refine positive_unpack fun he => ?_
        have htoNat := congrArg BitVec.toNat he
        rw [BitVec.toNat_zero, BitVec.neg_one_eq_allOnes, BitVec.toNat_allOnes] at htoNat
        omega

theorem positive_roundWithAccuracy (m : Nat) (e : Int) (accuracy : Accuracy) :
    Positive (roundWithAccuracy spec .positive m e accuracy) := by
  unfold roundWithAccuracy
  simp only
  split
  · rfl
  · rfl

theorem positive_ofNat (n : Nat) : Positive (UnpackedFloat.ofNat spec n) := by
  unfold UnpackedFloat.ofNat ofInt UnpackedFloat.normalize
  rcases Nat.eq_zero_or_pos n with rfl | hn
  · rfl
  · have hgt : compare (n : Int) 0 = .gt := Int.compare_eq_gt.mpr (Int.natCast_pos.mpr hn)
    rw [hgt]
    exact positive_roundWithAccuracy ..

/-- A quotient by a finite double that is not zero is a number. -/
theorem positive_div {u v : UnpackedFloat} (hu : Positive u) (hv : isPlain v = true) :
    Positive (div spec u v) := by
  cases v with
  | finite s m e hm =>
    cases s with
    | negative => cases hv
    | positive =>
      cases u with
      | notANumber => exact hu.elim
      | finite s' m' e' hm' =>
        cases hu
        exact positive_roundWithAccuracy ..
      | _ =>
        cases hu
        rfl
  | _ => cases hv

/-- Decimals without a sign are read as numbers without a sign. -/
theorem positive_ofScientific (m : Nat) (e : Int) :
    Positive (UnpackedFloat.ofScientific spec m e) := by
  unfold UnpackedFloat.ofScientific
  split
  · rfl
  split
  · rfl
  split
  · rfl
  split
  · exact positive_roundWithAccuracy ..
  · exact positive_roundWithAccuracy ..

end

/-! ### Literals -/

/-- The powers of ten by which reading divides. -/
theorem isPlain_powersOfTen :
    Float.exactlyRepresentablePowersOfTen.all fun x => isPlain x.toModel.unpack := by
  decide +kernel

/-- The double is no NaN and has no minus sign. -/
structure Unsigned (x : Float) : Prop where
  number : x.isNaN = false
  sign : x.toBits.toNat < 2 ^ 63

theorem isNaN_of_positive {u : UnpackedFloat} (h : Positive u) : u.isNaN = false := by
  cases u with
  | notANumber => exact h.elim
  | _ => rfl

/-- The sign is told by the first bit. -/
theorem unpackSign_of_positive {spec : Format} {b : BitVec spec.numBits}
    (h : Positive (unpack spec b)) : unpackSign b = 0#1 := by
  have hsign {v : BitVec 1} (hv : Sign.ofBitVec v = .positive) : v = 0#1 := by
    unfold Sign.ofBitVec at hv
    split at hv
    · next hz => exact hz
    · cases hv
  unfold unpack at h
  simp only at h
  split at h
  · split at h
    · exact hsign h
    · exact h.elim
  · split at h
    · split at h
      · exact hsign h
      · exact hsign h
    · exact hsign h

theorem unsigned_of_positive {x : Float} (h : Positive x.toModel.unpack) : Unsigned x where
  number := isNaN_of_positive h
  sign := by
    have hsign := congrArg BitVec.toNat (unpackSign_of_positive h)
    have hlt := x.toModel.toBits.toNat_lt
    simp only [unpackSign, BitVec.toNat_cast, BitVec.extractLsb_toNat,
      Nat.shiftRight_eq_div_pow] at hsign
    have hzero : x.toModel.toBits.toNat / 2 ^ 63 % 2 = 0 := hsign
    show x.toModel.toBits.toNat < 2 ^ 63
    omega

/-- A quotient by a double that is plain has no sign if the dividend has none. -/
theorem positive_quotient {x y : Float} (hx : Positive x.toModel.unpack)
    (hy : isPlain y.toModel.unpack = true) : Positive (x / y).toModel.unpack :=
  positive_unpack_pack (positive_div hx hy)

/-- The value of a literal has no sign. -/
theorem unsigned_literalValue (whole fraction : List Char) :
    Unsigned (literalValue whole fraction) := by
  refine unsigned_of_positive ?_
  unfold literalValue Float.ofScientific
  simp only
  split
  · next hsmall =>
    have hpower := Array.all_eq_true.mp isPlain_powersOfTen fraction.length
      (Nat.lt_of_le_of_lt hsmall.2 (by decide))
    rw [if_pos trivial]
    exact positive_quotient (positive_unpack_pack (positive_ofNat _)) hpower
  · exact positive_unpack_pack (positive_ofScientific _ _)

end Lox.Number
