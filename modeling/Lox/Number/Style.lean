/-
How numbers are written.

A `Style` holds the decisions of one output format; `Style.write` is the one function that
follows them.  A number is written exactly if it is an integer within the style's range for
exact integers, and otherwise with the fewest digits that read back, positionally or with an
exponent.

Design notes: the four formats of this library (printed values, expression outlines, token
listings, JSON text) are four values of `Style`, each defined beside the text it belongs to.
-/
import Lox.Number.Shortest

namespace Lox.Number

/-- The decisions of a number format. -/
structure Style where
  /-- integers below this bound are written exactly; `none` means all of them -/
  exactBelow : Option Nat
  /-- `.0` follows an integer that is written exactly -/
  exactPoint : Bool
  /-- `.0` follows an integer that is written with its shortest digits -/
  shortestPoint : Bool
  /-- the exponents of the leading digit, from the first up to below the second, for which
  shortest digits are written positionally; `none` means all of them -/
  plain : Option (Int × Int)
  /-- the choice between two equally near decimals -/
  tie : Tie

/-- `0` written `n` times. -/
def zeros (n : Nat) : String :=
  String.ofList (List.replicate n '0')

/-- The exponent of the leading digit. -/
def Decimal.leading (d : Decimal) : Int :=
  d.exponent + digitCount d.digits - 1

/-- Positional form; `point` asks for `.0` behind an integer. -/
def Decimal.positional (d : Decimal) (point : Bool) : String :=
  let digits := Nat.toDigits 10 d.digits
  if 0 ≤ d.exponent then
    String.ofList digits ++ zeros d.exponent.toNat ++ (if point then ".0" else "")
  else
    let places := (-d.exponent).toNat
    if places < digits.length then
      let whole := digits.length - places
      String.ofList (digits.take whole) ++ "." ++ String.ofList (digits.drop whole)
    else
      "0." ++ zeros (places - digits.length) ++ String.ofList digits

/-- One digit before the point, and the exponent with its sign. -/
def Decimal.scientific (d : Decimal) : String :=
  let digits := Nat.toDigits 10 d.digits
  let fraction := digits.drop 1
  let mantissa := String.ofList (digits.take 1)
    ++ (if fraction.isEmpty then "" else "." ++ String.ofList fraction)
  let sign := if d.leading < 0 then "-" else "+"
  mantissa ++ "e" ++ sign ++ toString d.leading.natAbs

namespace Style

/-- An integer that the style writes exactly. -/
def writesExactly (s : Style) (b : Binary) : Bool :=
  b.isInteger && (match s.exactBelow with
    | none => true
    | some bound => b.floor < bound)

/-- The text of a magnitude with its shortest digits.  Zero has no leading digit, and is written
positionally. -/
def writeShortest (s : Style) (b : Binary) : String :=
  if b.significand = 0 then (if s.shortestPoint then "0.0" else "0")
  else
    let d := b.shortest s.tie
    match s.plain with
    | none => d.positional s.shortestPoint
    | some (low, high) =>
      if low ≤ d.leading ∧ d.leading < high then d.positional s.shortestPoint else d.scientific

/-- The text of a magnitude. -/
def writeMagnitude (s : Style) (b : Binary) : String :=
  if s.writesExactly b then toString b.floor ++ (if s.exactPoint then ".0" else "")
  else s.writeShortest b

/-- The text of a number.  A sign is written for `-0` as for every negative number. -/
def write (s : Style) (x : Float) : String :=
  if x.isNaN then "NaN"
  else
    let sign := if isNegative x then "-" else ""
    sign ++ (if x.isInf then "inf" else s.writeMagnitude (.ofFloat x))

end Style

end Lox.Number
