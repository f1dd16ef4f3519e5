import Shader.FloatFormat.Basic

/-! # Shortest decimals

The decimal that stands for a float: the one with the fewest digits among those that read back as the
same float, and of these the closest. Between two equally close ones the larger is taken. -/

namespace Shader

attribute [local instance (2000)] instPowNat

structure Decimal where
  digits : Nat
  power : Int
  deriving DecidableEq, Repr, Inhabited

namespace Decimal

/-- The same number without zeros at the end of its digits; `limit` bounds how many are cut. -/
def strip : Nat → Decimal → Decimal
  | 0, decimal => decimal
  | limit + 1, decimal =>
    if decimal.digits % 10 = 0 then strip limit ⟨decimal.digits / 10, decimal.power + 1⟩
    else decimal

def characters (decimal : Decimal) : List Char :=
  Nat.toDigits 10 decimal.digits

/-- The number of digits in front of the point, negative when zeros follow the point. -/
def point (decimal : Decimal) : Int :=
  decimal.characters.length + decimal.power

def plain (decimal : Decimal) : String :=
  let all := decimal.characters
  let point := decimal.point
  if point ≤ 0 then
    "0." ++ String.ofList (List.replicate (-point).toNat '0' ++ all)
  else if point.toNat < all.length then
    String.ofList (all.take point.toNat) ++ "." ++ String.ofList (all.drop point.toNat)
  else
    String.ofList (all ++ List.replicate (point.toNat - all.length) '0') ++ ".0"

def scientific (decimal : Decimal) : String :=
  let all := decimal.characters
  let tail := all.drop 1
  let fraction := if tail.isEmpty then "" else "." ++ String.ofList tail
  String.ofList (all.take 1) ++ fraction ++ "e" ++ toString (decimal.point - 1)

end Decimal

namespace FloatFormat

/-- The reals that read back as one float, as fractions of a common denominator. -/
structure Interval where
  center : Nat
  low : Nat
  high : Nat
  closed : Bool
  denominator : Nat
  deriving DecidableEq, Repr

/-- The interval of a positive finite magnitude. The gap below a power of two is half as wide, except
below the smallest one. -/
def interval (format : FloatFormat) (magnitude : Nat) : Interval :=
  let steps := format.significand magnitude
  let scale := format.scale magnitude
  let step := 2 ^ scale
  let lower := if steps = 2 ^ format.fractionBits ∧ 0 < scale then step else 2 * step
  { center := 4 * steps * step
    low := 4 * steps * step - lower
    high := 4 * steps * step + 2 * step
    closed := steps % 2 = 0
    denominator := 4 * 2 ^ format.unitShift }

namespace Interval

def inPower (interval : Interval) (power : Int) : Interval :=
  if 0 ≤ power then
    { interval with denominator := interval.denominator * 10 ^ power.toNat }
  else
    let factor := 10 ^ (-power).toNat
    { interval with
      center := interval.center * factor
      low := interval.low * factor
      high := interval.high * factor }

def contains (interval : Interval) (integer : Nat) : Bool :=
  let scaled := integer * interval.denominator
  if interval.closed then interval.low ≤ scaled && scaled ≤ interval.high
  else interval.low < scaled && scaled < interval.high

/-- The integer of the interval that is closest to its center, the larger one of two. Only the two
integers around the center are tried: if any integer lies in the interval, so does one of them. -/
def closest? (interval : Interval) : Option Nat :=
  let below := interval.center / interval.denominator
  let above := below + 1
  let distanceBelow := interval.center - below * interval.denominator
  let distanceAbove := above * interval.denominator - interval.center
  match interval.contains below, interval.contains above with
  | true, true => some (if distanceBelow < distanceAbove then below else above)
  | true, false => some below
  | false, true => some above
  | false, false => none

/-- The number of digits in front of the point, counted down from zero for each zero behind the
point; `limit` bounds how many zeros are counted. -/
def point (interval : Interval) : Nat → Int
  | 0 => 0
  | limit + 1 =>
    if interval.denominator ≤ interval.center then
      (Nat.toDigits 10 (interval.center / interval.denominator)).length
    else point { interval with center := interval.center * 10 } limit - 1

/-- The first power of ten, going down from a given one, that has a multiple in the interval. -/
def coarsest (interval : Interval) (power : Int) : Nat → Decimal
  | 0 => ⟨0, 0⟩
  | limit + 1 =>
    match (interval.inPower power).closest? with
    | some digits => ⟨digits, power⟩
    | none => coarsest interval (power - 1) limit

end Interval

def shortest (format : FloatFormat) (magnitude : Nat) : Decimal :=
  let interval := format.interval magnitude
  let point := interval.point (2 ^ format.exponentBits)
  (interval.coarsest (point - 1) (format.fractionBits + 1)).strip (format.fractionBits + 1)

example : double.shortest 1 = ⟨5, -324⟩ := by decide +kernel

example : double.shortest 0x3fd5555555555555 = ⟨3333333333333333, -16⟩ := by decide +kernel

example : single.shortest 0x7f7fffff = ⟨34028235, 31⟩ := by decide +kernel

example : (double.shortest 0x4341c37937e07fff).plain = "9999999999999998.0" := by decide +kernel

example : (single.shortest 0x38d1b716).scientific = "9.999999e-5" := by decide +kernel

end FloatFormat

end Shader
