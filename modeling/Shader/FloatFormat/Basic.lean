/-! # Binary floats as bits

Floating point numbers are kept as their bit patterns, and everything about them is computed on
natural numbers. A `FloatFormat` says how many bits of a pattern are exponent and fraction. -/

namespace Shader

attribute [local instance (2000)] instPowNat

/-- A binary interchange format: a sign bit, an exponent field and a fraction field. -/
structure FloatFormat where
  exponentBits : Nat
  fractionBits : Nat
  deriving DecidableEq, Repr

/-- The quotient of two numbers, rounded to the nearest integer, a tie to the even one. -/
def roundHalfEven (numerator denominator : Nat) : Nat :=
  let quotient := numerator / denominator
  let twice := 2 * (numerator % denominator)
  if twice < denominator then quotient
  else if denominator < twice then quotient + 1
  else if quotient % 2 = 0 then quotient
  else quotient + 1

namespace FloatFormat

def single : FloatFormat := ⟨8, 23⟩

def double : FloatFormat := ⟨11, 52⟩

def signBit (format : FloatFormat) : Nat :=
  2 ^ (format.exponentBits + format.fractionBits)

def infinity (format : FloatFormat) : Nat :=
  (2 ^ format.exponentBits - 1) * 2 ^ format.fractionBits

def unitShift (format : FloatFormat) : Nat :=
  2 ^ (format.exponentBits - 1) + format.fractionBits - 2

def isNegative (format : FloatFormat) (bits : Nat) : Bool :=
  bits / format.signBit % 2 == 1

def magnitude (format : FloatFormat) (bits : Nat) : Nat :=
  bits % format.signBit

def negate (format : FloatFormat) (bits : Nat) : Nat :=
  if format.isNegative bits then format.magnitude bits
  else format.magnitude bits + format.signBit

def significand (format : FloatFormat) (magnitude : Nat) : Nat :=
  let fraction := magnitude % 2 ^ format.fractionBits
  if magnitude / 2 ^ format.fractionBits = 0 then fraction
  else fraction + 2 ^ format.fractionBits

def scale (format : FloatFormat) (magnitude : Nat) : Nat :=
  magnitude / 2 ^ format.fractionBits - 1

/-- The magnitude closest to a fraction, ties to even; infinity when it is too large. -/
def nearest (format : FloatFormat) (numerator denominator : Nat) : Nat :=
  let units := numerator * 2 ^ format.unitShift
  let scale := (units / denominator).log2 - format.fractionBits
  let steps := roundHalfEven units (denominator * 2 ^ scale)
  min (scale * 2 ^ format.fractionBits + steps) format.infinity

/-- The magnitude closest to `digits * 10 ^ power`. Powers that are beyond the range of the format in
any case are not computed. -/
def ofDecimal (format : FloatFormat) (digits : Nat) (power : Int) : Nat :=
  let size : Int := (Nat.toDigits 10 digits).length + power
  let limit : Int := 2 ^ format.exponentBits
  if digits = 0 then 0
  else if limit < size then format.infinity
  else if size < -limit then 0
  else if 0 ≤ power then format.nearest (digits * 10 ^ power.toNat) 1
  else format.nearest digits (10 ^ (-power).toNat)

/-- The same number in another format, rounded if it does not fit. What is not a number stays none
and keeps the leading bits of its fraction. -/
def convert (source target : FloatFormat) (bits : Nat) : Nat :=
  let magnitude := source.magnitude bits
  let converted :=
    if source.infinity < magnitude then
      let fraction := (magnitude - source.infinity) * 2 ^ target.fractionBits /
        2 ^ source.fractionBits
      let quiet := 2 ^ (target.fractionBits - 1)
      target.infinity + (if quiet ≤ fraction then fraction else fraction + quiet)
    else if magnitude = source.infinity then target.infinity
    else target.nearest (source.significand magnitude * 2 ^ source.scale magnitude)
      (2 ^ source.unitShift)
  if source.isNegative bits then converted + target.signBit else converted

example : double.ofDecimal 1 (-1) = 0x3fb999999999999a := by decide +kernel

example : single.ofDecimal 1 16 = 0x5a0e1bca := by decide +kernel

example : double.convert single 0x3fb999999999999a = 0x3dcccccd := by decide +kernel

example : single.convert double 0xbf800000 = 0xbff0000000000000 := by decide +kernel

end FloatFormat

end Shader
