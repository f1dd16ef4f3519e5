import Shader.FloatFormat.Shortest

/-! # Literals

The constants that a source can write. Floats are kept as bit patterns, so that literals can be
compared. Text forms follow one rule: a float is written with the fewest digits that read back the
same, positionally from `plainFrom` on and below `plainBelow`, and with an exponent elsewhere. -/

namespace Shader

inductive Literal where
  | int (value : UInt64)
  | single (bits : UInt32)
  | double (bits : UInt64)
  | bool (value : Bool)
  deriving DecidableEq, Repr, Inhabited

/-! ## Writing -/

namespace FloatFormat

/-- The least positive magnitude that is written positionally, one ten-thousandth. -/
def plainFrom (format : FloatFormat) : Nat :=
  format.ofDecimal 1 (-4)

/-- The least magnitude that is not written positionally any more, ten to the sixteenth. -/
def plainBelow (format : FloatFormat) : Nat :=
  format.ofDecimal 1 16

def magnitudeText (format : FloatFormat) (magnitude : Nat) : String :=
  if magnitude = format.infinity then "inf"
  else if magnitude = 0 then "0.0"
  else if format.plainFrom ≤ magnitude ∧ magnitude < format.plainBelow then
    (format.shortest magnitude).plain
  else (format.shortest magnitude).scientific

def text (format : FloatFormat) (bits : Nat) : String :=
  let magnitude := format.magnitude bits
  if format.infinity < magnitude then "NaN"
  else if format.isNegative bits then "-" ++ format.magnitudeText magnitude
  else format.magnitudeText magnitude

end FloatFormat

namespace Literal

/-- A literal as it stands in a source; a float of 32 bits has the suffix `f`. -/
def text : Literal → String
  | .int value => toString value.toNat
  | .single bits => FloatFormat.single.text bits.toNat ++ "f"
  | .double bits => FloatFormat.double.text bits.toNat
  | .bool value => if value then "true" else "false"

def describe : Literal → String
  | .int value => "Int(" ++ toString value.toNat ++ ")"
  | .single bits => "F32(" ++ FloatFormat.single.text bits.toNat ++ ")"
  | .double bits => "F64(" ++ FloatFormat.double.text bits.toNat ++ ")"
  | .bool value => "Bool(" ++ (if value then "true" else "false") ++ ")"

def negate? : Literal → Option Literal
  | .int value => some (.int (0 - value))
  | .single bits => some (.single (FloatFormat.single.negate bits.toNat).toUInt32)
  | .double bits => some (.double (FloatFormat.double.negate bits.toNat).toUInt64)
  | .bool _ => none

end Literal

/-! ## Reading -/

def digitValue? (character : Char) : Option Nat :=
  if character.isDigit then some (character.toNat - '0'.toNat)
  else if character.isLower then some (character.toNat - 'a'.toNat + 10)
  else if character.isUpper then some (character.toNat - 'A'.toNat + 10)
  else none

/-- The number that digits of a base stand for, behind digits that are already read. -/
def readDigits? (base : Nat) : Nat → List Char → Option Nat
  | value, [] => some value
  | value, character :: rest =>
    match digitValue? character with
    | some digit =>
      if digit < base then readDigits? base (value * base + digit) rest else none
    | none => none

def fitInteger? (value : Nat) : Option UInt64 :=
  if value < UInt64.size then some value.toUInt64 else none

def radixOf? (mark : Char) : Option Nat :=
  if mark == 'x' || mark == 'X' then some 16
  else if mark == 'b' || mark == 'B' then some 2
  else if mark == 'o' || mark == 'O' then some 8
  else none

/-- The value of an integer token, if its digits are digits of its base and it fits in 64 bits. -/
def readInteger? (spelling : String) : Option UInt64 :=
  let decimal := (readDigits? 10 0 spelling.toList).bind fitInteger?
  match spelling.toList with
  | '0' :: mark :: body =>
    match radixOf? mark with
    | some base => (readDigits? base 0 body).bind fitInteger?
    | none => decimal
  | _ => decimal

/-- The digits and the power of ten that the characters of a float stand for. -/
def readDecimal (characters : List Char) : Decimal :=
  let isMark (character : Char) : Bool := character == 'e' || character == 'E'
  let mantissa := characters.takeWhile fun character => !isMark character
  let power := (characters.dropWhile fun character => !isMark character).drop 1
  let whole := mantissa.takeWhile Char.isDigit
  let fraction := (mantissa.drop whole.length).drop 1
  let number (text : List Char) : Nat := (readDigits? 10 0 text).getD 0
  let shift : Int :=
    match power with
    | '-' :: rest => -(number rest : Int)
    | '+' :: rest => number rest
    | rest => number rest
  ⟨number (whole ++ fraction), shift - fraction.length⟩

/-- The value of a float token: 32 bits wide with the suffix `f`, 64 bits wide without it. -/
def readFloat (spelling : String) : Literal :=
  let characters := spelling.toList
  let body := characters.dropLast
  let last := characters.getLast?.getD '0'
  if last == 'f' || last == 'F' then
    let decimal := readDecimal body
    .single (FloatFormat.single.ofDecimal decimal.digits decimal.power).toUInt32
  else
    let decimal := readDecimal (if last == 'd' || last == 'D' then body else characters)
    .double (FloatFormat.double.ofDecimal decimal.digits decimal.power).toUInt64

example : readInteger? "0x1F" = some 31 := by decide +kernel

example : readInteger? "0b2" = none := by decide +kernel

example : readFloat "2.5E-3f" = .single 0x3b23d70a := by decide +kernel

example : (readFloat "1e23").text = "1e23" := by decide +kernel

example : (readFloat ".5f").text = "0.5f" := by decide +kernel

end Shader
