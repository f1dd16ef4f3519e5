import Shader.Graph.Basic
import Shader.Module.Instruction

/-! # Choosing instructions

Which instruction computes an operation depends on the class of its operands. -/

namespace Shader

/-- The classes of operands that have different instructions. -/
inductive NumericClass where
  | float
  | signed
  | unsigned
  | bool
  deriving DecidableEq, Repr

def NumericClass.name : NumericClass → String
  | .float => "Float"
  | .signed => "Signed"
  | .unsigned => "Unsigned"
  | .bool => "Bool"

def Program.numericClass? (program : Program) (type : TypeId) : Option NumericClass :=
  if program.isVector type then some .float
  else
    match program.primitive? type with
    | some (.float _) => some .float
    | some (.int _ true) => some .signed
    | some (.int _ false) => some .unsigned
    | some .bool => some .bool
    | _ => none

def binaryInstruction? : Opcode → NumericClass → Option BinaryInstruction
  | .add, .float => some .fAdd
  | .add, .signed | .add, .unsigned => some .iAdd
  | .sub, .float => some .fSub
  | .sub, .signed | .sub, .unsigned => some .iSub
  | .mul, .float => some .fMul
  | .mul, .signed | .mul, .unsigned => some .iMul
  | .div, .float => some .fDiv
  | .div, .signed => some .sDiv
  | .div, .unsigned => some .uDiv
  | .rem, .float => some .fRem
  | .rem, .signed => some .sRem
  | .rem, .unsigned => some .uMod
  | .bitAnd, .signed | .bitAnd, .unsigned => some .bitwiseAnd
  | .bitOr, .signed | .bitOr, .unsigned => some .bitwiseOr
  | .bitXor, .signed | .bitXor, .unsigned => some .bitwiseXor
  | .shl, .signed | .shl, .unsigned => some .shiftLeftLogical
  | .shr, .signed => some .shiftRightArithmetic
  | .shr, .unsigned => some .shiftRightLogical
  | .logicalAnd, .bool => some .logicalAnd
  | .logicalOr, .bool => some .logicalOr
  | .equal, .float => some .fOrdEqual
  | .equal, .signed | .equal, .unsigned => some .iEqual
  | .equal, .bool => some .logicalEqual
  | .notEqual, .float => some .fOrdNotEqual
  | .notEqual, .signed | .notEqual, .unsigned => some .iNotEqual
  | .notEqual, .bool => some .logicalNotEqual
  | .less, .float => some .fOrdLessThan
  | .less, .signed => some .sLessThan
  | .less, .unsigned => some .uLessThan
  | .lessEqual, .float => some .fOrdLessThanEqual
  | .lessEqual, .signed => some .sLessThanEqual
  | .lessEqual, .unsigned => some .uLessThanEqual
  | .greater, .float => some .fOrdGreaterThan
  | .greater, .signed => some .sGreaterThan
  | .greater, .unsigned => some .uGreaterThan
  | .greaterEqual, .float => some .fOrdGreaterThanEqual
  | .greaterEqual, .signed => some .sGreaterThanEqual
  | .greaterEqual, .unsigned => some .uGreaterThanEqual
  | _, _ => none

def Intrinsic.extendedFunction? : Intrinsic → Option ExtendedFunction
  | .sin => some .sin
  | .cos => some .cos
  | .atan => some .atan
  | .log => some .log
  | .abs => some .fAbs
  | .length => some .length
  | .hsv | .dotVec3 => none

/-- The components of a vector with some of them taken from a second vector, which has them in the
order of `components`. -/
def shuffleComponents (width : Nat) (components : List Nat) : List Nat :=
  (List.range width).map fun lane =>
    match components.findIdx? (· == lane) with
    | some position => width + position
    | none => lane

end Shader
