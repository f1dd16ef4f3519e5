/-! # Operators

The operator table of the language: spelling, precedence, associativity and the operands that an
operator accepts. -/

namespace Shader

inductive OperandDomain where
  | bool
  | integer
  | primitive
  | numeric
  deriving DecidableEq, Repr

namespace OperandDomain

def adjective : OperandDomain → String
  | .bool => "bool"
  | .integer => "integer"
  | .primitive => "primitive"
  | .numeric => "numeric"

def flag : OperandDomain → Nat
  | .bool => 4
  | .integer => 8
  | .primitive => 16
  | .numeric => 32

end OperandDomain

def commaPrecedence : Nat := 10

def assignmentPrecedence : Nat := 11

def ternaryPrecedence : Nat := 12

def leadingPrecedence : Nat := 30

def trailingPrecedence : Nat := 40

inductive BinaryOp where
  | comma
  | assign
  | orAssign
  | xorAssign
  | andAssign
  | shlAssign
  | shrAssign
  | addAssign
  | subAssign
  | mulAssign
  | divAssign
  | remAssign
  | logicalOr
  | logicalAnd
  | bitOr
  | bitXor
  | bitAnd
  | equal
  | notEqual
  | less
  | greater
  | lessEqual
  | greaterEqual
  | shl
  | shr
  | add
  | sub
  | mul
  | div
  | rem
  deriving DecidableEq, Repr, Inhabited

namespace BinaryOp

def all : List BinaryOp :=
  [.comma, .assign, .orAssign, .xorAssign, .andAssign, .shlAssign, .shrAssign, .addAssign,
    .subAssign, .mulAssign, .divAssign, .remAssign, .logicalOr, .logicalAnd, .bitOr, .bitXor,
    .bitAnd, .equal, .notEqual, .less, .greater, .lessEqual, .greaterEqual, .shl, .shr, .add,
    .sub, .mul, .div, .rem]

def token : BinaryOp → String
  | .comma => ","
  | .assign => "="
  | .orAssign => "|="
  | .xorAssign => "^="
  | .andAssign => "&="
  | .shlAssign => "<<="
  | .shrAssign => ">>="
  | .addAssign => "+="
  | .subAssign => "-="
  | .mulAssign => "*="
  | .divAssign => "/="
  | .remAssign => "%="
  | .logicalOr => "||"
  | .logicalAnd => "&&"
  | .bitOr => "|"
  | .bitXor => "^"
  | .bitAnd => "&"
  | .equal => "=="
  | .notEqual => "!="
  | .less => "<"
  | .greater => ">"
  | .lessEqual => "<="
  | .greaterEqual => ">="
  | .shl => "<<"
  | .shr => ">>"
  | .add => "+"
  | .sub => "-"
  | .mul => "*"
  | .div => "/"
  | .rem => "%"

def name : BinaryOp → String
  | .comma => "Comma"
  | .assign => "Assign"
  | .orAssign => "OrAssign"
  | .xorAssign => "XorAssign"
  | .andAssign => "AndAssign"
  | .shlAssign => "ShlAssign"
  | .shrAssign => "ShrAssign"
  | .addAssign => "AddAssign"
  | .subAssign => "SubAssign"
  | .mulAssign => "MulAssign"
  | .divAssign => "DivAssign"
  | .remAssign => "RemAssign"
  | .logicalOr => "LogicalOr"
  | .logicalAnd => "LogicalAnd"
  | .bitOr => "BitOr"
  | .bitXor => "BitXor"
  | .bitAnd => "BitAnd"
  | .equal => "Equal"
  | .notEqual => "NotEqual"
  | .less => "Less"
  | .greater => "Greater"
  | .lessEqual => "LessEqual"
  | .greaterEqual => "GreaterEqual"
  | .shl => "Shl"
  | .shr => "Shr"
  | .add => "Add"
  | .sub => "Sub"
  | .mul => "Mul"
  | .div => "Div"
  | .rem => "Rem"

def precedence : BinaryOp → Nat
  | .comma => commaPrecedence
  | .assign | .orAssign | .xorAssign | .andAssign | .shlAssign | .shrAssign | .addAssign
  | .subAssign | .mulAssign | .divAssign | .remAssign => assignmentPrecedence
  | .logicalOr => 13
  | .logicalAnd => 14
  | .bitOr => 15
  | .bitXor => 16
  | .bitAnd => 17
  | .equal | .notEqual => 18
  | .less | .greater | .lessEqual | .greaterEqual => 19
  | .shl | .shr => 20
  | .add | .sub => 21
  | .mul | .div | .rem => 22

def isCompound : BinaryOp → Bool
  | .orAssign | .xorAssign | .andAssign | .shlAssign | .shrAssign | .addAssign | .subAssign
  | .mulAssign | .divAssign | .remAssign => true
  | _ => false

def isAssignment (op : BinaryOp) : Bool :=
  op == .assign || op.isCompound

def isLeftAssociative (op : BinaryOp) : Bool :=
  !op.isAssignment

def isComparison : BinaryOp → Bool
  | .equal | .notEqual | .less | .greater | .lessEqual | .greaterEqual => true
  | _ => false

/-- The types a plain operator accepts on its left; the others accept every type. -/
def domain? : BinaryOp → Option OperandDomain
  | .logicalOr | .logicalAnd => some .bool
  | .bitOr | .bitXor | .bitAnd | .shl | .shr | .rem => some .integer
  | .equal | .notEqual => some .primitive
  | .less | .greater | .lessEqual | .greaterEqual | .add | .sub | .mul | .div => some .numeric
  | _ => none

/-- The properties of an operator as bits: 1 for grouping to the left, 2 for a compound assignment
and one bit for the domain. -/
def flags (op : BinaryOp) : Nat :=
  (if op.isLeftAssociative then 1 else 0) + (if op.isCompound then 2 else 0) +
    (op.domain?.map OperandDomain.flag).getD 0

/-- The plain operator that a compound assignment applies; any other operator is its own. -/
def base : BinaryOp → BinaryOp
  | .orAssign => .bitOr
  | .xorAssign => .bitXor
  | .andAssign => .bitAnd
  | .shlAssign => .shl
  | .shrAssign => .shr
  | .addAssign => .add
  | .subAssign => .sub
  | .mulAssign => .mul
  | .divAssign => .div
  | .remAssign => .rem
  | op => op

def ofToken? (text : String) : Option BinaryOp :=
  all.find? fun op => op.token == text

/-- The least precedence of a right operand: one more than the operator's own where a run groups to
the left. -/
def rightPrecedence (op : BinaryOp) : Nat :=
  if op.isLeftAssociative then op.precedence + 1 else op.precedence

@[simp] theorem mem_all (op : BinaryOp) : op ∈ all := by
  cases op <;> decide

@[simp] theorem ofToken?_token (op : BinaryOp) : ofToken? op.token = some op := by
  cases op <;> decide

end BinaryOp

inductive UnaryOp where
  | logicalNot
  | bitNot
  | plus
  | negate
  | preIncrement
  | preDecrement
  | dereference
  | addressOf
  | postIncrement
  | postDecrement
  deriving DecidableEq, Repr, Inhabited

namespace UnaryOp

def leading : List UnaryOp :=
  [.logicalNot, .bitNot, .plus, .negate, .preIncrement, .preDecrement, .dereference, .addressOf]

def trailing : List UnaryOp :=
  [.postIncrement, .postDecrement]

def token : UnaryOp → String
  | .logicalNot => "!"
  | .bitNot => "~"
  | .plus => "+"
  | .negate => "-"
  | .preIncrement | .postIncrement => "++"
  | .preDecrement | .postDecrement => "--"
  | .dereference => "*"
  | .addressOf => "&"

def name : UnaryOp → String
  | .logicalNot => "Not"
  | .bitNot => "BitNot"
  | .plus => "Plus"
  | .negate => "Neg"
  | .preIncrement => "PreInc"
  | .preDecrement => "PreDec"
  | .dereference => "Deref"
  | .addressOf => "AddrOf"
  | .postIncrement => "PostInc"
  | .postDecrement => "PostDec"

def isTrailing : UnaryOp → Bool
  | .postIncrement | .postDecrement => true
  | _ => false

def isIncrement : UnaryOp → Bool
  | .preIncrement | .preDecrement | .postIncrement | .postDecrement => true
  | _ => false

def precedence (op : UnaryOp) : Nat :=
  if op.isTrailing then trailingPrecedence else leadingPrecedence

/-- The properties of an operator as bits: 64 before the operand, 128 behind it. -/
def flags (op : UnaryOp) : Nat :=
  if op.isTrailing then 128 else 64

def ofLeadingToken? (text : String) : Option UnaryOp :=
  leading.find? fun op => op.token == text

def ofTrailingToken? (text : String) : Option UnaryOp :=
  trailing.find? fun op => op.token == text

end UnaryOp

/-- Every spelling that stands for an operator, longer ones first and equally long ones in the order
of their characters. -/
def operatorSpellings : List String :=
  ["<<=", ">>=", "!=", "%=", "&&", "&=", "*=", "++", "+=", "--", "-=", "/=", "<<", "<=", "==", ">=",
    ">>", "[[", "]]", "^=", "|=", "||", "!", "%", "&", "*", "+", ",", "-", "/", "<", "=", ">", "?",
    "^", "|", "~"]

theorem BinaryOp.token_mem_operatorSpellings (op : BinaryOp) : op.token ∈ operatorSpellings := by
  cases op <;> decide

theorem UnaryOp.token_mem_operatorSpellings (op : UnaryOp) : op.token ∈ operatorSpellings := by
  cases op <;> decide

end Shader
