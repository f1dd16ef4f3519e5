import Shader.Program.Basic

/-! # Value graphs

The body of one function in single assignment form. Its values are numbered, each is made once, and
each knows both its operands and its users. Values are placed in blocks, and blocks are joined by the
jumps that end them. -/

namespace Shader

/-! ## Operations -/

inductive Opcode where
  | const
  | zeroInit
  | undef
  | functionArg
  | globalVar
  | alloca
  | load
  | store
  | elementPtr
  | extractValue
  | insertValue
  | memberAccess
  | swizzleIndices
  | swizzleExpr
  | splat
  | call
  | phi
  | add
  | sub
  | mul
  | div
  | rem
  | bitAnd
  | bitOr
  | bitXor
  | shl
  | shr
  | logicalAnd
  | logicalOr
  | equal
  | notEqual
  | less
  | lessEqual
  | greater
  | greaterEqual
  | negate
  | logicalNot
  | bitNot
  | jump
  | condJump
  | returnValue
  | returnVoid
  | unreachable
  | uniformPtr
  | stageInput
  | makeStruct
  deriving DecidableEq, Repr

namespace Opcode

def all : List Opcode :=
  [.const, .zeroInit, .undef, .functionArg, .globalVar, .alloca, .load, .store, .elementPtr,
    .extractValue, .insertValue, .memberAccess, .swizzleIndices, .swizzleExpr, .splat, .call, .phi,
    .add, .sub, .mul, .div, .rem, .bitAnd, .bitOr, .bitXor, .shl, .shr, .logicalAnd, .logicalOr,
    .equal, .notEqual, .less, .lessEqual, .greater, .greaterEqual, .negate, .logicalNot, .bitNot,
    .jump, .condJump, .returnValue, .returnVoid, .unreachable, .uniformPtr, .stageInput,
    .makeStruct]

def name : Opcode → String
  | .const => "Const"
  | .zeroInit => "ZeroInit"
  | .undef => "Undef"
  | .functionArg => "FunctionArg"
  | .globalVar => "GlobalVar"
  | .alloca => "Alloca"
  | .load => "Load"
  | .store => "Store"
  | .elementPtr => "GetElementPtr"
  | .extractValue => "ExtractValue"
  | .insertValue => "InsertValue"
  | .memberAccess => "MemberAccess"
  | .swizzleIndices => "SwizzleIndices"
  | .swizzleExpr => "SwizzleExpr"
  | .splat => "Splat"
  | .call => "Call"
  | .phi => "Phi"
  | .add => "Add"
  | .sub => "Sub"
  | .mul => "Mul"
  | .div => "Div"
  | .rem => "Rem"
  | .bitAnd => "BitAnd"
  | .bitOr => "BitOr"
  | .bitXor => "BitXor"
  | .shl => "Shl"
  | .shr => "Shr"
  | .logicalAnd => "LogicalAnd"
  | .logicalOr => "LogicalOr"
  | .equal => "Equal"
  | .notEqual => "NotEqual"
  | .less => "Less"
  | .lessEqual => "LessEqual"
  | .greater => "Greater"
  | .greaterEqual => "GreaterEqual"
  | .negate => "UnaryNeg"
  | .logicalNot => "UnaryNot"
  | .bitNot => "BitNot"
  | .jump => "Jump"
  | .condJump => "CondJump"
  | .returnValue => "Return"
  | .returnVoid => "ReturnVoid"
  | .unreachable => "Unreachable"
  | .uniformPtr => "UniformPtr"
  | .stageInput => "StageInput"
  | .makeStruct => "MakeStruct"

def ofName? (name : String) : Option Opcode :=
  all.find? fun opcode => opcode.name == name

def isEnding : Opcode → Bool
  | .jump | .condJump | .returnValue | .returnVoid | .unreachable => true
  | _ => false

/-- Whether a value with this opcode is a step of a path and no value of its own. -/
def isMarker : Opcode → Bool
  | .memberAccess | .swizzleIndices => true
  | _ => false

end Opcode

inductive Payload where
  | none
  | literal (value : Literal)
  | var (var : VarId)
  | function (function : FunctionId)
  | target (block : BlockId)
  | targets (onTrue onFalse : BlockId)
  | member (index : Nat)
  | components (indices : List Nat)
  | argument (index : Nat)
  | input (member : Nat)
  deriving DecidableEq, Repr

structure Operation where
  opcode : Opcode
  args : List ValueId := []
  payload : Payload := .none
  type : Option TypeId := none
  deriving DecidableEq, Repr

/-! ## Nodes -/

structure Value extends Operation where
  block : BlockId
  uses : List ValueId := []
  removed : Bool := false
  replacedBy : Option ValueId := none
  deriving DecidableEq, Repr

instance : Inhabited Value := ⟨{ opcode := .undef, block := ⟨0⟩ }⟩

/-- Where the paths from a block that branches come together again. -/
inductive Merge where
  | selection (merge : BlockId)
  | loop (merge continueTarget : BlockId)
  deriving DecidableEq, Repr

structure Block where
  name : String
  values : List ValueId := []
  ending : Option ValueId := none
  isSealed : Bool := false
  preds : List BlockId := []
  succs : List BlockId := []
  merge : Option Merge := none
  bindings : Table VarId ValueId := {}
  incomplete : List (VarId × ValueId) := []
  deriving Repr

instance : Inhabited Block := ⟨{ name := "" }⟩

structure Graph where
  function : FunctionId
  values : Arena .value Value := {}
  blocks : Arena .block Block := {}
  entry : BlockId := ⟨0⟩
  current : BlockId := ⟨0⟩
  slots : Table VarId ValueId := {}
  construct : Nat := 0
  isEditing : Bool := false
  deriving Repr, Inhabited

namespace Graph

/-- The graph of a function with nothing but an empty entry block, which has no predecessors. -/
def start (function : FunctionId) : Graph :=
  { function, blocks := Arena.empty.append { name := "entry", isSealed := true } }

def value (graph : Graph) (value : ValueId) : Value :=
  graph.values.get value

def block (graph : Graph) (block : BlockId) : Block :=
  graph.blocks.get block

def modifyValue (graph : Graph) (value : ValueId) (change : Value → Value) : Graph :=
  { graph with values := graph.values.modify value change }

def modifyBlock (graph : Graph) (block : BlockId) (change : Block → Block) : Graph :=
  { graph with blocks := graph.blocks.modify block change }

def liveValues (graph : Graph) : List ValueId :=
  graph.blocks.toList.flatMap Block.values

def isTerminated (graph : Graph) (block : BlockId) : Bool :=
  (graph.block block).ending.isSome

def isUnreachable (graph : Graph) (block : BlockId) : Bool :=
  block != graph.entry && (graph.block block).preds.isEmpty

def isPhi (graph : Graph) (value : ValueId) : Bool :=
  (graph.value value).opcode == .phi

def resolveWithin (graph : Graph) : Nat → ValueId → ValueId
  | 0, value => value
  | steps + 1, value =>
    match (graph.value value).replacedBy with
    | some next => graph.resolveWithin steps next
    | none => value

/-- What is in the place of a value now. A value is replaced only once, so that there are no more
replacements than values. -/
def resolve (graph : Graph) (value : ValueId) : ValueId :=
  graph.resolveWithin graph.values.size value

/-! ## Reading after a change -/

@[simp] theorem value_modifyBlock (graph : Graph) (block : BlockId) (change : Block → Block)
    (value : ValueId) : (graph.modifyBlock block change).value value = graph.value value := rfl

end Graph

end Shader
