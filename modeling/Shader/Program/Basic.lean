import Shader.Arena
import Shader.Literal
import Shader.Operator
import Shader.Span
import Shader.Table

/-! # Programs

A checked source as arenas of types, expressions, statements, variables and functions. Nodes refer to
each other by handles, and every expression carries its type. -/

namespace Shader

/-! ## Types -/

inductive PrimitiveType where
  | void
  | bool
  | int (bits : Nat) (signed : Bool)
  | float (bits : Nat)
  deriving DecidableEq, Repr

inductive StorageClass where
  | uniform
  | function
  deriving DecidableEq, Repr

inductive AttributeKind where
  | vkUniform (set binding : UInt32)
  | mtlBuffer (index : UInt32)
  | mtlConstant (index : UInt32)
  | position
  | stageIn
  | color (index : UInt32)
  | vertex
  | fragment
  deriving DecidableEq, Repr

namespace AttributeKind

def name : AttributeKind → String
  | .vkUniform _ _ => "vk_uniform"
  | .mtlBuffer _ => "mtl_buffer"
  | .mtlConstant _ => "mtl_constant"
  | .position => "position"
  | .stageIn => "stage_in"
  | .color _ => "color"
  | .vertex => "vertex"
  | .fragment => "fragment"

def arguments : AttributeKind → List UInt32
  | .vkUniform set binding => [set, binding]
  | .mtlBuffer index => [index]
  | .mtlConstant index => [index]
  | .color index => [index]
  | _ => []

def isBuffer : AttributeKind → Bool
  | .vkUniform _ _ | .mtlBuffer _ | .mtlConstant _ => true
  | _ => false

def vkUniform? : AttributeKind → Option (UInt32 × UInt32)
  | .vkUniform set binding => some (set, binding)
  | _ => none

def color? : AttributeKind → Option UInt32
  | .color index => some index
  | _ => none

end AttributeKind

structure Attribute where
  kind : AttributeKind
  span : Span
  used : Bool := false
  deriving DecidableEq, Repr

structure Member where
  name : String
  type : TypeId
  init : Option ExprId := none
  attributes : List Attribute := []
  span : Span := {}
  deriving DecidableEq, Repr

namespace Member

def color? (member : Member) : Option UInt32 :=
  member.attributes.findSome? fun attr => attr.kind.color?

def isPosition (member : Member) : Bool :=
  member.attributes.any fun attr => attr.kind == .position

end Member

inductive TypeKind where
  | primitive (type : PrimitiveType)
  | struct (members : List Member) (vectorWidth : Option Nat)
  | pointer (pointee : TypeId) (storage : StorageClass)
  deriving DecidableEq, Repr

structure TypeNode where
  name : String
  kind : TypeKind
  span : Option Span := none
  deriving DecidableEq, Repr

instance : Inhabited TypeNode := ⟨⟨"", .primitive .void, none⟩⟩

/-! ## Variables and functions -/

inductive VariableKind where
  | global
  | localVar
  | argument (position : Nat)
  deriving DecidableEq, Repr

structure Variable where
  name : String
  type : TypeId
  kind : VariableKind
  init : Option ExprId := none
  attributes : List Attribute := []
  span : Span := {}
  deriving DecidableEq, Repr

instance : Inhabited Variable := ⟨⟨"", ⟨0⟩, .global, none, [], {}⟩⟩

namespace Variable

/-- The Vulkan set and binding of a variable, from its first uniform attribute. -/
def vkUniform? (var : Variable) : Option (UInt32 × UInt32) :=
  var.attributes.findSome? fun attr => attr.kind.vkUniform?

def isStageIn (var : Variable) : Bool :=
  var.attributes.any fun attr => attr.kind == .stageIn

end Variable

inductive FunctionKind where
  | plain
  | vertex
  | fragment
  deriving DecidableEq, Repr

inductive Intrinsic where
  | hsv
  | log
  | sin
  | cos
  | atan
  | abs
  | dotVec3
  | length
  deriving DecidableEq, Repr

structure Binding where
  argument : VarId
  span : Span
  deriving DecidableEq, Repr

structure Function where
  name : String
  returnType : TypeId
  arguments : List VarId := []
  body : Option StmtId := none
  kind : FunctionKind := .plain
  attributes : List Attribute := []
  mtlBuffers : Table UInt32 Binding := {}
  vkBindings : Table (UInt32 × UInt32) Binding := {}
  stageIn : Option VarId := none
  intrinsic : Option Intrinsic := none
  span : Span := {}
  deriving Repr

instance : Inhabited Function := ⟨{ name := "", returnType := ⟨0⟩ }⟩

def Function.isEntryPoint (function : Function) : Bool :=
  function.kind != .plain

/-! ## Expressions and statements -/

inductive ExprKind where
  | literal (value : Literal)
  | binary (op : BinaryOp) (opSpan : Span) (left right : ExprId)
  | unary (op : UnaryOp) (operand : ExprId)
  | deref (pointer : ExprId)
  | ternary (condition onTrue onFalse : ExprId)
  | var (var : VarId)
  | member (base : ExprId) (index : Nat)
  | swizzle (base : ExprId) (components : List Nat)
  | index (base position : ExprId)
  | call (function : FunctionId) (arguments : List ExprId)
  | structInit (type : TypeId) (arguments : List ExprId)
  deriving DecidableEq, Repr

/-- The expressions that an expression is made of, in the order in which they are written. -/
def ExprKind.children : ExprKind → List ExprId
  | .literal _ => []
  | .binary _ _ left right => [left, right]
  | .unary _ operand => [operand]
  | .deref pointer => [pointer]
  | .ternary condition onTrue onFalse => [condition, onTrue, onFalse]
  | .var _ => []
  | .member base _ => [base]
  | .swizzle base _ => [base]
  | .index base position => [base, position]
  | .call _ arguments => arguments
  | .structInit _ arguments => arguments

structure Expr where
  kind : ExprKind
  type : TypeId
  isLvalue : Bool
  span : Span
  deriving DecidableEq, Repr

instance : Inhabited Expr := ⟨⟨.literal (.bool false), ⟨0⟩, false, {}⟩⟩

inductive StmtKind where
  | expr (expr : ExprId)
  | varDecl (vars : List VarId) (init : Option ExprId)
  | block (stmts : List StmtId)
  | ifElse (condition : ExprId) (onTrue : StmtId) (onFalse : Option StmtId)
  | forLoop (init condition step : Option ExprId) (body : StmtId)
  | returnStmt (value : Option ExprId)
  deriving DecidableEq, Repr

structure Stmt where
  kind : StmtKind
  span : Span
  deriving DecidableEq, Repr

instance : Inhabited Stmt := ⟨⟨.block [], {}⟩⟩

inductive Declaration where
  | struct (type : TypeId)
  | function (function : FunctionId)
  | globals (stmt : StmtId)
  deriving DecidableEq, Repr

/-! ## Built-in types -/

namespace TypeId

def void : TypeId := ⟨0⟩
def bool : TypeId := ⟨1⟩
def s8 : TypeId := ⟨2⟩
def s16 : TypeId := ⟨3⟩
def s32 : TypeId := ⟨4⟩
def s64 : TypeId := ⟨5⟩
def u8 : TypeId := ⟨6⟩
def u16 : TypeId := ⟨7⟩
def u32 : TypeId := ⟨8⟩
def u64 : TypeId := ⟨9⟩
def f32 : TypeId := ⟨10⟩
def f64 : TypeId := ⟨11⟩
def float2 : TypeId := ⟨12⟩
def float3 : TypeId := ⟨13⟩
def float4 : TypeId := ⟨14⟩

end TypeId

def vectorType (name : String) (width : Nat) : TypeNode :=
  let members := (["x", "y", "z", "w"].take width).map fun component =>
    { name := component, type := TypeId.f32 : Member }
  ⟨name, .struct members (some width), none⟩

def builtinTypes : List TypeNode :=
  [⟨"void", .primitive .void, none⟩, ⟨"bool", .primitive .bool, none⟩, ⟨"s8", .primitive (.int 8 true), none⟩,
    ⟨"s16", .primitive (.int 16 true), none⟩,
    ⟨"s32", .primitive (.int 32 true), none⟩,
    ⟨"s64", .primitive (.int 64 true), none⟩,
    ⟨"u8", .primitive (.int 8 false), none⟩,
    ⟨"u16", .primitive (.int 16 false), none⟩,
    ⟨"u32", .primitive (.int 32 false), none⟩,
    ⟨"u64", .primitive (.int 64 false), none⟩,
    ⟨"f32", .primitive (.float 32), none⟩,
    ⟨"f64", .primitive (.float 64), none⟩,
    vectorType "float2" 2,
    vectorType "float3" 3,
    vectorType "float4" 4]

/-! ## Programs -/

structure Program where
  types : Arena .type TypeNode := {}
  exprs : Arena .expr Expr := {}
  stmts : Arena .stmt Stmt := {}
  vars : Arena .var Variable := {}
  functions : Arena .function Function := {}
  declarations : List Declaration := []
  pointerTypes : Table (TypeId × StorageClass) TypeId := {}
  deriving Repr, Inhabited

namespace Program

def initial : Program :=
  { types := ⟨builtinTypes.toArray⟩ }

def type (program : Program) (type : TypeId) : TypeNode :=
  program.types.get type

def expr (program : Program) (expr : ExprId) : Expr :=
  program.exprs.get expr

def stmt (program : Program) (stmt : StmtId) : Stmt :=
  program.stmts.get stmt

def var (program : Program) (var : VarId) : Variable :=
  program.vars.get var

def function (program : Program) (function : FunctionId) : Function :=
  program.functions.get function

def typeName (program : Program) (type : TypeId) : String :=
  (program.type type).name

def primitive? (program : Program) (type : TypeId) : Option PrimitiveType :=
  match (program.type type).kind with
  | .primitive primitive => some primitive
  | _ => none

def isInteger (program : Program) (type : TypeId) : Bool :=
  match program.primitive? type with
  | some (.int _ _) => true
  | _ => false

def isFloat (program : Program) (type : TypeId) : Bool :=
  match program.primitive? type with
  | some (.float _) => true
  | _ => false

def isNumeric (program : Program) (type : TypeId) : Bool :=
  program.isInteger type || program.isFloat type

def isPrimitive (program : Program) (type : TypeId) : Bool :=
  type == .bool || program.isNumeric type

def isPointer (program : Program) (type : TypeId) : Bool :=
  match (program.type type).kind with
  | .pointer _ _ => true
  | _ => false

def isStruct (program : Program) (type : TypeId) : Bool :=
  match (program.type type).kind with
  | .struct _ _ => true
  | _ => false

def pointee? (program : Program) (type : TypeId) : Option TypeId :=
  match (program.type type).kind with
  | .pointer pointee _ => some pointee
  | _ => none

def vectorWidth? (program : Program) (type : TypeId) : Option Nat :=
  match (program.type type).kind with
  | .struct _ width => width
  | _ => none

def isVector (program : Program) (type : TypeId) : Bool :=
  (program.vectorWidth? type).isSome

def members? (program : Program) (type : TypeId) : Option (List Member) :=
  match (program.type type).kind with
  | .struct members _ => some members
  | _ => none

def members (program : Program) (type : TypeId) : List Member :=
  (program.members? type).getD []

def inDomain (program : Program) (type : TypeId) : OperandDomain → Bool
  | .bool => type == .bool
  | .integer => program.isInteger type
  | .primitive => program.isPrimitive type
  | .numeric => program.isNumeric type

def floatVector? : Nat → Option TypeId
  | 1 => some .f32
  | 2 => some .float2
  | 3 => some .float3
  | 4 => some .float4
  | _ => none

/-- The pointer type with a given target and storage class, which is made when it is first asked
for. -/
def pointerTo (program : Program) (pointee : TypeId) (storage : StorageClass) :
    TypeId × Program :=
  match program.pointerTypes.find? (pointee, storage) with
  | some type => (type, program)
  | none =>
    let type := program.types.next
    let node : TypeNode := ⟨program.typeName pointee ++ "*", .pointer pointee storage, none⟩
    (type,
      { program with
        types := program.types.append node
        pointerTypes := program.pointerTypes.insert (pointee, storage) type })

def findFunction? (program : Program) (name : String) : Option FunctionId :=
  program.functions.find? fun function => function.name == name

def definedFunctions (program : Program) : List FunctionId :=
  program.declarations.filterMap fun declaration =>
    match declaration with
    | .function function =>
      if (program.function function).body.isSome then some function else none
    | _ => none

/-- Whether an expression has a ternary expression in it, found at a depth of less than `depth`. -/
def branchesWithin (program : Program) : Nat → ExprId → Bool
  | 0, _ => false
  | depth + 1, expr =>
    match (program.expr expr).kind with
    | .ternary _ _ _ => true
    | kind => kind.children.any (program.branchesWithin depth)

/-- Whether evaluating an expression takes more than one path. No expression is nested deeper than
there are expressions. -/
def branches (program : Program) (expr : ExprId) : Bool :=
  program.branchesWithin program.exprs.size expr

end Program

end Shader
