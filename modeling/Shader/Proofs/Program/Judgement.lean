import Mathlib
import Shader.Typing

/-! # The typing judgement

The typing rules of the language as a relation: which type an expression has, given the types of its
parts, and whether it is a location. -/

namespace Shader

def Literal.type : Literal → TypeId
  | .int _ => .s32
  | .single _ => .f32
  | .double _ => .f64
  | .bool _ => .bool

namespace Program

variable {program : Program} {kind : ExprKind} {type other : TypeId} {lvalue location : Bool}

/-- The struct that a member of a value is selected from: the type of the value itself, or what it
points to. The last argument tells whether a pointer is followed. -/
inductive StructBehind (program : Program) : TypeId → TypeId → Bool → Prop where
  | itself {type : TypeId} (isStruct : program.isStruct type = true) :
    StructBehind program type type false
  | pointee {type struct : TypeId} (points : program.pointee? type = some struct)
      (isStruct : program.isStruct struct = true) :
    StructBehind program type struct true

/-- An expression of a kind has a type, and is a location or not. -/
inductive HasType (program : Program) : ExprKind → TypeId → Bool → Prop where
  | literal (value : Literal) : HasType program (.literal value) value.type false
  | var {var : VarId} (has : var.index < program.vars.size) :
    HasType program (.var var) (program.var var).type true
  | comma {opSpan : Span} {left right : ExprId} :
    HasType program (.binary .comma opSpan left right) (program.expr right).type false
  /-- A vector is combined with a float or with a vector of the same type. -/
  | vector {op : BinaryOp} {opSpan : Span} {left right : ExprId}
      (isVector : program.isVector (program.expr left).type = true)
      (works : op.base.worksOnVectors = true)
      (target : op.isAssignment = true → (program.expr left).isLvalue = true)
      (operand : (program.expr right).type ∈ [.f32, .f64, (program.expr left).type]) :
    HasType program (.binary op opSpan left right) (program.expr left).type false
  /-- Two operands that are no vectors have the same type, and a comparison gives a truth value. -/
  | scalar {op : BinaryOp} {opSpan : Span} {left right : ExprId} (noComma : op ≠ .comma)
      (noVoid : (program.expr left).type ≠ .void)
      (noVector : program.isVector (program.expr left).type = false)
      (target : op.isAssignment = true → (program.expr left).isLvalue = true)
      (domain : ∀ domain, op.base.domain? = some domain →
        program.inDomain (program.expr left).type domain = true)
      (same : (program.expr right).type = (program.expr left).type) :
    HasType program (.binary op opSpan left right)
      (if op.base.isComparison then .bool else (program.expr left).type) false
  | sign {op : UnaryOp} {operand : ExprId} (isSign : op = .plus ∨ op = .negate)
      (isNumeric : program.isNumeric (program.expr operand).type = true) :
    HasType program (.unary op operand) (program.expr operand).type false
  | logicalNot {operand : ExprId}
      (fits : (program.expr operand).type = .bool ∨ program.isInteger (program.expr operand).type = true) :
    HasType program (.unary .logicalNot operand) (program.expr operand).type false
  | bitNot {operand : ExprId} (isInteger : program.isInteger (program.expr operand).type = true) :
    HasType program (.unary .bitNot operand) (program.expr operand).type false
  | increment {op : UnaryOp} {operand : ExprId} (steps : op.isIncrement = true)
      (isNumeric : program.isNumeric (program.expr operand).type = true)
      (target : (program.expr operand).isLvalue = true) :
    HasType program (.unary op operand) (program.expr operand).type false
  /-- The address of a location, which several components of a vector are not. -/
  | addressOf {operand : ExprId} {type : TypeId} (target : (program.expr operand).isLvalue = true)
      (noSwizzle : ∀ base components, (program.expr operand).kind ≠ .swizzle base components)
      (isPointer : (program.type type).kind = .pointer (program.expr operand).type .function) :
    HasType program (.unary .addressOf operand) type false
  | deref {pointer : ExprId} {type : TypeId}
      (points : program.pointee? (program.expr pointer).type = some type) :
    HasType program (.deref pointer) type true
  | ternary {condition onTrue onFalse : ExprId} (isBool : (program.expr condition).type = .bool)
      (same : (program.expr onFalse).type = (program.expr onTrue).type) :
    HasType program (.ternary condition onTrue onFalse) (program.expr onTrue).type false
  /-- A member is a location if its struct is one or stands behind a pointer. -/
  | member {base : ExprId} {index : Nat} {struct : TypeId} {member : Member} {follows : Bool}
      (behind : program.StructBehind (program.expr base).type struct follows)
      (found : (program.members struct)[index]? = some member) :
    HasType program (.member base index) member.type ((program.expr base).isLvalue || follows)
  /-- Several components are a location only if none of them is selected twice. -/
  | swizzle {base : ExprId} {components : List Nat} {struct type : TypeId} {width : Nat}
      {follows : Bool} (behind : program.StructBehind (program.expr base).type struct follows)
      (isVector : program.vectorWidth? struct = some width)
      (below : ∀ component ∈ components, component < width) (several : 2 ≤ components.length)
      (found : floatVector? components.length = some type) :
    HasType program (.swizzle base components) type
      (((program.expr base).isLvalue || follows) && decide components.Nodup)
  | index {base position : ExprId} {type : TypeId}
      (points : program.pointee? (program.expr base).type = some type)
      (isInteger : program.isInteger (program.expr position).type = true) :
    HasType program (.index base position) type true
  /-- A call has one argument of the right type for each parameter. -/
  | call {function : FunctionId} {arguments : List ExprId}
      (has : function.index < program.functions.size)
      (isPlain : (program.function function).isEntryPoint = false)
      (same : arguments.map (fun argument => (program.expr argument).type) =
        (program.function function).arguments.map fun argument => (program.var argument).type) :
    HasType program (.call function arguments) (program.function function).returnType false
  /-- A struct is made of one value of the right type for each member. -/
  | structInit {type : TypeId} {arguments : List ExprId} (isStruct : program.isStruct type = true)
      (same : arguments.map (fun argument => (program.expr argument).type) =
        (program.members type).map Member.type) :
    HasType program (.structInit type arguments) type false

/-! ## Uniqueness -/

def PointersDistinct (program : Program) : Prop :=
  ∀ type other pointee storage, (program.type type).kind = .pointer pointee storage →
    (program.type other).kind = .pointer pointee storage → type = other

theorem StructBehind.unique {struct another : TypeId} {follows passes : Bool}
    (first : program.StructBehind type struct follows)
    (second : program.StructBehind type another passes) : struct = another ∧ follows = passes := by
  have apart (isStruct : program.isStruct type = true) (target : TypeId)
      (points : program.pointee? type = some target) : False := by
    unfold Program.isStruct at isStruct
    unfold pointee? at points
    split at points
    · rename_i isPointer
      rw [isPointer] at isStruct
      cases isStruct
    · cases points
  cases first with
  | itself isStruct =>
    cases second with
    | itself => exact ⟨rfl, rfl⟩
    | pointee points => exact (apart isStruct _ points).elim
  | pointee points =>
    cases second with
    | itself isStruct => exact (apart isStruct _ points).elim
    | pointee others =>
      rw [points] at others
      cases others
      exact ⟨rfl, rfl⟩

theorem HasType.unique (distinct : program.PointersDistinct) (first : program.HasType kind type lvalue)
    (second : program.HasType kind other location) : type = other ∧ lvalue = location := by
  cases first with
  | literal | var | call | structInit | ternary | comma =>
    cases second <;> simp_all [BinaryOp.base, BinaryOp.worksOnVectors]
  | vector isVector works =>
    cases second with
    | comma => exact absurd works (by decide)
    | vector => exact ⟨rfl, rfl⟩
    | scalar _ _ noVector => simp [isVector] at noVector
  | scalar noComma _ noVector =>
    cases second with
    | comma => exact absurd rfl noComma
    | vector isVector => simp [isVector] at noVector
    | scalar => exact ⟨rfl, rfl⟩
  | sign isSign =>
    cases second with
    | addressOf => exact absurd isSign (by decide)
    | _ => exact ⟨rfl, rfl⟩
  | increment steps =>
    cases second with
    | addressOf => exact absurd steps (by decide)
    | _ => exact ⟨rfl, rfl⟩
  | logicalNot | bitNot => cases second <;> exact ⟨rfl, rfl⟩
  | addressOf _ _ isPointer =>
    cases second with
    | sign isSign => exact absurd isSign (by decide)
    | increment steps => exact absurd steps (by decide)
    | addressOf _ _ isOther => exact ⟨distinct _ _ _ _ isPointer isOther, rfl⟩
  | deref points =>
    cases second with
    | deref others =>
      rw [points] at others
      cases others
      exact ⟨rfl, rfl⟩
  | index points =>
    cases second with
    | index others =>
      rw [points] at others
      cases others
      exact ⟨rfl, rfl⟩
  | member behind found =>
    cases second with
    | member others isOther =>
      obtain ⟨rfl, rfl⟩ := behind.unique others
      rw [found] at isOther
      cases isOther
      exact ⟨rfl, rfl⟩
  | swizzle behind _ _ _ found =>
    cases second with
    | swizzle others _ _ _ isOther =>
      obtain ⟨rfl, rfl⟩ := behind.unique others
      rw [found] at isOther
      cases isOther
      exact ⟨rfl, rfl⟩

end Program

end Shader
