import Shader.Diagnostic.Basic
import Shader.Program.Basic

/-! # Typing

The typing rules of expressions, as functions from the parts of an expression to its type or to the
error that they make together. Where a rule has several conditions, the first one that fails gives
the error. -/

namespace Shader

/-! ## Operators -/

/-- Whether an operator works on vectors: the four arithmetic ones and plain assignment. -/
def BinaryOp.worksOnVectors : BinaryOp → Bool
  | .mul | .div | .add | .sub | .assign => true
  | _ => false

/-- The type of an infix operator applied to a vector: the vector itself. The right operand is a
float or the same vector. -/
def typeOfVectorBinary (program : Program) (op : BinaryOp) (opSpan : Span) (left right : Expr) :
    Except Diagnostic TypeId :=
  if !op.base.worksOnVectors then
    .error (.typingWith [.green left.span, .red opSpan, .cyan right.span]
      (.vectorOperator op.token (program.typeName left.type)))
  else if right.type != .f32 && right.type != .f64 && right.type != left.type then
    .error (.typingAt opSpan
      (.vectorOperand op.token (program.typeName right.type) (program.typeName left.type)))
  else .ok left.type

/-- The type of an infix operator applied to anything but a vector: the common type of the operands,
or `bool` for a comparison. -/
def typeOfScalarBinary (program : Program) (op : BinaryOp) (opSpan : Span) (left right : Expr) :
    Except Diagnostic TypeId :=
  let result : Except Diagnostic TypeId :=
    if left.type != right.type then
      .error (.typingWith [.green left.span, .cyan opSpan, .red right.span]
        (.operandMismatch (program.typeName left.type) (program.typeName right.type)))
    else .ok (if op.base.isComparison then .bool else left.type)
  match op.base.domain? with
  | some domain =>
    if program.inDomain left.type domain then result
    else
      .error (.typingAt opSpan (.operandDomain op.token domain (program.typeName left.type)))
  | none => result

def typeOfBinary (program : Program) (op : BinaryOp) (opSpan : Span) (left right : Expr) :
    Except Diagnostic TypeId :=
  if op == .comma then .ok right.type
  else if op.isAssignment && !left.isLvalue then
    .error (.typingWith [.red left.span, .cyan opSpan] (.assignmentTarget op.token))
  else if left.type == .void then .error (.typingAt opSpan (.voidOperand op.token))
  else if program.isVector left.type then typeOfVectorBinary program op opSpan left right
  else typeOfScalarBinary program op opSpan left right

def typeOfNumeric (program : Program) (op : UnaryOp) (opSpan : Span) (operand : Expr) :
    Except Diagnostic TypeId :=
  if program.isNumeric operand.type then .ok operand.type
  else .error (.typingAt opSpan (.numericOperand op.token (program.typeName operand.type)))

/-- The type of a leading operator, other than the two for pointers, applied to an operand: the type
of the operand. -/
def typeOfUnary (program : Program) (op : UnaryOp) (opSpan : Span) (operand : Expr) :
    Except Diagnostic TypeId :=
  let integers : Except Diagnostic TypeId :=
    if program.isInteger operand.type then typeOfNumeric program op opSpan operand
    else .error (.typingAt opSpan (.integerOperand op.token))
  match op with
  | .preIncrement | .preDecrement =>
    if operand.isLvalue then typeOfNumeric program op opSpan operand
    else .error (.typingAt opSpan (.locationOperand op.token))
  | .logicalNot => if operand.type == .bool then .ok operand.type else integers
  | .bitNot => integers
  | _ => typeOfNumeric program op opSpan operand

/-- The type of a trailing operator applied to an operand: the type of the operand. -/
def typeOfTrailing (program : Program) (op : UnaryOp) (opSpan : Span) (operand : Expr) :
    Except Diagnostic TypeId :=
  if !program.isNumeric operand.type then
    .error (.typingAt opSpan (.numericTrailingOperand op.token (program.typeName operand.type)))
  else if !operand.isLvalue then .error (.typingAt opSpan (.locationOperand op.token))
  else .ok operand.type

def typeOfDeref (program : Program) (opSpan : Span) (pointer : Expr) :
    Except Diagnostic TypeId :=
  match program.pointee? pointer.type with
  | some pointee => .ok pointee
  | none => .error (.typingAt opSpan (.pointerOperand (program.typeName pointer.type)))

def checkAddress (opSpan : Span) (operand : Expr) : Except Diagnostic Unit :=
  if !operand.isLvalue then
    .error (.typingAt opSpan (.locationOperand UnaryOp.addressOf.token))
  else
    match operand.kind with
    | .swizzle _ _ => .error (.typingWith [.red opSpan, .green operand.span] .swizzleAddress)
    | _ => .ok ()

def typeOfTernary (program : Program) (condition onTrue onFalse : Expr) :
    Except Diagnostic TypeId :=
  if condition.type != .bool then
    .error (.typingAt condition.span (.ternaryCondition (program.typeName condition.type)))
  else if onTrue.type != onFalse.type then
    .error (.clash onTrue.span onFalse.span
      (.ternaryMismatch (program.typeName onTrue.type) (program.typeName onFalse.type)))
  else .ok onTrue.type

/-! ## Members and elements -/

def swizzleSets : List (List Char) :=
  [['x', 'y', 'z', 'w'], ['r', 'g', 'b', 'a']]

def componentsIn? (letters : List Char) (width : Nat) (name : List Char) : Option (List Nat) :=
  name.mapM fun letter => (letters.idxOf? letter).filter fun component => component < width

/-- The components that a name selects in a vector of a width: one to four letters of one set. -/
def swizzle? (name : List Char) (width : Nat) : Option (List Nat) :=
  if name.isEmpty || 4 < name.length then none
  else swizzleSets.findSome? fun letters => componentsIn? letters width name

inductive Selection where
  | member (index : Nat) (type : TypeId)
  | swizzle (components : List Nat) (type : TypeId)
  deriving DecidableEq, Repr

/-- The struct that members are selected from: the type of the base, or what it points to. -/
def structOf (program : Program) (dotSpan : Span) (base : TypeId) : Except Diagnostic TypeId :=
  if program.isStruct base then .ok base
  else
    match program.pointee? base with
    | some pointee =>
      if program.isStruct pointee then .ok pointee
      else .error (.typingAt dotSpan (.structExpected (program.typeName pointee)))
    | none => .error (.typingAt dotSpan (.memberOfNonStruct (program.typeName base)))

def findMember (program : Program) (type : TypeId) (name : String) (span : Span) :
    Except Diagnostic Selection :=
  let members := program.members type
  match members.findIdx? fun member => member.name == name with
  | some index =>
    match members[index]? with
    | some member => .ok (.member index member.type)
    | none => .error (.typingAt span (.memberMissing name (program.typeName type)))
  | none => .error (.typingAt span (.memberMissing name (program.typeName type)))

/-- What a name selects from a struct. A vector is asked for components first. -/
def selectMember (program : Program) (type : TypeId) (name : String) (span : Span) :
    Except Diagnostic Selection :=
  match (program.vectorWidth? type).bind (swizzle? name.toList) with
  | some [component] => .ok (.member component .f32)
  | some components =>
    match Program.floatVector? components.length with
    | some vector => .ok (.swizzle components vector)
    | none => .error (.typingAt span (.invalidSwizzle name))
  | none => findMember program type name span

def typeOfIndex (program : Program) (openSpan : Span) (base : Expr) :
    Except Diagnostic TypeId :=
  match program.pointee? base.type with
  | some element => .ok element
  | none => .error (.typingAt openSpan (.indexedNonPointer (program.typeName base.type)))

def checkIndex (program : Program) (openSpan : Span) (position : Expr) :
    Except Diagnostic Unit :=
  if program.isInteger position.type then .ok ()
  else .error (.typingAt openSpan (.indexNotInteger (program.typeName position.type)))

/-! ## Arguments and conditions -/

def checkInit (program : Program) (expected : TypeId) (init : Expr) : Except Diagnostic Unit :=
  if init.type != expected then
    .error (.typingAt init.span
      (.initializerMismatch (program.typeName expected) (program.typeName init.type)))
  else .ok ()

/-- Each argument of a struct initializer has the type of its member, and there are not more
arguments than members. `total` is the number of all members. -/
def checkMembers (program : Program) (type : TypeId) (total : Nat) :
    List TypeId → List Expr → Except Diagnostic Unit
  | _, [] => .ok ()
  | [], argument :: _ =>
    .error (.typingAt argument.span (.initializerExceeded (program.typeName type) total))
  | member :: members, argument :: arguments => do
    checkInit program member argument
    checkMembers program type total members arguments

def checkInitializer (program : Program) (type : TypeId) (closeSpan : Span)
    (arguments : List Expr) : Except Diagnostic Unit := do
  let members := (program.members type).map Member.type
  checkMembers program type members.length members arguments
  if arguments.length != members.length then
    .error (.typingAt closeSpan (.initializerCount members.length arguments.length))
  else .ok ()

def checkArgumentTypes (program : Program) :
    List TypeId → List Expr → Except Diagnostic Unit
  | expected :: rest, argument :: arguments =>
    if argument.type != expected then
      .error (.typingAt argument.span
        (.argumentMismatch (program.typeName expected) (program.typeName argument.type)))
    else checkArgumentTypes program rest arguments
  | _, _ => .ok ()

/-- A call has one argument of the right type for each argument of the function. -/
def checkArguments (program : Program) (callee : Function) (callSpan : Span)
    (arguments : List Expr) : Except Diagnostic Unit :=
  let expected := callee.arguments.map fun argument => (program.var argument).type
  if arguments.length != expected.length then
    .error (.typingAt callSpan (.argumentCount expected.length callee.name arguments.length))
  else checkArgumentTypes program expected arguments

def checkCondition (program : Program) (condition : Expr) : Except Diagnostic Unit :=
  if condition.type != .bool then
    .error (.typingAt condition.span (.conditionNotBool (program.typeName condition.type)))
  else .ok ()

def checkReturn (program : Program) (expected : TypeId) (value : Expr) :
    Except Diagnostic Unit :=
  if value.type != expected then
    .error (.typingAt value.span (.returnMismatch (program.typeName expected) (program.typeName value.type)))
  else .ok ()

end Shader
