import Shader.Parser.Expression

/-! # Parsing attributes

Attributes stand in double brackets. Their arguments are integer literals, which may be negated in the
source but have to be indices of 32 bits in the end. -/

namespace Shader

/-! ## Arguments -/

/-- The value of an integer literal under negations, nested less than `depth` deep. -/
def constantWithin (program : Program) : Nat → ExprId → Except Diagnostic Int64
  | 0, _ => .error ⟨.exhausted, [], []⟩
  | depth + 1, id =>
    let expr := program.expr id
    match expr.kind with
    | .literal (.int value) => .ok value.toInt64
    | .unary .negate operand => do
      let value ← constantWithin program depth operand
      return -value
    | .unary op _ => .error (.typingAt expr.span (.attributeOperator op.token))
    | _ => .error (.typingAt expr.span (.attributeNotLiteral (program.typeName expr.type)))

def indexValue (program : Program) (id : ExprId) : Except Diagnostic UInt32 := do
  let value ← constantWithin program program.exprs.size id
  let span := (program.expr id).span
  if value.toInt < 0 then .error (.typingAt span (.indexNegative value.toInt))
  else if 4294967295 < value.toInt then .error (.typingAt span (.indexTooLarge value.toInt))
  else .ok value.toInt.toNat.toUInt32

def plainAttribute (name : String) (span : Span) (kind : AttributeKind) (arguments : List ExprId) :
    Except Diagnostic AttributeKind :=
  if arguments.isEmpty then .ok kind
  else .error (.typingAt span (.attributeArguments name arguments.length))

/-- A uniform attribute: set and binding, or a binding in set zero, or the first of all. -/
def uniformAttribute (program : Program) (span : Span) (arguments : List ExprId) :
    Except Diagnostic AttributeKind :=
  match arguments with
  | [] => .ok (.vkUniform 0 0)
  | [binding] => do
    return .vkUniform 0 (← indexValue program binding)
  | [set, binding] => do
    let set ← indexValue program set
    let binding ← indexValue program binding
    return .vkUniform set binding
  | _ => .error (.typingAt span .uniformArguments)

def metalIndex (program : Program) (span : Span) (arguments : List ExprId) :
    Except Diagnostic UInt32 :=
  match arguments with
  | [] => .ok 0
  | [index] => indexValue program index
  | _ => .error (.typingAt span .metalArguments)

def attributeKind (program : Program) (name : Token) (arguments : List ExprId) (span : Span) :
    Except Diagnostic AttributeKind :=
  match name.text with
  | "vk_uniform" => uniformAttribute program span arguments
  | "mtl_buffer" => do
    return .mtlBuffer (← metalIndex program span arguments)
  | "mtl_constant" => do
    return .mtlConstant (← metalIndex program span arguments)
  | "position" => plainAttribute name.text span .position arguments
  | "stage_in" => plainAttribute name.text span .stageIn arguments
  | "fragment" => plainAttribute name.text span .fragment arguments
  | "vertex" => plainAttribute name.text span .vertex arguments
  | "color" =>
    match arguments with
    | [index] => do
      return .color (← indexValue program index)
    | _ => .error (.typingAt span (.colorArguments arguments.length))
  | _ => .error (.typingAt name.span .unknownAttribute)

/-! ## Use -/

def markUsed (attributes : List Attribute) (test : AttributeKind → Bool) : List Attribute :=
  attributes.map fun attr => if test attr.kind then { attr with used := true } else attr

def checkUsed (attributes : List Attribute) : Except Diagnostic Unit :=
  match attributes.find? fun attr => !attr.used with
  | some attr => .error (.typingAt attr.span (.attributeUnused attr.kind.name))
  | none => .ok ()

namespace Parser

def attribute? : Parser (Option Attribute) := do
  let token ← peek
  if token.kind = .attributeOpen then
    let _ ← advance
    let name ← expectIdentifier
    let arguments ←
      if ← eat "(" then
        let (arguments, _) ← argumentsWithin (← depthLimit) true
        pure arguments
      else pure []
    let close ← peek
    unless close.kind = .attributeClose do
      throw (.grammarAt close.span (.expected "]]"))
    let _ ← advance
    let span := token.span.cover close.span
    let kind ← accept (attributeKind (← program) name arguments span)
    return some { kind, span }
  else
    return none

def attributeRound (found : List Attribute) : Parser (List Attribute ⊕ List Attribute) := do
  match ← attribute? with
  | some attr => return .inl (found ++ [attr])
  | none => return .inr found

def attributes : Parser (List Attribute) :=
  repeatFrom [] attributeRound

end Parser

end Shader
