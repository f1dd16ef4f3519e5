import Shader.Parser.Attribute

/-! # Entry points

The rules for the attributes of functions and their arguments. A function with a stage attribute is an
entry point: its result is what the stage writes, and each of its arguments is either the stage input
or a buffer with one Vulkan binding and one Metal index. -/

namespace Shader

/-! ## Stages -/

def AttributeKind.stage? : AttributeKind → Option FunctionKind
  | .fragment => some .fragment
  | .vertex => some .vertex
  | _ => none

/-- The stage of a function, from at most one of its attributes. `found` is the place of a stage
attribute in front of these. -/
def functionKind (found : Option (FunctionKind × Span)) :
    List Attribute → Except Diagnostic FunctionKind
  | [] => .ok ((found.map Prod.fst).getD .plain)
  | attr :: rest =>
    match attr.kind.stage? with
    | none => functionKind found rest
    | some kind =>
      match found with
      | some (_, previous) => .error (.clash previous attr.span .functionKindRepeated)
      | none => functionKind (some (kind, attr.span)) rest

/-! ## Results -/

/-- The color index of a member, from exactly one of its attributes. `found` comes from the attributes
in front of these. -/
def memberColor (found : Option (UInt32 × Span)) :
    List Attribute → Except Diagnostic (Option (UInt32 × Span))
  | [] => .ok found
  | attr :: rest =>
    match attr.kind.color? with
    | none => memberColor found rest
    | some index =>
      match found with
      | some (_, previous) => .error (.clash previous attr.span .colorRepeated)
      | none => memberColor (some (index, attr.span)) rest

/-- Every member of an output has a color index of its own. `seen` are the indices of the members in
front of these. -/
def checkColors (seen : List (UInt32 × Span)) : List Member → Except Diagnostic Unit
  | [] => .ok ()
  | member :: rest => do
    match ← memberColor none member.attributes with
    | none => .error (.typingAt member.span .colorMissing)
    | some (index, span) =>
      match seen.lookup index with
      | some previous => .error (.clash previous span (.colorIndexUsed index.toNat))
      | none => checkColors (seen ++ [(index, span)]) rest

def checkResult (program : Program) (function : Function) : Except Diagnostic Unit :=
  match function.kind with
  | .plain => .ok ()
  | .vertex =>
    if function.returnType == .void then .ok ()
    else .error (.typingAt function.span .vertexResult)
  | .fragment =>
    if function.returnType == .void || function.returnType == .float4 then .ok ()
    else if !program.isStruct function.returnType || program.isVector function.returnType then
      .error (.typingAt function.span .fragmentResult)
    else checkColors [] (program.members function.returnType)

/-! ## Arguments -/

inductive ArgumentRole where
  | stageIn
  | buffer
  deriving DecidableEq, Repr

def AttributeKind.role? (kind : AttributeKind) : Option ArgumentRole :=
  if kind = .stageIn then some .stageIn
  else if kind.isBuffer then some .buffer
  else none

structure BufferBindings where
  vulkan : Option ((UInt32 × UInt32) × Span) := none
  metal : Option (UInt32 × Span) := none
  deriving DecidableEq, Repr

def bufferBindings (found : BufferBindings) : List Attribute → Except Diagnostic BufferBindings
  | [] => .ok found
  | attr :: rest =>
    let metal (index : UInt32) (repeated : TypingCause) : Except Diagnostic BufferBindings :=
      match found.metal with
      | some (_, previous) => .error (.clash previous attr.span repeated)
      | none => bufferBindings { found with metal := some (index, attr.span) } rest
    match attr.kind with
    | .vkUniform set binding =>
      match found.vulkan with
      | some (_, previous) => .error (.clash previous attr.span .uniformRepeated)
      | none => bufferBindings { found with vulkan := some ((set, binding), attr.span) } rest
    | .mtlBuffer index => metal index .metalBufferRepeated
    | .mtlConstant index => metal index .metalConstantRepeated
    | _ => .error (.typingAt attr.span .unexpectedAttribute)

def metalSmaller (left right : UInt32) : Bool :=
  left < right

def vulkanSmaller (left right : UInt32 × UInt32) : Bool :=
  left.1 < right.1 || (left.1 == right.1 && left.2 < right.2)

/-- The function with an argument as its stage input, which has to be a struct. -/
def bindStageIn (program : Program) (function : Function) (argument : VarId) :
    Except Diagnostic Function :=
  let var := program.var argument
  if !program.isStruct var.type then .error (.typingAt var.span .stageInputNotStruct)
  else
    match function.stageIn with
    | some previous =>
      .error (.clash (program.var previous).span var.span .stageInputRepeated)
    | none => .ok { function with stageIn := some argument }

/-- The function with an argument as a buffer, which has to be a pointer with free bindings. -/
def bindBuffer (program : Program) (function : Function) (argument : VarId) :
    Except Diagnostic Function := do
  let var := program.var argument
  if !program.isPointer var.type then .error (.typingAt var.span .bufferNotPointer)
  else
    let bindings ← bufferBindings {} var.attributes
    match bindings.vulkan, bindings.metal with
    | none, _ => .error (.typingAt var.span .uniformMissing)
    | some _, none => .error (.typingAt var.span .metalMissing)
    | some (place, vulkanSpan), some (index, metalSpan) =>
      match function.mtlBuffers.find? index with
      | some previous =>
        .error (.clash previous.span metalSpan (.metalIndexUsed index.toNat))
      | none =>
        match function.vkBindings.find? place with
        | some previous =>
          .error (.clash previous.span vulkanSpan (.vulkanBindingUsed place.1.toNat place.2.toNat))
        | none =>
          .ok { function with
            mtlBuffers := function.mtlBuffers.insertOrdered metalSmaller index ⟨argument, metalSpan⟩
            vkBindings := function.vkBindings.insertOrdered vulkanSmaller place ⟨argument, vulkanSpan⟩ }

/-- The role of an argument, from the first of its attributes that gives one. -/
def roleOf (var : Variable) : Option ArgumentRole :=
  var.attributes.findSome? fun attr => attr.kind.role?

def ArgumentRole.uses : ArgumentRole → AttributeKind → Bool
  | .stageIn => fun kind => kind == .stageIn
  | .buffer => AttributeKind.isBuffer

namespace Parser

def markArgument (argument : VarId) (role : ArgumentRole) : Parser Unit :=
  modifyProgram fun program =>
    { program with
      vars := program.vars.modify argument fun var =>
        { var with attributes := markUsed var.attributes role.uses } }

def bindArgument (function : Function) (argument : VarId) : Parser Function := do
  let program ← program
  let var := program.var argument
  match roleOf var with
  | none => throw (.typingAt var.span .unexpectedEntryArgument)
  | some role =>
    let bound ← accept
      (match role with
      | .stageIn => bindStageIn program function argument
      | .buffer => bindBuffer program function argument)
    markArgument argument role
    return bound

/-- Give the arguments of an entry point their roles, and check the attributes of all arguments. -/
def bindArguments (function : Function) : List VarId → Parser Function
  | [] => return function
  | argument :: rest => do
    let bound ←
      if function.isEntryPoint then bindArgument function argument else pure function
    accept (checkUsed ((← program).var argument).attributes)
    bindArguments bound rest

end Parser

end Shader
