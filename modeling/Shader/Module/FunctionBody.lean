import Shader.Module.EntryPoint
import Shader.Module.Selection

/-! # Writing functions

The instructions of a function follow the blocks and values of its graph. Constants and global
variables are declared on the way; every other value gets an id when it is first used or written. -/

namespace Shader

/-- An address of a vector of which only some components are meant. They are read and changed through
the whole vector. -/
structure SwizzledPointer where
  pointer : Id
  vector : TypeId
  components : List Nat
  deriving DecidableEq, Repr

structure Writer where
  emitter : Emitter
  ids : Table ValueId Id := {}
  labels : Table BlockId Id := {}
  swizzled : Table ValueId SwizzledPointer := {}
  body : List Instruction := []
  deriving Inhabited

/-- What is written: a graph of a program, with its interface if it is an entry point. -/
structure WriteContext where
  program : Program
  graph : Graph
  interface : Option EntryInterface

/-- A path into an aggregate: members, then some components at most. -/
structure Path where
  members : List Nat
  components : Option (List Nat)
  deriving DecidableEq, Repr

namespace Path

def words (indices : List Nat) : List Word :=
  indices.map Nat.toUInt32

end Path

abbrev Write := EStateM Failure Writer

namespace Write

variable (context : WriteContext)

def fail {α : Type} (fault : Fault) : Write α :=
  throw (.fault fault)

def refuse {α : Type} (cause : EmissionCause) : Write α :=
  throw (.reported (.emissionOf cause))

def emitting {α : Type} (step : Emit α) : Write α :=
  onPart Writer.emitter (fun writer emitter => { writer with emitter }) step

def write (instruction : Instruction) : Write Unit :=
  modify fun writer => { writer with body := writer.body ++ [instruction] }

/-! ## Types and paths -/

def valueType (value : ValueId) : Write TypeId :=
  match (context.graph.value value).type with
  | some type => pure type
  | none => refuse (.typeMissing value.index)

def typeId (type : TypeId) : Write Id :=
  emitting (Emit.typeId context.program type)

def typeOf (value : ValueId) : Write Id := do
  typeId context (← valueType context value)

def argument (value : ValueId) (position : Nat) : Write ValueId :=
  let args := (context.graph.value value).args
  match args[position]? with
  | some arg => pure arg
  | none => fail (.operandMissing args.length position)

def argumentsFrom (value : ValueId) (position : Nat) : Write (List ValueId) :=
  let args := (context.graph.value value).args
  if position ≤ args.length then pure (args.drop position)
  else fail (.pathMissing args.length position)

/-- The memory that an address belongs to, found less than `depth` parts away. -/
def memoryWithin : Nat → ValueId → Write MemoryClass
  | 0, _ => fail .exhausted
  | depth + 1, pointer => do
    let node := context.graph.value pointer
    match node.opcode with
    | .alloca => return .function
    | .globalVar => return .privateData
    | .uniformPtr => return .uniform
    | .elementPtr => memoryWithin depth (← argument context pointer 0)
    | opcode => refuse (.pointerExpected pointer.index opcode.name)

def memory (pointer : ValueId) : Write MemoryClass :=
  memoryWithin context (context.graph.values.size + 1) pointer

def numericClass (type : TypeId) : Write NumericClass :=
  match context.program.numericClass? type with
  | some class_ => pure class_
  | none => refuse (.arithmeticUnsupported (context.program.typeName type))

def memberType (type : TypeId) (member : Nat) : Write TypeId :=
  match (context.program.members type)[member]? with
  | some node => pure node.type
  | none => refuse (.memberMissing (context.program.typeName type) member)

def walk (type : TypeId) (members : List Nat) : Write TypeId :=
  members.foldlM (memberType context) type

def splitPath : List ValueId → Write Path
  | [] => return ⟨[], none⟩
  | marker :: rest =>
    match (context.graph.value marker).payload, rest with
    | .member index, _ => do
      let path ← splitPath rest
      return { path with members := index :: path.members }
    | .components components, [] => return ⟨[], some components⟩
    | _, _ => refuse (.pathElement marker.index)

/-! ## Operands -/

def noteId (value : ValueId) (id : Id) : Write Unit :=
  modify fun writer => { writer with ids := writer.ids.insert value id }

/-- The id that a value gets. Constants and global variables have those of the module. -/
def freshOperand (value : ValueId) : Write Id := do
  let node := context.graph.value value
  match node.opcode, node.payload with
  | .const, .literal literal =>
    let type ← valueType context value
    emitting (Emit.constant context.program type literal)
  | .zeroInit, _ =>
    let type ← valueType context value
    emitting (Emit.constantNull context.program type)
  | .undef, _ =>
    let type ← valueType context value
    emitting (Emit.undef context.program type)
  | .globalVar, .var var => emitting (Emit.globalVar context.program var)
  | opcode, _ =>
    if opcode.isMarker then refuse (.markerOperand value.index)
    else emitting Emit.freshId

def operand (value : ValueId) : Write Id := do
  match (← get).ids.find? value with
  | some id => return id
  | none =>
    let id ← freshOperand context value
    noteId value id
    return id

def label (block : BlockId) : Write Id := do
  match (← get).labels.find? block with
  | some id => return id
  | none => refuse (.labelMissing block.index)

/-- The id of a scalar as a float of 32 bits, which vectors are computed with. -/
def singleOperand (value : ValueId) : Write Id := do
  let id ← operand context value
  let type ← valueType context value
  if type = .f64 then
    let single ← typeId context .f32
    let converted ← emitting Emit.freshId
    write (.unary .fConvert single converted id)
    return converted
  else
    return id

/-! ## Parts of aggregates -/

def shuffleInto (vector : TypeId) (result old new : Id) (components : List Nat) : Write Unit := do
  let width := (context.program.vectorWidth? vector).getD 4
  let type ← typeId context vector
  write (.vectorShuffle type result old new (Path.words (shuffleComponents width components)))

def elementPointer (value : ValueId) : Write Unit := do
  let base ← argument context value 0
  let indices ← argumentsFrom context value 1
  let onBuffer := (context.graph.value base).opcode == .uniformPtr
  let markers ←
    match onBuffer, indices with
    | true, first :: rest => do
      let node := context.graph.value first
      if node.opcode = .const ∧ node.payload = .literal (.int 0) then pure rest
      else refuse .bufferIndex
    | _, _ => pure indices
  let path ← splitPath context markers
  let class_ ← memory context base
  let target ← walk context (← valueType context base) path.members
  let baseId ← operand context base
  let pointer ←
    if path.members.isEmpty then pure baseId
    else do
      let pointee ← typeId context target
      let pointerType ← emitting (Emit.pointerType class_ pointee)
      let id ←
        if path.components.isSome then emitting Emit.freshId else operand context value
      let steps ← path.members.mapM fun member =>
        emitting (Emit.constantIndex context.program member)
      write (.accessChain pointerType id baseId steps)
      pure id
  match path.components with
  | some components =>
    modify fun writer =>
      { writer with
        swizzled := writer.swizzled.insert value ⟨pointer, target, components⟩ }
  | none => noteId value pointer

def load (value : ValueId) : Write Unit := do
  let type ← typeOf context value
  let address ← argument context value 0
  match (← get).swizzled.find? address with
  | some swizzle =>
    let vector ← typeId context swizzle.vector
    let loaded ← emitting Emit.freshId
    write (.load vector loaded swizzle.pointer)
    let id ← operand context value
    write (.vectorShuffle type id loaded loaded (Path.words swizzle.components))
  | none =>
    let pointer ← operand context address
    let id ← operand context value
    write (.load type id pointer)

def store (value : ValueId) : Write Unit := do
  let stored ← operand context (← argument context value 1)
  let address ← argument context value 0
  match (← get).swizzled.find? address with
  | some swizzle =>
    let vector ← typeId context swizzle.vector
    let old ← emitting Emit.freshId
    write (.load vector old swizzle.pointer)
    let merged ← emitting Emit.freshId
    shuffleInto context swizzle.vector merged old stored swizzle.components
    write (.store swizzle.pointer merged)
  | none =>
    let pointer ← operand context address
    write (.store pointer stored)

def extractValue (value : ValueId) : Write Unit := do
  let aggregate ← argument context value 0
  let path ← splitPath context (← argumentsFrom context value 1)
  let source ← operand context aggregate
  let type ← typeOf context value
  let id ← operand context value
  match path.components with
  | none => write (.compositeExtract type id source (Path.words path.members))
  | some components =>
    let vector ←
      if path.members.isEmpty then pure source
      else do
        let vectorType ← walk context (← valueType context aggregate) path.members
        let vectorType ← typeId context vectorType
        let extracted ← emitting Emit.freshId
        write (.compositeExtract vectorType extracted source (Path.words path.members))
        pure extracted
    write (.vectorShuffle type id vector vector (Path.words components))

def insertValue (value : ValueId) : Write Unit := do
  let aggregate ← argument context value 0
  let path ← splitPath context (← argumentsFrom context value 2)
  let source ← operand context aggregate
  let element ← operand context (← argument context value 1)
  let type ← typeOf context value
  let id ← operand context value
  match path.components with
  | none => write (.compositeInsert type id element source (Path.words path.members))
  | some components =>
    if path.members.isEmpty then
      let vector ← valueType context aggregate
      shuffleInto context vector id source element components
    else
      let vector ← walk context (← valueType context aggregate) path.members
      let vectorType ← typeId context vector
      let old ← emitting Emit.freshId
      write (.compositeExtract vectorType old source (Path.words path.members))
      let merged ← emitting Emit.freshId
      shuffleInto context vector merged old element components
      write (.compositeInsert type id merged source (Path.words path.members))

def swizzle (value : ValueId) : Write Unit := do
  let marker ← argument context value 1
  match (context.graph.value marker).payload with
  | .components components =>
    let base ← operand context (← argument context value 0)
    let type ← typeOf context value
    let id ← operand context value
    write (.vectorShuffle type id base base (Path.words components))
  | _ => refuse (.componentsMissing value.index)

def splat (value : ValueId) : Write Unit := do
  let scalar ← singleOperand context (← argument context value 0)
  let vector ← valueType context value
  let width := (context.program.vectorWidth? vector).getD 1
  let type ← typeId context vector
  let id ← operand context value
  write (.compositeConstruct type id (List.replicate width scalar))

def makeStruct (value : ValueId) : Write Unit := do
  let type ← typeOf context value
  let id ← operand context value
  let parts ← (context.graph.value value).args.mapM (operand context)
  write (.compositeConstruct type id parts)

/-! ## Interfaces -/

def uniformPointer (value : ValueId) : Write Unit := do
  match (context.graph.value value).payload with
  | .var var =>
    match context.interface.bind fun interface => interface.uniforms.find? var with
    | none => refuse (.uniformUnbound (context.program.var var).name)
    | some uniform =>
      let pointee ← typeOf context value
      let pointer ← emitting (Emit.pointerType .uniform pointee)
      let zero ← emitting (Emit.constantIndex context.program 0)
      let id ← operand context value
      write (.accessChain pointer id uniform [zero])
  | _ => refuse (.uniformVariableMissing value.index)

def stageInput (value : ValueId) : Write Unit := do
  match (context.graph.value value).payload with
  | .input member =>
    match context.interface.bind fun interface => interface.inputs[member]? with
    | none => refuse (.inputMissing member)
    | some input =>
      let type ← typeOf context value
      let id ← operand context value
      write (.load type id input)
  | _ => refuse (.inputMemberMissing value.index)

def storeOutput (value : ValueId) (result : Id) (member : Option Nat) (output : Id) :
    Write Unit := do
  match member with
  | none => write (.store output result)
  | some member =>
    let type ← memberType context (← valueType context value) member
    let type ← typeId context type
    let extracted ← emitting Emit.freshId
    write (.compositeExtract type extracted result [member.toUInt32])
    write (.store output extracted)

def returnResult (value : ValueId) : Write Unit := do
  let source ← argument context value 0
  let result ← operand context source
  match context.interface with
  | some interface =>
    interface.outputs.forM fun (member, output) =>
      storeOutput context source result member output
    write .returnVoid
  | none => write (.returnValue result)

/-! ## Operations -/

def call (value : ValueId) : Write Unit := do
  let node := context.graph.value value
  match node.payload with
  | .function callee =>
    let args ← node.args.mapM (operand context)
    let function := context.program.function callee
    let type ← typeOf context value
    let id ← operand context value
    match function.intrinsic with
    | none =>
      if function.isEntryPoint then
        throw (.reported (.emissionAt function.span (.entryPointCalled function.name)))
      else
        emitting (Emit.noteCall callee)
        let functionId ← emitting (Emit.functionId callee)
        write (.functionCall type id functionId args)
    | some .dotVec3 => write (.dot type id args)
    | some intrinsic =>
      match intrinsic.extendedFunction? with
      | none => refuse .hsvUnsupported
      | some extended =>
        let set ← emitting Emit.extendedSet
        write (.extInst type id set extended args)
  | _ => refuse (.calleeMissing value.index)

def scaleVector (value vector scalar : ValueId) (type : Id) : Write Unit := do
  let vector ← operand context vector
  let scalar ← singleOperand context scalar
  let id ← operand context value
  write (.binary .vectorTimesScalar type id vector scalar)

def sameClass (value left right : ValueId) (leftType : TypeId) (type : Id) : Write Unit := do
  let opcode := (context.graph.value value).opcode
  let class_ ← numericClass context leftType
  match binaryInstruction? opcode class_ with
  | none => refuse (.instructionMissing opcode.name class_.name)
  | some instruction =>
    let left ← operand context left
    let right ← operand context right
    let id ← operand context value
    write (.binary instruction type id left right)

def binary (value : ValueId) : Write Unit := do
  let left ← argument context value 0
  let right ← argument context value 1
  let leftType ← valueType context left
  let rightType ← valueType context right
  let type ← typeOf context value
  let leftVector := context.program.isVector leftType
  let rightVector := context.program.isVector rightType
  if (context.graph.value value).opcode = .mul ∧ leftVector ≠ rightVector then
    if leftVector then scaleVector context value left right type
    else scaleVector context value right left type
  else
    sameClass context value left right leftType type

def integerNot (value : ValueId) (operandType : TypeId) (type source : Id) : Write Unit := do
  let bool ← typeId context .bool
  let zero ← emitting (Emit.constant context.program operandType (.int 0))
  let one ← emitting (Emit.constant context.program operandType (.int 1))
  let isZero ← emitting Emit.freshId
  write (.binary .iEqual bool isZero source zero)
  let id ← operand context value
  write (.select type id isZero one zero)

def unary (value : ValueId) : Write Unit := do
  let opcode := (context.graph.value value).opcode
  let source ← argument context value 0
  let operandType ← valueType context source
  let class_ ← numericClass context operandType
  let type ← typeOf context value
  let operandId ← operand context source
  let simple (instruction : UnaryInstruction) : Write Unit := do
    let id ← operand context value
    write (.unary instruction type id operandId)
  match opcode, class_ with
  | .negate, .float => simple .fNegate
  | .negate, .signed | .negate, .unsigned => simple .sNegate
  | .logicalNot, .bool => simple .logicalNot
  | .logicalNot, .signed | .logicalNot, .unsigned =>
    integerNot context value operandType type operandId
  | .bitNot, .signed | .bitNot, .unsigned => simple .not
  | _, _ => refuse (.instructionMissing opcode.name class_.name)

/-! ## Control flow -/

def phi (block : BlockId) (value : ValueId) : Write Unit := do
  let type ← typeOf context value
  let id ← operand context value
  let args := (context.graph.value value).args
  let preds := (context.graph.block block).preds
  if preds.length ≠ args.length then
    refuse (.phiArity value.index args.length preds.length)
  else
    let choices ← (args.zip preds).mapM fun (arg, pred) => do
      let arg ← operand context arg
      let pred ← label pred
      return (arg, pred)
    write (.phi type id choices)

def merge (block : BlockId) : Write Unit := do
  match (context.graph.block block).merge with
  | some (.selection merge) =>
    let merge ← label merge
    write (.selectionMerge merge)
  | some (.loop merge continueTarget) =>
    let merge ← label merge
    let continueTarget ← label continueTarget
    write (.loopMerge merge continueTarget)
  | none => return ()

def jump (block : BlockId) (value : ValueId) : Write Unit := do
  match (context.graph.value value).payload with
  | .target target =>
    merge context block
    let target ← label target
    write (.branch target)
  | _ => refuse (.targetMissing value.index)

def condJump (block : BlockId) (value : ValueId) : Write Unit := do
  match (context.graph.value value).payload with
  | .targets onTrue onFalse =>
    let condition ← operand context (← argument context value 0)
    merge context block
    let onTrue ← label onTrue
    let onFalse ← label onFalse
    write (.branchConditional condition onTrue onFalse)
  | _ => refuse (.targetsMissing value.index)

def functionArgument (value : ValueId) : Write Unit :=
  if context.interface.isSome then refuse (.argumentRemains value.index) else pure ()

def value (block : BlockId) (id : ValueId) : Write Unit := do
  match (context.graph.value id).opcode with
  | .memberAccess | .swizzleIndices | .alloca => return ()
  | .const | .zeroInit | .undef | .globalVar =>
    let _ ← operand context id
  | .functionArg => functionArgument context id
  | .uniformPtr => uniformPointer context id
  | .stageInput => stageInput context id
  | .makeStruct => makeStruct context id
  | .elementPtr => elementPointer context id
  | .load => load context id
  | .store => store context id
  | .extractValue => extractValue context id
  | .insertValue => insertValue context id
  | .swizzleExpr => swizzle context id
  | .splat => splat context id
  | .call => call context id
  | .phi => phi context block id
  | .add | .sub | .mul | .div | .rem | .bitAnd | .bitOr | .bitXor | .shl | .shr | .logicalAnd
  | .logicalOr | .equal | .notEqual | .less | .lessEqual | .greater | .greaterEqual =>
    binary context id
  | .negate | .logicalNot | .bitNot => unary context id
  | .jump => jump context block id
  | .condJump => condJump context block id
  | .returnValue => returnResult context id
  | .returnVoid => write .returnVoid
  | .unreachable => write .unreachable

/-! ## Functions -/

def parameterTypes (function : Function) : Write (List Id) :=
  function.arguments.mapM fun argument => do
    let node := context.program.var argument
    if context.program.isPointer node.type then
      throw (.reported (.emissionAt node.span .pointerArgument))
    else typeId context node.type

/-- The types of the result and the parameters of a function. An entry point has neither. -/
def signature (function : Function) : Write (Id × List Id) := do
  if function.isEntryPoint then
    let void ← typeId context .void
    return (void, [])
  else if context.program.isPointer function.returnType then
    throw (.reported (.emissionAt function.span .pointerResult))
  else
    let parameters ← parameterTypes context function
    let returnType ← typeId context function.returnType
    return (returnType, parameters)

def parameter (type : Id) : Write Id := do
  let id ← emitting Emit.freshId
  write (.functionParameter type id)
  return id

def bindParameter (parameters : List Id) (value : ValueId) : Write Unit := do
  match (context.graph.value value).payload with
  | .argument index =>
    match parameters[index]? with
    | some id => noteId value id
    | none => return ()
  | _ => return ()

def bindParameters (parameters : List Id) : Write Unit :=
  context.graph.entryArguments.forM (bindParameter context parameters)

def addLabel (block : BlockId) : Write Unit := do
  let id ← emitting Emit.freshId
  modify fun writer => { writer with labels := writer.labels.insert block id }

def localVariable (value : ValueId) : Write Instruction := do
  let type ← valueType context value
  if context.program.isPointer type then
    refuse (.pointerVariable (context.program.typeName type))
  else
    let pointee ← typeId context type
    let pointer ← emitting (Emit.pointerType .function pointee)
    let id ← operand context value
    return .var pointer id .function none

def block (vars : List Instruction) (id : BlockId) : Write Unit := do
  let node := context.graph.block id
  if node.ending.isNone then
    refuse (.endingMissing node.name)
  else
    let labelId ← label id
    write (.label labelId)
    if id = context.graph.entry then
      vars.forM write
    node.values.forM (value context id)

def function : Write Unit := do
  let graph := context.graph
  let node := context.program.function graph.function
  let functionId ← emitting (Emit.functionId graph.function)
  let (returnType, parameterTypes) ← signature context node
  let functionType ← emitting (Emit.functionType returnType parameterTypes)
  write (.function returnType functionId functionType)
  emitting (Emit.name functionId node.name)
  unless node.isEntryPoint do
    let parameters ← parameterTypes.mapM parameter
    bindParameters context parameters
  graph.blocks.handles.forM addLabel
  let allocations := graph.liveValues.filter fun value => (graph.value value).opcode == .alloca
  let vars ← allocations.mapM (localVariable context)
  graph.blocks.handles.forM (block context vars)
  write .functionEnd

end Write

def Emit.functionBody (program : Program) (graph : Graph) (interface : Option EntryInterface) :
    Emit Unit := fun emitter =>
  match (Write.function ⟨program, graph, interface⟩).run { emitter } with
  | .ok _ writer => Emit.addFunction program graph.function writer.body writer.emitter
  | .error failure writer => .error failure writer.emitter

/-- Add the function of a graph to a module. In the graph of an entry point, which has to have its
interface declared, the arguments are replaced first. -/
def emitFunction (program : Program) : EStateM Failure (Emitter × Graph) Unit := do
  let onEmitter {α : Type} (step : Emit α) : EStateM Failure (Emitter × Graph) α :=
    onPart Prod.fst (fun state emitter => (emitter, state.2)) step
  let onGraph {α : Type} (step : Build α) : EStateM Failure (Emitter × Graph) α :=
    onPart Prod.snd (fun state graph => (state.1, graph)) step.run
  let (emitter, graph) ← get
  let function := program.function graph.function
  if function.isEntryPoint then
    match emitter.interfaces.find? graph.function with
    | none =>
      throw (.reported (.emissionAt function.span (.interfaceMissing function.name)))
    | some interface =>
      onGraph (Build.replaceArguments program interface)
      let (_, replaced) ← get
      onEmitter (Emit.functionBody program replaced (some interface))
  else
    onEmitter (Emit.functionBody program graph none)

end Shader
