import Shader.Graph.Edit
import Shader.Module.Globals

/-! # Entry points of a module

An entry point gets a variable for each buffer, for each member of its stage input and for each part of
its result. In its graph, the arguments are then replaced by reads of these variables. -/

namespace Shader

namespace Emit

def declareVariable (pointer : Id) (memory : MemoryClass) : Emit Id :=
  declareFresh fun id => .var pointer id memory none

def declareUniform (program : Program) (set place : UInt32) (argument : VarId) :
    Emit (VarId × Id) := do
  let node := program.var argument
  match program.pointee? node.type with
  | none => refuse (.emissionAt node.span (.bufferNotPointer node.name))
  | some pointee =>
    let wrapper ← uniformWrapper program pointee
    let pointer ← pointerType .uniform wrapper
    let var ← declareVariable pointer .uniform
    decorate var (.descriptorSet set)
    decorate var (.binding place)
    name var node.name
    return (argument, var)

/-- Declare the variables of the buffer arguments, in the order of their bindings. -/
def declareUniforms (program : Program) (function : Function) : Emit (Table VarId Id) := do
  let uniforms ← function.vkBindings.entries.mapM fun ((set, place), bound) =>
    declareUniform program set place bound.argument
  return uniforms.foldl (fun table (argument, var) => table.insert argument var) {}

def isFragCoord (function : Function) (member : Member) : Bool :=
  function.kind == .fragment && member.isPosition

/-- Decorate the variable of a member of the stage input. Locations are given in the order of the
members; the result is the next one. -/
def decorateInput (program : Program) (function : Function) (member : Member) (var : Id)
    (location : Nat) : Emit Nat := do
  if isFragCoord function member then
    decorate var .fragCoord
    return location
  else
    decorate var (.location location.toUInt32)
    if function.kind = .fragment ∧ program.isInteger member.type then
      decorate var .flat
    return location + 1

/-- Declare the variables of the members of the stage input, from a location on. -/
def declareInputs (program : Program) (function : Function) (argument : String) :
    Nat → List Member → Emit (List Id)
  | _, [] => return []
  | location, member :: rest => do
    let type ← typeId program member.type
    let pointer ← pointerType .input type
    let var ← declareVariable pointer .input
    let next ← decorateInput program function member var location
    name var (argument ++ "." ++ member.name)
    let vars ← declareInputs program function argument next rest
    return var :: vars

/-- Declare the variables of the stage input of a function that may have none. -/
def declareStageIn (program : Program) (function : Function) : Emit (List Id) :=
  match function.stageIn with
  | none => return []
  | some argument =>
    let node := program.var argument
    declareInputs program function node.name 0 (program.members node.type)

def declareOutput (program : Program) (type : TypeId) (location : UInt32) (text : String) :
    Emit Id := do
  let type ← typeId program type
  let pointer ← pointerType .output type
  let var ← declareVariable pointer .output
  decorate var (.location location)
  name var text
  return var

def declareOutputMember (program : Program) (member : Member) (index : Nat) :
    Emit (Option Nat × Id) := do
  match member.color? with
  | none => refuse (.emissionAt member.span (.colorMissing member.name))
  | some color =>
    let var ← declareOutput program member.type color ("out_" ++ member.name)
    return (some index, var)

/-- Declare the variables of the result, which only a fragment entry point has. -/
def declareOutputs (program : Program) (function : Function) :
    Emit (List (Option Nat × Id)) := do
  if function.kind ≠ .fragment ∨ function.returnType = .void then
    return []
  else if function.returnType = .float4 then
    let var ← declareOutput program function.returnType 0 "out_color"
    return [(none, var)]
  else
    (program.members function.returnType).zipIdx.mapM fun (member, index) =>
      declareOutputMember program member index

def entryHeader (program : Program) (function : FunctionId) : Emit Unit := do
  let node := program.function function
  if node.isEntryPoint then
    let uniforms ← declareUniforms program node
    let inputs ← declareStageIn program node
    let outputs ← declareOutputs program node
    let _ ← functionId function
    modify fun emitter =>
      { emitter with
        interfaces := emitter.interfaces.insert function { uniforms, inputs, outputs } }

end Emit

/-! ## Replacing arguments -/

def collapseRuns {α : Type} [DecidableEq α] : List α → List α
  | [] => []
  | [item] => [item]
  | first :: second :: rest =>
    if first = second then collapseRuns (second :: rest)
    else first :: collapseRuns (second :: rest)

namespace Graph

def entryArguments (graph : Graph) : List ValueId :=
  (graph.block graph.entry).values.filter fun value =>
    (graph.value value).opcode == .functionArg

/-- The member that a value reads from an aggregate, if it does nothing else. -/
def memberRead? (graph : Graph) (aggregate value : ValueId) : Option Nat :=
  let node := graph.value value
  match node.opcode, node.args with
  | .extractValue, [base, marker] =>
    if base = aggregate then
      match (graph.value marker).payload with
      | .member index => some index
      | _ => none
    else none
  | _, _ => none

end Graph

namespace Build

def replaceBuffer (program : Program) (edit : Edit) (value : ValueId) (var : VarId) :
    Build Edit := do
  let entry := (← get).entry
  let pointee := program.pointee? (program.var var).type
  let (pointer, edit) ← insertBefore edit entry
    { opcode := .uniformPtr, payload := .var var, type := pointee } value
  replaceUses value pointer
  queueRemoval edit value

def insertInputs (edit : Edit) (value : ValueId) :
    Nat → List Member → Build (List ValueId × Edit)
  | _, [] => return ([], edit)
  | index, member :: rest => do
    let entry := (← get).entry
    let (input, edit) ← insertBefore edit entry
      { opcode := .stageInput, payload := .input index, type := some member.type } value
    let (inputs, edit) ← insertInputs edit value (index + 1) rest
    return (input :: inputs, edit)

/-- Let the users that read a member of the stage input use the input itself. The result has those
that did. -/
def forwardReads (value : ValueId) (inputs : List ValueId) (edit : Edit) :
    List ValueId → Build (List ValueId × Edit)
  | [] => return ([], edit)
  | user :: rest => do
    match ((← get).memberRead? value user).bind fun member => inputs[member]? with
    | none => forwardReads value inputs edit rest
    | some input =>
      replaceUses user input
      let edit ← queueRemoval edit user
      let (forwarded, edit) ← forwardReads value inputs edit rest
      return (user :: forwarded, edit)

def replaceStageIn (program : Program) (edit : Edit) (value : ValueId) (type : TypeId) :
    Build Edit := do
  let (inputs, edit) ← insertInputs edit value 0 (program.members type)
  let users := collapseRuns ((← get).value value).uses
  let (forwarded, edit) ← forwardReads value inputs edit users
  if ((← get).value value).uses.all (· ∈ forwarded) then
    queueRemoval edit value
  else
    let entry := (← get).entry
    let (rebuilt, edit) ← insertBefore edit entry
      { opcode := .makeStruct, args := inputs, type := some type } value
    replaceUses value rebuilt
    queueRemoval edit value

def replaceArgument (program : Program) (function : Function) (interface : EntryInterface)
    (edit : Edit) (value : ValueId) : Build Edit := do
  match ((← get).value value).payload with
  | .argument index =>
    match function.arguments[index]? with
    | none => refuse (.emissionOf (.argumentIndexRange index))
    | some var =>
      let node := program.var var
      if interface.uniforms.contains var then
        replaceBuffer program edit value var
      else if function.stageIn = some var then
        replaceStageIn program edit value node.type
      else
        refuse (.emissionAt node.span (.unexpectedEntryArgument node.name))
  | _ => refuse (.emissionOf (.argumentIndexMissing value.index))

def replaceArguments (program : Program) (interface : EntryInterface) : Build Unit := do
  let graph ← get
  let function := program.function graph.function
  let edit ← startEdit
  let edit ← graph.entryArguments.foldlM (replaceArgument program function interface) edit
  finishEdit edit

end Build

end Shader
