import Shader.Graph.Fault
import Shader.Module.Instruction
import Shader.Program.Basic

/-! # Modules under construction

A module is written section by section, in any order. Whatever can be asked for twice is declared once
and noted. -/

namespace Shader

structure Sections where
  capabilities : List Capability := [.shader]
  imports : List Instruction := []
  entryPoints : List Instruction := []
  executionModes : List Instruction := []
  names : List Instruction := []
  annotations : List Instruction := []
  globals : List Instruction := []
  functions : List Instruction := []
  deriving DecidableEq, Repr, Inhabited

def Sections.instructions (sections : Sections) : List Instruction :=
  sections.capabilities.map .capability ++ sections.imports ++ [.memoryModel] ++
    sections.entryPoints ++ sections.executionModes ++ sections.names ++ sections.annotations ++
    sections.globals ++ sections.functions

/-- The variables through which an entry point talks to its environment. -/
structure EntryInterface where
  uniforms : Table VarId Id := {}
  inputs : List Id := []
  outputs : List (Option Nat × Id) := []
  deriving Repr, Inhabited

def EntryInterface.ids (interface : EntryInterface) : List Id :=
  interface.inputs ++ interface.outputs.map Prod.snd

structure Emitter where
  lastId : Id := 0
  sections : Sections := {}
  extendedSet : Option Id := none
  types : Table TypeId Id := {}
  pointerTypes : Table (MemoryClass × Id) Id := {}
  functionTypes : Table (Id × List Id) Id := {}
  constants : Table (Id × UInt64) Id := {}
  nulls : Table Id Id := {}
  undefs : Table Id Id := {}
  wrappers : Table TypeId Id := {}
  laidOut : List TypeId := []
  globalVars : Table VarId Id := {}
  functionIds : Table FunctionId Id := {}
  interfaces : Table FunctionId EntryInterface := {}
  emitted : List FunctionId := []
  called : List FunctionId := []
  entryOrder : List FunctionId := []
  deriving Repr, Inhabited

def Emitter.bound (emitter : Emitter) : Word :=
  emitter.lastId + 1

def appendNew {α : Type} [DecidableEq α] (items : List α) (item : α) : List α :=
  if item ∈ items then items else items ++ [item]

def onPart {ε σ τ α : Type} (part : τ → σ) (update : τ → σ → τ) (step : EStateM ε σ α) :
    EStateM ε τ α := fun state =>
  match step (part state) with
  | .ok value changed => .ok value (update state changed)
  | .error failure changed => .error failure (update state changed)

abbrev Emit := EStateM Failure Emitter

namespace Emit

def fail {α : Type} (fault : Fault) : Emit α :=
  throw (.fault fault)

def refuse {α : Type} (diagnostic : Diagnostic) : Emit α :=
  throw (.reported diagnostic)

/-- An id that was not there before. Ids start at one, and the bound is a word as well. -/
def freshId : Emit Id := do
  let emitter ← get
  if emitter.lastId.toNat + 2 < UInt32.size then
    set { emitter with lastId := emitter.lastId + 1 }
    return emitter.lastId + 1
  else
    fail .idsExhausted

def intern (find? : Emitter → Option Id) (note : Emitter → Id → Emitter) (make : Emit Id) :
    Emit Id := do
  match find? (← get) with
  | some id => return id
  | none =>
    let id ← make
    modify fun emitter => note emitter id
    return id

/-! ## Sections -/

def modifySections (change : Sections → Sections) : Emit Unit :=
  modify fun emitter => { emitter with sections := change emitter.sections }

def declare (instruction : Instruction) : Emit Unit :=
  modifySections fun sections =>
    { sections with globals := sections.globals ++ [instruction] }

def declareFresh (instruction : Id → Instruction) : Emit Id := do
  let id ← freshId
  declare (instruction id)
  return id

def require (capability : Capability) : Emit Unit :=
  modifySections fun sections =>
    { sections with capabilities := appendNew sections.capabilities capability }

def addName (instruction : Instruction) : Emit Unit :=
  modifySections fun sections => { sections with names := sections.names ++ [instruction] }

def name (target : Id) (text : String) : Emit Unit :=
  addName (.name target text)

def annotate (instruction : Instruction) : Emit Unit :=
  modifySections fun sections =>
    { sections with annotations := sections.annotations ++ [instruction] }

def decorate (target : Id) (decoration : Decoration) : Emit Unit :=
  annotate (.decorate target decoration)

def memberDecorate (target : Id) (member : Nat) (decoration : Decoration) : Emit Unit :=
  annotate (.memberDecorate target member.toUInt32 decoration)

def extendedSet : Emit Id :=
  intern Emitter.extendedSet (fun emitter id => { emitter with extendedSet := some id }) do
    let id ← freshId
    modifySections fun sections =>
      { sections with imports := sections.imports ++ [.extInstImport id "GLSL.std.450"] }
    return id

/-! ## Functions -/

def functionId (function : FunctionId) : Emit Id :=
  intern (fun emitter => emitter.functionIds.find? function)
    (fun emitter id => { emitter with functionIds := emitter.functionIds.insert function id })
    freshId

def noteCall (function : FunctionId) : Emit Unit :=
  modify fun emitter => { emitter with called := appendNew emitter.called function }

def addFunction (program : Program) (function : FunctionId) (body : List Instruction) : Emit Unit :=
  modify fun emitter =>
    { emitter with
      sections :=
        { emitter.sections with functions := emitter.sections.functions ++ body }
      emitted := appendNew emitter.emitted function
      entryOrder :=
        if (program.function function).isEntryPoint then appendNew emitter.entryOrder function
        else emitter.entryOrder }

end Emit

end Shader
