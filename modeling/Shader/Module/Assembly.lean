import Shader.Module.Emitter

/-! # Assembling modules

A finished module is a header of five words and the words of all its instructions. -/

namespace Shader

structure ModuleOptions where
  major : UInt8 := 1
  minor : UInt8 := 0
  generator : Word := 0
  deriving DecidableEq, Repr, Inhabited

def ModuleOptions.header (options : ModuleOptions) (bound : Word) : List Word :=
  [0x07230203, (options.major.toUInt32 <<< 16) ||| (options.minor.toUInt32 <<< 8),
    options.generator, bound, 0]

def FunctionKind.executionModel : FunctionKind → ExecutionModel
  | .vertex => .vertex
  | _ => .fragment

namespace Emit

def checkCalls (program : Program) : Emit Unit := do
  let emitter ← get
  match emitter.called.find? fun function => function ∉ emitter.emitted with
  | some function =>
    let node := program.function function
    refuse (.emissionAt node.span (.calleeUndefined node.name))
  | none => return ()

def declareEntryPoint (program : Program) (function : FunctionId) : Emit Unit := do
  let node := program.function function
  let id ← functionId function
  let interface := (((← get).interfaces.find? function).map EntryInterface.ids).getD []
  modifySections fun sections =>
    { sections with
      entryPoints := sections.entryPoints ++ [.entryPoint node.kind.executionModel id node.name interface] }
  if node.kind = .fragment then
    modifySections fun sections =>
      { sections with executionModes := sections.executionModes ++ [.originUpperLeft id] }

def assemble (program : Program) (options : ModuleOptions) : Emit (List Word) := do
  checkCalls program
  (← get).entryOrder.forM (declareEntryPoint program)
  let emitter ← get
  return options.header emitter.bound ++ emitter.sections.instructions.flatMap Instruction.words

def assembleBytes (program : Program) (options : ModuleOptions) : Emit (List UInt8) := do
  let words ← assemble program options
  return littleEndian words

end Emit

end Shader
