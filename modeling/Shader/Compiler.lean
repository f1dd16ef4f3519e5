import Shader.Graph.Lowering
import Shader.Module.Assembly
import Shader.Module.FunctionBody
import Shader.Parser.Declaration

/-! # Compiling

From a source to a module. Functions are compiled one by one, in the order of their definitions. -/

namespace Shader

def Failure.inFunction (name : String) : Failure → Failure
  | .reported diagnostic => .reported (diagnostic.within ("In function " ++ quoted name))
  | .fault misuse => .fault misuse

def Failure.diagnostic : Failure → Diagnostic
  | .reported diagnostic => diagnostic
  | .fault misuse => ⟨.stated .internal misuse.message, [], []⟩

def checkProgram (program : Program) : Except Failure Unit :=
  program.definedFunctions.forM fun function =>
    match lower program function with
    | .ok _ => .ok ()
    | .error failure => .error (failure.inFunction (program.function function).name)

def compileFunction (program : Program) (function : FunctionId) : Emit Unit := fun emitter =>
  match Emit.entryHeader program function emitter with
  | .error failure emitter => .error failure emitter
  | .ok _ emitter =>
    match lower program function with
    | .error failure => .error failure emitter
    | .ok graph =>
      match emitFunction program (emitter, graph) with
      | .error failure (emitter, _) => .error failure emitter
      | .ok _ (emitter, _) => .ok () emitter

/-- Add a function of a program to a module, and say which one it is when that fails. -/
def compileNamed (program : Program) (function : FunctionId) : Emit Unit := fun emitter =>
  match compileFunction program function emitter with
  | .ok _ emitter => .ok () emitter
  | .error failure emitter =>
    .error (failure.inFunction (program.function function).name) emitter

def compileProgram (program : Program) (options : ModuleOptions) : Emit (List Word) := do
  program.definedFunctions.forM (compileNamed program)
  Emit.assemble program options

def check (source : String) : Except Diagnostic Unit := do
  let program ← parse source
  match checkProgram program with
  | .ok _ => .ok ()
  | .error failure => .error failure.diagnostic

def compile (options : ModuleOptions) (source : String) : Except Diagnostic (List Word) := do
  let program ← parse source
  match (compileProgram program options).run {} with
  | .ok words _ => .ok words
  | .error failure _ => .error failure.diagnostic

def compileBytes (options : ModuleOptions) (source : String) : Except Diagnostic (List UInt8) :=
  (compile options source).map littleEndian

end Shader
