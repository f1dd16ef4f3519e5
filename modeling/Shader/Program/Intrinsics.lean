import Shader.Program.Basic

/-! # Built-in functions

The functions that every source can call. They are declared like any other function, without a body,
in front of the functions of the source. -/

namespace Shader

structure IntrinsicSignature where
  name : String
  intrinsic : Intrinsic
  returnType : TypeId
  arguments : List TypeId
  deriving DecidableEq, Repr

def intrinsicSignatures : List IntrinsicSignature :=
  [⟨"hsv", .hsv, .float3, [.f32, .f32, .f32]⟩, ⟨"log", .log, .f32, [.f32]⟩, ⟨"sin", .sin, .f32, [.f32]⟩,
    ⟨"cos", .cos, .f32, [.f32]⟩,
    ⟨"atan", .atan, .f32, [.f32]⟩,
    ⟨"abs", .abs, .f32, [.f32]⟩,
    ⟨"dot_vec3", .dotVec3, .f32, [.float3, .float3]⟩,
    ⟨"length", .length, .f32, [.float3]⟩]

namespace Program

def addVariable (program : Program) (var : Variable) : Program :=
  { program with vars := program.vars.append var }

def addFunction (program : Program) (function : Function) : Program :=
  { program with functions := program.functions.append function }

def addIntrinsic (program : Program) (signature : IntrinsicSignature) : Program :=
  let first := program.vars.size
  let arguments : List Variable := signature.arguments.zipIdx.map fun (type, position) =>
    { name := s!"a{position}", type, kind := .argument position }
  let handles : List VarId := (List.range arguments.length).map fun index => ⟨first + index⟩
  (arguments.foldl addVariable program).addFunction
    { name := signature.name
      returnType := signature.returnType
      arguments := handles
      intrinsic := some signature.intrinsic }

def withIntrinsics : Program :=
  intrinsicSignatures.foldl addIntrinsic initial

end Program

end Shader
