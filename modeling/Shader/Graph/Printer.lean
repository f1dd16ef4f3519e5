import Shader.Diagnostic.Cause
import Shader.Graph.Basic

/-! # Printing graphs

The text of a graph has a line for each block and, under it, one for each of its values. -/

namespace Shader

namespace Payload

def text (program : Program) : Payload → String
  | .none => ""
  | .literal value => " " ++ value.text
  | .var id => " [" ++ (program.var id).name ++ "]"
  | .function id => " @" ++ (program.function id).name
  | .target block => s!" -> {block.index}"
  | .targets onTrue onFalse => s!" ? {onTrue.index} : {onFalse.index}"
  | .member index => s!" .{index}"
  | .components indices => " .[" ++ String.intercalate ", " (indices.map toString) ++ "]"
  | .argument index => s!" arg{index}"
  | .input index => s!" input{index}"

end Payload

namespace Graph

def argsText (args : List ValueId) : String :=
  if args.isEmpty then ""
  else " " ++ String.intercalate ", " (args.map fun arg => s!"%{arg.index}")

def typeText (program : Program) (value : Value) : String :=
  match value.type with
  | some type => if value.opcode = .store then "" else " : " ++ program.typeName type
  | none => ""

def valueLine (program : Program) (graph : Graph) (id : ValueId) : String :=
  let value := graph.value id
  s!"    %{id.index} = " ++ value.opcode.name ++ argsText value.args ++
    value.payload.text program ++ typeText program value

def blockLines (program : Program) (graph : Graph) (id : BlockId) : List String :=
  let block := graph.block id
  let preds := String.intercalate ", " (block.preds.map fun pred => toString pred.index)
  let head := s!"  block {id.index} " ++ quoted block.name ++ s!" (preds: {preds}):"
  head :: block.values.map (graph.valueLine program)

def printed (program : Program) (graph : Graph) : String :=
  let head := "function " ++ (program.function graph.function).name ++ ":"
  let lines := head :: graph.blocks.handles.flatMap (graph.blockLines program)
  String.join (lines.map fun line => line ++ "\n")

end Graph

end Shader
