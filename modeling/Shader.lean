import Shader.Compiler
import Shader.Graph.Consistency
import Shader.Graph.Printer
import Shader.Program.Printer
import Shader.Report.Render
import Shader.Proofs.Token.Words
import Shader.Proofs.Token.Tiling
import Shader.Proofs.Token.Munch
import Shader.Proofs.Graph.Dominance
import Shader.Proofs.Build.Outcome
import Shader.Proofs.Graph.Notes
import Shader.Proofs.Graph.Retirement
import Shader.Proofs.Graph.Insertion
import Shader.Proofs.Graph.Operands
import Shader.Proofs.Graph.Ending
import Shader.Proofs.Build.Making
import Shader.Proofs.Graph.Lookup
import Shader.Proofs.Variables.Removal
import Shader.Proofs.Variables.Reading
import Shader.Proofs.Graph.Step
import Shader.Proofs.Variables.Sealing
import Shader.Proofs.Build.Ending
import Shader.Proofs.Lowering.Frame
import Shader.Proofs.Lowering.Action
import Shader.Proofs.Lowering.Construct
import Shader.Proofs.Program.Shape
import Shader.Proofs.Lowering.Place
import Shader.Proofs.Lowering.Selection
import Shader.Proofs.Lowering.Branch
import Shader.Proofs.Lowering.Loop
import Shader.Proofs.Lowering.Expression
import Shader.Proofs.Lowering.Statement
import Shader.Proofs.Lowering.Function
import Shader.Proofs.Parser.Outcome
import Shader.Proofs.Parser.Expression
import Shader.Proofs.Parser.Statement
import Shader.Proofs.Parser.Typing
import Shader.Proofs.Parser.Declaration
import Shader.Proofs.Parser.EntryPoint
import Shader.Proofs.Parser.Grammar
import Shader.Proofs.Parser.Precedence
import Shader.Proofs.Parser.Termination
import Shader.Proofs.Lowering.Guarantees
import Shader.Proofs.Typing.Function
import Shader.Proofs.Lowering.ControlFlow
import Shader.Proofs.Lowering.Minimal
import Shader.Proofs.Typing.Soundness
import Shader.Proofs.Lowering.Callees
import Shader.Proofs.Lowering.Refusal
import Shader.Proofs.Module.Layout
import Shader.Proofs.Module.CallGraph
import Shader.Proofs.Module.BufferLayout
import Shader.Proofs.Graph.Transaction
import Shader.Proofs.Report.Listing
import Shader.Proofs.Module.Text
