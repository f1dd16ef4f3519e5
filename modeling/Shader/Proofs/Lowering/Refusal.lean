import Shader.Proofs.Lowering.Callees
import Shader.Proofs.Lowering.Guarantees

/-! # Refused functions

The only functions of a parsed source that are refused are those that take an address: `lower_eq_error_iff` says
when a function is refused, and what it is refused for. -/

namespace Shader

/-- A function of a parsed source is refused if and only if an expression in its body takes an address, and
then it is refused for such an expression. -/
theorem lower_eq_error_iff {source : String} {program : Program} {function : FunctionId} {body : StmtId}
    (parsed : parse source = .ok program) (hasBody : (program.function function).body = some body) :
    ((∃ failure, lower program function = .error failure) ↔
        ∃ id operand, program.Occurs body id ∧ (program.expr id).kind = .unary .addressOf operand) ∧
      ∀ failure, lower program function = .error failure →
        ∃ id operand, program.Occurs body id ∧ (program.expr id).kind = .unary .addressOf operand ∧
          failure = .reported (.loweringAt (program.expr id).span .addressUnsupported) := by
  have sane := sane_of_parse parsed
  have empty : (Graph.start function).CallsOnly fun _ => True := fun _ _ _ _ => trivial
  have shows : Build.Shows ⟨fun _ => True, fun span => ∃ id operand, program.Occurs body id ∧
      (program.expr id).kind = .unary .addressOf operand ∧ span = (program.expr id).span⟩
      (Build.CleanStmt program body) (Build.body program (program.function function) body) :=
    Build.shows_body sane fun inner inside root isRoot => sane.ordered.everywhere fun part within =>
      ⟨fun _ _ _ => trivial, fun operand kind =>
        ⟨part, operand, ⟨inner, inside, root, isRoot, within⟩, kind, rfl⟩⟩
  have blamed (failure : Failure) (fails : lower program function = .error failure) :
      ∃ id operand, program.Occurs body id ∧ (program.expr id).kind = .unary .addressOf operand ∧
        failure = .reported (.loweringAt (program.expr id).span .addressUnsupported) := by
    rcases lowerUnder_proceeds parsed hasBody .quiet fun _ _ => rfl with
      ⟨graph, lowered, -⟩ | ⟨_, refused, span, rfl⟩
    · cases fails.symm.trans lowered
    · cases fails.symm.trans refused
      simp only [lowerUnder, hasBody] at refused
      split at refused
      · cases refused
      · rename_i runs
        cases refused
        obtain ⟨id, operand, occurs, kind, rfl⟩ := shows.blames empty runs
        exact ⟨id, operand, occurs, kind, rfl⟩
  refine ⟨⟨?_, ?_⟩, blamed⟩
  · rintro ⟨failure, fails⟩
    obtain ⟨id, operand, occurs, kind, -⟩ := blamed failure fails
    exact ⟨id, operand, occurs, kind⟩
  · rintro ⟨id, operand, occurs, kind⟩
    cases lowered : lower program function with
    | error failure => exact ⟨failure, rfl⟩
    | ok graph =>
      simp only [lower, lowerUnder, hasBody] at lowered
      split at lowered
      · rename_i runs
        exact ((shows.of_ok empty runs).2 id occurs operand kind).elim
      · cases lowered

def unreachedSource : String :=
  "void f(int a)\x7breturn;\x7ba=*&a;\x7d\x7d"

def unreachedProgram : Program :=
  (parsePartial unreachedSource).1

/-- The function is refused for the address behind its end. -/
theorem lower_eq_error_iff_unreached : parse unreachedSource = .ok unreachedProgram ∧
    (unreachedProgram.function ⟨8⟩).body = some ⟨3⟩ ∧
      ∃ failure, lower unreachedProgram ⟨8⟩ = .error failure := by
  have ⟨accepted, hasBody, outer, inner, root, rightSide, pointer, kind⟩ :
      (parsePartial unreachedSource).2.isNone = true ∧ (unreachedProgram.function ⟨8⟩).body = some ⟨3⟩ ∧
        ⟨2⟩ ∈ (unreachedProgram.stmt ⟨3⟩).kind.row ∧ ⟨1⟩ ∈ (unreachedProgram.stmt ⟨2⟩).kind.row ∧
        ⟨4⟩ ∈ (unreachedProgram.stmt ⟨1⟩).kind.exprs ∧ ⟨3⟩ ∈ (unreachedProgram.expr ⟨4⟩).kind.children ∧
        ⟨2⟩ ∈ (unreachedProgram.expr ⟨3⟩).kind.children ∧
        (unreachedProgram.expr ⟨2⟩).kind = .unary .addressOf ⟨1⟩ := by decide +kernel
  have parsed : parse unreachedSource = .ok unreachedProgram := parse_eq_of_isNone accepted
  have occurs : unreachedProgram.Occurs ⟨3⟩ ⟨2⟩ :=
    ⟨⟨1⟩, .head (List.mem_append_left _ outer) (.single (List.mem_append_left _ inner)), ⟨4⟩, root,
      .head rightSide (.single pointer)⟩
  exact ⟨parsed, hasBody, (lower_eq_error_iff parsed hasBody).1.2 ⟨⟨2⟩, ⟨1⟩, occurs, kind⟩⟩

end Shader
