import Shader.Proofs.Lowering.Guarantees
import Shader.Proofs.Module.EntryPoint
import Shader.Proofs.Typing.Function

/-! # Type soundness of lowered functions

The values of a lowered function have the types that their operations ask for.

* `Graph.WellTyped` is all that holds of the types of a finished function.
* `Build.KeepsTypes` says that every expression makes a value of its type, and that the graph is typed
  before and after, all the way from the empty graph.
* `lower_wellTyped` is the statement for every function of a program that is parsed. It also says that
  every operation of the function has its instruction. -/

namespace Shader

namespace Graph

variable {program : Program} {graph : Graph}

/-- The types of the values of a finished function fit together. -/
structure WellTyped (program : Program) (graph : Graph) : Prop where
  bound : ∀ block var value, graph.binding block var = some value →
    (graph.value value).type = some (program.var var).type
  phi : ∀ phi, (graph.value phi).opcode = .phi → ∃ type, (graph.value phi).type = some type ∧
    ∀ arg ∈ (graph.value phi).args, (graph.value arg).type = some type
  /-- The operands of a binary operation have the same type, or a vector is multiplied by a float; the
  result has the type of the left one, or is a truth value. -/
  binary : ∀ value, (graph.value value).opcode.isBinary = true →
    ∃ left right leftType rightType, (graph.value value).args = [left, right] ∧
      (graph.value left).type = some leftType ∧ (graph.value right).type = some rightType ∧
      (leftType = rightType ∨ (graph.value value).opcode = .mul ∧
        program.isVector leftType = true ∧ (rightType = .f32 ∨ rightType = .f64)) ∧
      (graph.value value).type = some (if (graph.value value).opcode.isComparison then .bool else leftType)
  condition : ∀ value, (graph.value value).opcode = .condJump → ∃ condition,
    (graph.value value).args = [condition] ∧ (graph.value condition).type = some .bool
  result : ∀ value, (graph.value value).opcode = .returnValue → ∃ result,
    (graph.value value).args = [result] ∧
      (graph.value result).type = some (program.function graph.function).returnType
  arguments : ∀ value, (graph.value value).opcode = .call → ∃ callee,
    (graph.value value).payload = .function callee ∧
      (graph.value value).args.map (fun arg => (graph.value arg).type) =
        (program.parameterTypes callee).map some
  stored : ∀ value, (graph.value value).opcode = .store → ∃ pointer content type,
    (graph.value value).args = [pointer, content] ∧ graph.pointee? program pointer = some type ∧
      (graph.value content).type = some type
  inserted : ∀ value, (graph.value value).opcode = .insertValue → ∃ whole part path type,
    (graph.value value).args = whole :: part :: path ∧ (graph.value whole).type = some type ∧
      (graph.value value).type = some type

theorem map_type_of_carries {values : List ValueId} {types : List TypeId}
    (carries : List.Forall₂ graph.Carries values types) :
    values.map (fun value => (graph.value value).type) = types.map some := by
  induction carries with
  | nil => rfl
  | cons first _ ih => rw [List.map_cons, List.map_cons, first.1, ih]

theorem Typed.wellTyped (typed : graph.Typed program) : graph.WellTyped program := by
  have accepts := typed.accepts
  constructor
  · intro block var value found
    exact (typed.bound block var value found).1
  · intro phi isPhi
    have rule := accepts phi
    unfold Accepts at rule
    rw [isPhi] at rule
    obtain ⟨type, isType, same⟩ := rule
    exact ⟨type, isType, fun arg used => (same arg used).1⟩
  · intro value isBinary
    obtain ⟨left, right, leftType, rightType, result, args, isLeft, isRight, combines, isType⟩ :=
      (accepts_of_isBinary isBinary).1 (accepts value)
    refine ⟨left, right, leftType, rightType, args, isLeft.1, isRight.1, combines.operands, ?_⟩
    rw [isType, combines.result]
  · intro value isJump
    have rule := accepts value
    unfold Accepts at rule
    rw [isJump] at rule
    obtain ⟨condition, _, _, args, isCondition, -⟩ := rule
    exact ⟨condition, args, isCondition.1⟩
  · intro value returns
    have rule := accepts value
    unfold Accepts at rule
    rw [returns] at rule
    obtain ⟨result, args, isResult, -⟩ := rule
    exact ⟨result, args, isResult.1⟩
  · intro value isCall
    have rule := accepts value
    unfold Accepts at rule
    rw [isCall] at rule
    obtain ⟨callee, payload, same, -⟩ := rule
    exact ⟨callee, payload, map_type_of_carries same⟩
  · intro value isStore
    have rule := accepts value
    unfold Accepts at rule
    rw [isStore] at rule
    obtain ⟨pointer, content, type, args, points, isContent⟩ := rule
    exact ⟨pointer, content, type, args, points, isContent.1⟩
  · intro value inserts
    have rule := accepts value
    unfold Accepts at rule
    rw [inserts] at rule
    obtain ⟨whole, part, path, type, args, isWhole, isType⟩ := rule
    exact ⟨whole, part, path, type, args, isWhole.1, isType⟩

theorem Typed.underway (typed : graph.Typed program) :
    graph.Underway program (Set.univ ∪ {graph.current}) :=
  ⟨typed, fun _ _ _ => .inl trivial⟩

end Graph

namespace Build

variable {program : Program} {function : FunctionId}

/-- While a function is lowered its graph is typed, and expressions make values of their types. -/
structure KeepsTypes (program : Program) (function : FunctionId) : Prop where
  start : (Graph.start function).Typed program
  arguments : ∀ graph after, graph.function = function → graph.Typed program →
    arguments program (program.function function) graph = .ok () after → after.Typed program
  body : ∀ body, (program.function function).body = some body → body.index < program.stmts.size ∧
    program.Returns (some (program.function function).returnType) body
  /-- A statement with the results of the function leaves a typed graph. -/
  stmt : ∀ depth (id : StmtId) graph after, id.index < program.stmts.size →
    program.Returns (some (program.function function).returnType) id → graph.function = function →
    graph.Typed program → stmtWithin program depth id graph = .ok () after → after.Typed program
  expr : ∀ depth (id : ExprId) graph value after, id.index < program.exprs.size →
    graph.Typed program → exprWithin program depth id graph = .ok value after →
    after.Typed program ∧ (after.value value).type = some (program.expr id).type

theorem keepsTypes (sane : program.Sane) (function : FunctionId) : KeepsTypes program function where
  start := (Graph.underway_start function).typed
  arguments graph after isFunction typed runs :=
    (arguments_makes Set.univ graph isFunction typed.underway () after runs).2.2.2.1.typed
  body body isBody :=
    have hasBody := sane.body function body isBody
    ⟨hasBody.has, hasBody.results⟩
  stmt depth id graph after has returns isFunction typed runs :=
    (stmtWithin_typed sane depth id has returns Set.univ graph isFunction typed.underway
      () after runs).2.2.2.1.typed
  expr depth id graph value after has typed runs := by
    obtain ⟨-, -, -, underway, carries⟩ :=
      (lowersTyped sane depth).expr id has Set.univ graph typed.underway value after runs
    exact ⟨underway.typed, carries.1⟩

end Build

/-- Every function that is lowered is typed, from its arguments to its last statement, and each of its
operations has an instruction. -/
theorem lower_wellTyped {source : String} {program : Program} {function : FunctionId} {graph : Graph}
    (parsed : parse source = .ok program) (lowered : lower program function = .ok graph) :
    graph.WellTyped program ∧ Build.KeepsTypes program function ∧
      ∀ emitter failure after, emitFunction program (emitter, graph) = .error failure after →
        failure.lacksInstruction = false := by
  have sane := sane_of_parse parsed
  have typed := (lower_underway sane lowered).2.typed
  exact ⟨typed.wellTyped, Build.keepsTypes sane function, fun _ _ _ =>
    lacksInstruction_emitFunction typed.computable⟩

theorem lower_wellTyped_sample : parse sampleSource = .ok sampleProgram ∧
      lower sampleProgram sampleFunction = .ok sampleGraph ∧
      sampleGraph.WellTyped sampleProgram ∧ Build.KeepsTypes sampleProgram sampleFunction ∧
      ∀ emitter failure after, emitFunction sampleProgram (emitter, sampleGraph) =
        .error failure after → failure.lacksInstruction = false :=
  ⟨parse_sampleSource, lower_sampleProgram, lower_wellTyped parse_sampleSource lower_sampleProgram⟩

end Shader
