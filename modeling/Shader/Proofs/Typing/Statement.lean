import Shader.Proofs.Typing.Expression

/-! # Types in lowered statements

Statements keep a graph typed, and give an ending to every block that they leave. -/

namespace Shader

namespace Graph

variable {program : Program} {waiting : Set BlockId} {current : BlockId} {start graph : Graph}

theorem Underway.terminated (underway : graph.Underway program (waiting ∪ {current}))
    (terminated : graph.isTerminated current = true) : graph.Underway program waiting := by
  refine ⟨underway.typed, fun block has isOpen => ?_⟩
  refine (underway.waits block has isOpen).resolve_right ?_
  rintro rfl
  rw [isTerminated, isOpen] at terminated
  cases terminated

end Graph

namespace Build

open Shader.Graph

variable {program : Program} {waiting : Set BlockId} {current block target : BlockId}
  {start graph : Graph} {function : FunctionId} {body : Build Unit} {depth : Nat}

abbrev MakesStmt (program : Program) (function : FunctionId) (step : Build Unit) : Prop :=
  ∀ waiting graph, graph.function = function →
    graph.Underway program (waiting ∪ {graph.current}) → Makes program waiting step graph fun _ _ => True

/-! ## Parts of statements -/

theorem ensureOpen_typed (underway : graph.Underway program (waiting ∪ {graph.current})) :
    Makes program waiting (ensureOpen program) graph fun _ _ => True := by
  refine makes_get_bind ?_
  split_ifs with terminated
  · have advances := advances_refl (underway.terminated terminated)
    refine Gives.bind (advances_nextConstruct advances) fun _ _ advances => ?_
    refine Gives.bind (advances_newBlock advances) fun block _ advances => ?_
    refine Gives.bind (advances_sealBlock advances) fun _ _ advances => ?_
    refine Gives.mono (advances_setCurrent advances) fun _ after advances => ?_
    refine ⟨advances.grows, advances.paired, ?_, trivial⟩
    rw [advances.current]
    exact advances.underway
  · exact makes_pure underway trivial

theorem jumpIfOpen_advances
    (advances : start.Advances program (waiting ∪ {current}) current graph) :
    Gives (jumpIfOpen target) graph fun _ after =>
      start.Advances program waiting current after := by
  refine gives_get_bind ?_
  rw [advances.current]
  split_ifs with terminated
  · exact gives_pure ⟨advances.grows, advances.paired, advances.current,
      advances.underway.terminated terminated⟩
  · exact Gives.bind (advances_jump advances) fun _ _ advances => gives_pure advances

theorem declareVar_typed {init : Option ValueId} {var : VarId}
    (underway : graph.Underway program (waiting ∪ {graph.current}))
    (typed : ∀ value ∈ init, graph.Carries value (program.var var).type) :
    Makes program waiting (declareVar program init var) graph fun _ _ => True := by
  unfold declareVar
  dsimp only
  split_ifs
  · cases init with
    | some value => exact makes_get_bind (makes_writeVar underway (typed value rfl))
    | none =>
      have zeros : Makes program waiting
          (emit { opcode := .zeroInit, type := some (program.var var).type }) graph
          fun value after => after.Carries value (program.var var).type :=
        emit_carries underway ⟨.inl (by simp), rfl, .of_plain rfl⟩ trivial rfl rfl rfl
      refine Makes.bind zeros fun value after _ underway carries => ?_
      exact makes_get_bind (makes_writeVar underway carries)
  · have slots : Makes program waiting (emit
        { opcode := .alloca, payload := .var var, type := some (program.var var).type }) graph
        fun slot after => (after.value slot).opcode = .alloca ∧
          (after.value slot).type = some (program.var var).type := by
      refine emit_makes underway ⟨.inl (by simp), rfl, .of_plain rfl⟩ trivial rfl fun after _ made => ?_
      rw [made]
      exact ⟨rfl, rfl⟩
    refine Makes.bind slots fun slot middle grows underway ⟨isSlot, isType⟩ => ?_
    have isWhole : middle.Whole slot := whole_of_opcode isSlot rfl (by decide)
    have notes : Makes program waiting (setSlot var slot) middle fun _ after =>
        after.pointee? program slot = some (program.var var).type := by
      refine makes_of_remains underway (gives_modify (grows_of_values rfl rfl)
        ⟨underway.typed.remains_setSlot isSlot isType, ?_⟩)
      have address : middle.pointee? program slot = some (program.var var).type := by
        rw [Graph.pointee?, isSlot]
        exact isType
      exact address
    refine Makes.bind notes fun _ last again underway points => ?_
    cases init with
    | none => exact makes_pure underway trivial
    | some value =>
      have isValue := (typed value rfl).grows (grows.trans again)
      refine Makes.bind (store_typed underway points (.inl (isWhole.grows again)) isValue) ?_
      exact fun _ _ _ underway _ => makes_pure underway trivial

theorem optionalExpr_typed (sane : program.Sane) {id : Option ExprId}
    (has : ∀ expr ∈ id.toList, expr.index < program.exprs.size)
    (underway : graph.Underway program (waiting ∪ {graph.current})) :
    Makes program waiting (optionalExpr program id) graph fun result after =>
      ∀ value ∈ result, ∃ expr ∈ id, after.Carries value (program.expr expr).type := by
  cases id with
  | none => exact makes_pure underway (by simp)
  | some id =>
    refine Makes.bind (expr_typed sane (has id (by simp)) waiting graph underway) ?_
    intro value after _ underway carries
    refine makes_pure underway ?_
    rintro _ ⟨⟩
    exact ⟨id, rfl, carries⟩

theorem varDecl_typed (sane : program.Sane) {vars : List VarId} {init : Option ExprId}
    (has : ∀ expr ∈ init.toList, expr.index < program.exprs.size)
    (shared : ∀ var ∈ vars, var.index < program.vars.size ∧ (program.var var).init = init)
    (underway : graph.Underway program (waiting ∪ {graph.current})) :
    Makes program waiting (do
      let init ← optionalExpr program init
      vars.forM (declareVar program init)) graph fun _ _ => True := by
  refine Makes.bind (optionalExpr_typed sane has underway) ?_
  intro value middle _ underway carries
  refine Gives.mono (gives_forM (fun rest after => middle.Grows after ∧
    (middle.Paired → after.Paired) ∧ after.Underway program (waiting ∪ {after.current}) ∧
    ∀ var ∈ rest, var ∈ vars) ⟨.refl, id, underway, fun _ found => found⟩ ?_) ?_
  · rintro var rest between ⟨grows, paired, underway, inside⟩
    obtain ⟨hasVar, isInit⟩ := shared var (inside var List.mem_cons_self)
    refine Gives.mono (declareVar_typed underway fun initial isInitial => ?_) ?_
    · obtain ⟨expr, found, isExpr⟩ := carries initial isInitial
      have same := ((sane.vars var hasVar).init expr (by rw [isInit]; simpa using found)).2
      rw [← same]
      exact isExpr.grows grows
    · rintro _ after ⟨again, pairedAgain, underway, -⟩
      exact ⟨grows.trans again, pairedAgain ∘ paired, underway, fun other found =>
        inside other (List.mem_cons_of_mem _ found)⟩
  · rintro _ after ⟨grows, paired, underway, -⟩
    exact ⟨grows, paired, underway, trivial⟩

/-! ## Branches -/

theorem branchWith_advances (makes : MakesStmt program function body)
    (isFunction : start.function = function)
    (advances : start.Advances program (waiting ∪ {block}) current graph) :
    Gives (branchWith program block target body) graph fun _ after =>
      start.Advances program waiting after.current after := by
  refine Gives.bind (advances_sealBlock advances) fun _ _ advances => ?_
  refine Gives.bind (advances_setCurrent advances) fun _ entered advances => ?_
  have sameFunction : entered.function = function := advances.grows.function.trans isFunction
  refine Gives.bind (advances_makes advances (makes waiting _ sameFunction)) ?_
  rintro _ left ⟨advances, -⟩
  refine Gives.mono (jumpIfOpen_advances advances) fun _ after advances => ?_
  rwa [advances.current]

theorem ifElseWith_typed (sane : program.Sane) {condition : ExprId} {onTrue : Build Unit}
    {onFalse : Option (Build Unit)} (has : condition.index < program.exprs.size)
    (isBool : (program.expr condition).type = .bool) (truly : MakesStmt program function onTrue)
    (falsely : ∀ body ∈ onFalse, MakesStmt program function body) :
    MakesStmt program function (ifElseWith program condition onTrue onFalse) := by
  intro waiting graph isFunction underway
  refine Makes.bind (expr_typed sane has waiting graph underway) ?_
  intro value begun growsValue underway isCondition
  rw [isBool] at isCondition
  have isFunction : begun.function = function := growsValue.function.trans isFunction
  have advances := advances_refl underway
  refine Gives.bind (advances_nextConstruct advances) fun construct _ advances => ?_
  refine Gives.bind (advances_newBlock advances) fun trueBlock _ advances => ?_
  cases onFalse with
  | some onFalse =>
    refine Gives.bind (advances_newBlock advances) fun falseBlock _ advances => ?_
    refine Gives.bind (advances_newBlock advances) fun after middle advances => ?_
    refine gives_get_bind ?_
    rw [advances.current]
    refine Gives.bind (advances_setMerge advances) fun _ last advances => ?_
    have headed : begun.Advances program
        (waiting ∪ {after} ∪ {falseBlock} ∪ {trueBlock} ∪ {begun.current}) begun.current last :=
      advances.mono (by tauto_set)
    refine Gives.bind (advances_condJump headed (isCondition.grows headed.grows)) ?_
    intro _ _ advances
    refine Gives.bind (branchWith_advances truly isFunction advances) fun _ _ advances => ?_
    refine Gives.bind (branchWith_advances (falsely onFalse rfl) isFunction advances) ?_
    intro _ _ advances
    refine Gives.bind (advances_sealBlock advances) fun _ _ advances => ?_
    refine Gives.mono (advances_setCurrent advances) fun _ _ advances => ?_
    refine ⟨advances.grows, advances.paired, ?_, trivial⟩
    rw [advances.current]
    exact advances.underway
  | none =>
    refine Gives.bind (advances_newBlock advances) fun after middle advances => ?_
    refine gives_get_bind ?_
    rw [advances.current]
    refine Gives.bind (advances_setMerge advances) fun _ last advances => ?_
    have headed : begun.Advances program
        (waiting ∪ {after} ∪ {trueBlock} ∪ {begun.current}) begun.current last :=
      advances.mono (by tauto_set)
    refine Gives.bind (advances_condJump headed (isCondition.grows headed.grows)) ?_
    intro _ _ advances
    refine Gives.bind (branchWith_advances truly isFunction advances) fun _ _ advances => ?_
    refine Gives.bind (advances_sealBlock advances) fun _ _ advances => ?_
    refine Gives.mono (advances_setCurrent advances) fun _ _ advances => ?_
    refine ⟨advances.grows, advances.paired, ?_, trivial⟩
    rw [advances.current]
    exact advances.underway

/-! ## Loops -/

theorem openLoop_advances {construct : Nat} {branches : Bool}
    (advances : start.Advances program (waiting ∪ {current}) current graph) :
    Gives (openLoop program construct branches) graph fun blocks after =>
      start.Advances program (waiting ∪ {blocks.2}) current after := by
  unfold openLoop
  split_ifs
  · refine Gives.bind (advances_newBlock advances) fun header _ advances => ?_
    refine gives_get_bind ?_
    rw [advances.current]
    have entered := advances.mono
      (show waiting ∪ {current} ∪ {header} ⊆ waiting ∪ {header} ∪ {current} by tauto_set)
    refine Gives.bind (advances_jump entered) fun _ _ advances => ?_
    refine Gives.bind (advances_newBlock advances) fun condition _ advances => ?_
    have passed := advances.mono
      (show waiting ∪ {header} ∪ {condition} ⊆ waiting ∪ {condition} ∪ {header} by tauto_set)
    refine Gives.bind (advances_jump passed) fun _ _ advances => ?_
    refine Gives.bind (advances_sealBlock advances) fun _ _ advances => ?_
    exact gives_pure advances
  · refine Gives.bind (advances_newBlock advances) fun condition _ advances => ?_
    refine gives_get_bind ?_
    rw [advances.current]
    have entered := advances.mono
      (show waiting ∪ {current} ∪ {condition} ⊆ waiting ∪ {condition} ∪ {current} by tauto_set)
    refine Gives.bind (advances_jump entered) fun _ _ advances => ?_
    exact gives_pure advances

theorem loopCondition_typed (sane : program.Sane) {condition : Option ExprId}
    (has : ∀ expr ∈ condition.toList, expr.index < program.exprs.size)
    (isBool : ∀ expr ∈ condition.toList, (program.expr expr).type = .bool) :
    MakesTyped program .bool (loopCondition program condition) := by
  intro waiting graph underway
  cases condition with
  | none => exact literal_typed underway
  | some condition =>
    rw [← isBool condition (by simp)]
    exact expr_typed sane (has condition (by simp)) waiting graph underway

theorem forLoopWith_typed (sane : program.Sane) {init condition step : Option ExprId}
    (hasInit : ∀ expr ∈ init.toList, expr.index < program.exprs.size)
    (hasCondition : ∀ expr ∈ condition.toList, expr.index < program.exprs.size)
    (isBool : ∀ expr ∈ condition.toList, (program.expr expr).type = .bool)
    (hasStep : ∀ expr ∈ step.toList, expr.index < program.exprs.size)
    (makes : MakesStmt program function body) :
    MakesStmt program function (forLoopWith program init condition step body) := by
  intro waiting graph isFunction underway
  have advances := advances_refl underway
  refine Gives.bind (advances_nextConstruct advances) fun construct _ advances => ?_
  refine Gives.bind (advances_newBlock advances) fun initBlock _ advances => ?_
  refine gives_get_bind ?_
  rw [advances.current]
  have left := advances.mono (show waiting ∪ {graph.current} ∪ {initBlock} ⊆
    waiting ∪ {initBlock} ∪ {graph.current} by tauto_set)
  refine Gives.bind (advances_jump left) fun _ _ advances => ?_
  refine Gives.bind (advances_sealBlock advances) fun _ _ advances => ?_
  refine Gives.bind (advances_setCurrent advances) fun _ _ advances => ?_
  refine Gives.bind (advances_makes advances (optionalExpr_typed sane hasInit)) ?_
  rintro _ _ ⟨advances, -⟩
  refine Gives.bind (openLoop_advances advances) ?_
  rintro ⟨header, conditionBlock⟩ _ advances
  refine Gives.bind (advances_setCurrent advances) fun _ _ advances => ?_
  refine Gives.bind (advances_makes advances (loopCondition_typed sane hasCondition isBool waiting _)) ?_
  rintro value decided ⟨arrives, isCondition⟩
  -- the value of the condition is carried along to the jump
  have advances := advances_refl arrives.underway
  refine Gives.bind (advances_newBlock advances) fun bodyBlock _ advances => ?_
  refine Gives.bind (advances_newBlock advances) fun after _ advances => ?_
  refine gives_get_bind ?_
  rw [advances.current]
  have headed := advances.mono (show waiting ∪ {decided.current} ∪ {bodyBlock} ∪ {after} ⊆
    waiting ∪ {after} ∪ {bodyBlock} ∪ {decided.current} by tauto_set)
  refine Gives.bind (advances_condJump headed (isCondition.grows headed.grows)) ?_
  intro _ _ advances
  refine Gives.bind (advances_sealBlock advances) fun _ _ advances => ?_
  refine Gives.bind (advances_sealBlock advances) fun _ _ advances => ?_
  refine Gives.bind (advances_setCurrent advances) fun _ entered advances => ?_
  have sameFunction : entered.function = function :=
    advances.grows.function.trans (arrives.grows.function.trans isFunction)
  refine Gives.bind (advances_makes advances (makes _ _ sameFunction)) ?_
  rintro _ bodyEnd ⟨advances, -⟩
  refine Gives.bind (advances_newBlock advances) fun stepBlock _ advances => ?_
  have passed := advances.mono (show waiting ∪ {after} ∪ {bodyEnd.current} ∪ {stepBlock} ⊆
    waiting ∪ {after} ∪ {stepBlock} ∪ {bodyEnd.current} by tauto_set)
  refine Gives.bind (jumpIfOpen_advances passed) fun _ _ advances => ?_
  refine Gives.bind (advances_sealBlock advances) fun _ _ advances => ?_
  refine Gives.bind (advances_setCurrent advances) fun _ _ advances => ?_
  refine Gives.bind (advances_makes advances (optionalExpr_typed sane hasStep)) ?_
  rintro _ _ ⟨advances, -⟩
  refine gives_get_bind (Gives.bind (advances_jump advances) fun _ _ advances => ?_)
  refine Gives.bind (advances_sealBlock advances) fun _ _ advances => ?_
  refine Gives.bind (advances_setMerge advances) fun _ _ advances => ?_
  refine Gives.mono (advances_setCurrent advances) fun _ _ advances => ?_
  refine ⟨arrives.grows.trans advances.grows, advances.paired ∘ arrives.paired, ?_, trivial⟩
  rw [advances.current]
  exact advances.underway

/-! ## Statements -/

theorem ending_makes {operation : Operation}
    (underway : graph.Underway program (waiting ∪ {graph.current}))
    (takes : graph.Takes graph.current operation) (accepts : graph.Accepts program operation)
    (isEnding : operation.opcode.isEnding = true) :
    Makes program waiting (makeValue graph.current operation) graph fun _ _ => True := by
  refine Gives.mono (advances_ending (advances_refl underway) takes accepts isEnding) ?_
  intro _ after advances
  exact ⟨advances.grows, advances.paired, advances.underway.mono Set.subset_union_left, trivial⟩

theorem row_typed {stmts : List StmtId} {step : StmtId → Build Unit}
    (makes : ∀ stmt ∈ stmts, MakesStmt program function (step stmt)) :
    MakesStmt program function (stmts.forM step) := by
  intro waiting graph isFunction underway
  refine Gives.mono (gives_forM (fun rest after => graph.Grows after ∧
    (graph.Paired → after.Paired) ∧ after.Underway program (waiting ∪ {after.current}) ∧
    ∀ stmt ∈ rest, stmt ∈ stmts) ⟨.refl, id, underway, fun _ found => found⟩ ?_) ?_
  · rintro stmt rest middle ⟨grows, paired, underway, inside⟩
    refine Gives.mono (makes stmt (inside stmt List.mem_cons_self) waiting middle
      (grows.function.trans isFunction) underway) ?_
    rintro _ after ⟨again, pairedAgain, underway, -⟩
    exact ⟨grows.trans again, pairedAgain ∘ paired, underway, fun other found =>
      inside other (List.mem_cons_of_mem _ found)⟩
  · rintro _ after ⟨grows, paired, underway, -⟩
    exact ⟨grows, paired, underway, trivial⟩

theorem stmtWithin_typed (sane : program.Sane) (depth : Nat) (id : StmtId)
    (has : id.index < program.stmts.size)
    (returns : program.Returns (some (program.function function).returnType) id) :
    MakesStmt program function (stmtWithin program depth id) := by
  induction depth generalizing id with
  | zero =>
    intro waiting graph _ _
    exact makes_fail
  | succ depth ih =>
    intro waiting graph isFunction underway
    have exprs := sane.ordered.part id
    have typed := sane.stmts id has
    obtain ⟨here, row, branches⟩ := returns
    have rows (child : StmtId) (found : child ∈ (program.stmt id).kind.row) :
        MakesStmt program function (stmtWithin program depth child) :=
      ih child ((sane.ordered.row id child found).trans has) (row child found)
    have arms (child : StmtId) (found : child ∈ (program.stmt id).kind.branches) :
        MakesStmt program function (stmtWithin program depth child) :=
      ih child ((sane.ordered.branch id child found).trans has) (branches child found)
    rw [stmtWithin]
    refine Makes.bind (ensureOpen_typed underway) fun _ opened grows underway _ => ?_
    have isFunction : opened.function = function := grows.function.trans isFunction
    generalize (program.stmt id).kind = kind at exprs typed here row branches rows arms ⊢
    cases kind with
    | expr value =>
      refine Makes.bind (expr_typed sane (exprs value (by simp)) waiting opened underway) ?_
      intro _ _ _ underway _
      exact makes_pure underway trivial
    | varDecl vars init => exact varDecl_typed sane exprs (typed.vars vars init rfl) underway
    | block stmts => exact row_typed rows waiting opened isFunction underway
    | ifElse condition onTrue onFalse =>
      refine ifElseWith_typed sane (exprs condition (by simp))
        (typed.conditions condition (by simp [StmtKind.conditions]))
        (arms onTrue (by simp [StmtKind.branches])) ?_ waiting opened isFunction underway
      intro body found
      obtain ⟨child, isChild, rfl⟩ := Option.map_eq_some_iff.1 found
      exact arms child (by simp [StmtKind.branches, isChild])
    | forLoop init condition step body =>
      refine forLoopWith_typed sane ?_ ?_ typed.conditions ?_ (arms body (by simp [StmtKind.branches]))
        waiting opened isFunction underway
      · exact fun expr found => exprs expr (by simp only [StmtKind.exprs, List.mem_append]; tauto)
      · exact fun expr found => exprs expr (by simp only [StmtKind.exprs, List.mem_append]; tauto)
      · exact fun expr found => exprs expr (by simp only [StmtKind.exprs, List.mem_append]; tauto)
    | returnStmt value =>
      cases value with
      | none =>
        refine makes_get_bind (Makes.bind (ending_makes underway ⟨.inl (by simp), rfl, .of_plain rfl⟩
          rfl rfl) ?_)
        intro _ _ _ underway _
        exact makes_pure underway trivial
      | some value =>
        have isResult := (here (some value) rfl).2
        refine Makes.bind (expr_typed sane (exprs value (by simp)) waiting opened
          underway) ?_
        intro result middle again underway carries
        rw [isResult] at carries
        have accepts : middle.Accepts program { opcode := .returnValue, args := [result] } := by
          refine ⟨result, rfl, ?_, rfl⟩
          rw [again.function, isFunction]
          exact carries
        refine makes_get_bind (Makes.bind (ending_makes underway ⟨.inl ?_, rfl, .of_plain rfl⟩
          accepts rfl) ?_)
        · simpa using carries.whole
        · intro _ _ _ underway _
          exact makes_pure underway trivial

theorem stmt_typed (sane : program.Sane) {id : StmtId} (has : id.index < program.stmts.size)
    (returns : program.Returns (some (program.function function).returnType) id) :
    MakesStmt program function (stmt program id) :=
  stmtWithin_typed sane _ id has returns

end Build

end Shader
