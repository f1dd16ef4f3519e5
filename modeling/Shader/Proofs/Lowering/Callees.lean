import Shader.Proofs.Build.Permanence
import Shader.Proofs.Build.Triple
import Shader.Proofs.Program.Growth

/-! # Calls in a graph

A graph calls only the functions that the expressions call it was made of, and only where one of them takes an
address is it refused for that. -/

set_option mvcgen.warning false

namespace Shader

namespace Graph

variable {graph after : Graph} {allowed : FunctionId → Prop}

def CallsOnly (allowed : FunctionId → Prop) (graph : Graph) : Prop :=
  ∀ value callee, (graph.value value).opcode = .call → (graph.value value).payload = .function callee →
    allowed callee

theorem CallsOnly.same (calls : graph.CallsOnly allowed)
    (nature : ∀ value, (after.value value).nature = (graph.value value).nature) :
    after.CallsOnly allowed := by
  intro value callee isCall isCallee
  rw [Value.opcode_of_nature (nature value)] at isCall
  rw [Value.payload_of_nature (nature value)] at isCallee
  exact calls value callee isCall isCallee

theorem CallsOnly.addArg (calls : graph.CallsOnly allowed) (user arg : ValueId) :
    (graph.addArg user arg).CallsOnly allowed := by
  refine calls.same fun value => ?_
  rcases value_modifyValue_or (graph.modifyValue user _) arg _ value with same | ⟨-, same⟩ <;>
    rcases value_modifyValue_or graph user _ value with other | ⟨-, other⟩ <;>
      rw [Graph.addArg, same, other] <;> rfl

theorem CallsOnly.noteReplaced (calls : graph.CallsOnly allowed) (phi same : ValueId) :
    (graph.modifyValue phi fun value => { value with replacedBy := some same }).CallsOnly allowed := by
  refine calls.same fun value => ?_
  rcases value_modifyValue_or graph phi _ value with same | ⟨-, same⟩
  · rw [same]
  · rw [same]
    rfl

theorem CallsOnly.allocate (calls : graph.CallsOnly allowed) (block : BlockId) {operation : Operation}
    (new : ∀ callee, operation.opcode = .call → operation.payload = .function callee → allowed callee) :
    (graph.allocate block operation).2.CallsOnly allowed := by
  refine List.foldlRecOn operation.args _ ?_ fun _ calls arg _ => calls.addArg _ arg
  intro value callee
  rw [value_append]
  split_ifs
  · exact new callee
  · exact calls value callee

theorem CallsOnly.applyEdit (calls : graph.CallsOnly allowed) {edit : Edit}
    (applied : graph.applyEdit edit = .ok after) : after.CallsOnly allowed := by
  obtain ⟨placed, last, placing, removing, rfl⟩ := applyEdit_eq_ok applied
  have placedCalls : placed.CallsOnly allowed := foldlM_keeps _ calls
    (fun _ _ _ _ calls runs => (insert_eq_ok runs).2 ▸ calls) placing
  have lastCalls : last.CallsOnly allowed := foldlM_keeps _ placedCalls
    (fun value _ _ _ calls runs => (removeUnused_eq_ok runs).2 ▸ calls.same (rewrites_removeValue value).nature)
    removing
  exact lastCalls

theorem CallsOnly.replaceUses (calls : graph.CallsOnly allowed) (old new : ValueId) :
    (graph.replaceUses old new).CallsOnly allowed :=
  calls.same (rewrites_replaceUses old new).nature

@[grind =]
theorem callsOnly_modifyBlock (block : BlockId) (change : Block → Block) :
    (graph.modifyBlock block change).CallsOnly allowed ↔ graph.CallsOnly allowed := .rfl

@[grind =]
theorem callsOnly_addEdge (source target : BlockId) :
    (graph.addEdge source target).CallsOnly allowed ↔ graph.CallsOnly allowed := .rfl

@[grind =]
theorem callsOnly_mk (function : FunctionId) (blocks : Arena .block Block) (entry current : BlockId)
    (slots : Table VarId ValueId) (construct : Nat) (isEditing : Bool) :
    CallsOnly allowed { graph with function, blocks, entry, current, slots, construct, isEditing } ↔
      graph.CallsOnly allowed := .rfl

end Graph

theorem Program.Sane.complete {program : Program} (sane : program.Sane) {id : ExprId} {type : TypeId}
    {arguments : List ExprId} (kind : (program.expr id).kind = .structInit type arguments) :
    arguments.length ≤ (program.members type).length := by
  have isThere : program.expr id ≠ default := by
    intro missing
    rw [missing] at kind
    cases kind
  have judged : program.HasType (.structInit type arguments) _ _ :=
    kind ▸ (sane.typed id (Arena.has_of_get_ne isThere)).judged
  generalize (program.expr id).type = own, (program.expr id).isLvalue = lvalue at judged
  cases judged with
  | structInit _ same => simpa using (congrArg List.length same).le

namespace Build

/-- Which functions may be called, and where an address may be taken. -/
structure Limits where
  allowed : FunctionId → Prop
  blamed : Span → Prop

variable {α β : Type} {limits : Limits} {program : Program} {fact : Prop}

open Std.Do

/-- A step calls only functions that may be called, and refuses to take an address only where it may be taken. Where
it gives a result, a fact holds. -/
abbrev Shows (limits : Limits) (fact : Prop) (step : Build α) : Prop :=
  ⦃fun graph => ⌜graph.CallsOnly limits.allowed⌝⦄ step
  ⦃post⟨fun _ graph => ⌜graph.CallsOnly limits.allowed ∧ fact⌝,
    fun failure _ => ⌜∀ span, failure = .reported (.loweringAt span .addressUnsupported) → limits.blamed span⌝⟩⦄

abbrev Limited (limits : Limits) (step : Build α) : Prop :=
  ⦃fun graph => ⌜graph.CallsOnly limits.allowed⌝⦄ step
  ⦃post⟨fun _ graph => ⌜graph.CallsOnly limits.allowed⌝,
    fun failure _ => ⌜∀ span, failure = .reported (.loweringAt span .addressUnsupported) → limits.blamed span⌝⟩⦄

theorem Shows.of_ok {step : Build α} {graph after : Graph} {result : α} (shows : Shows limits fact step)
    (calls : graph.CallsOnly limits.allowed) (runs : step graph = .ok result after) :
    after.CallsOnly limits.allowed ∧ fact := by
  have holds := @run_of_triple _ _ _ step.run graph _ _ shows calls
  rwa [EStateM.run, runs] at holds

theorem Shows.blames {step : Build α} {graph after : Graph} {span : Span} (shows : Shows limits fact step)
    (calls : graph.CallsOnly limits.allowed)
    (runs : step graph = .error (.reported (.loweringAt span .addressUnsupported)) after) : limits.blamed span := by
  have holds := @run_of_triple _ _ _ step.run graph _ _ shows calls
  rw [EStateM.run, runs] at holds
  exact holds span rfl

attribute [local grind →] Graph.CallsOnly.applyEdit
attribute [local grind ←] Graph.CallsOnly.addArg Graph.CallsOnly.replaceUses
attribute [local grind =] Diagnostic.loweringAt Site.red
attribute [local spec] watched require fail refuse accept place addArg emit

theorem limited_fail (fault : Fault) : Limited limits (fail fault : Build α) := by
  unfold fail
  mvcgen
  all_goals grind

theorem limited_forM {items : List α} {step : α → Build PUnit}
    (each : ∀ item ∈ items, Limited limits (step item)) : Limited limits (items.forM step) :=
  triple_forM each

theorem shows_forM {items : List α} {facts : α → Prop} {step : α → Build PUnit}
    (each : ∀ item ∈ items, Shows limits (facts item) (step item)) :
    Shows limits (∀ item ∈ items, facts item) (items.forM step) := by
  induction items with
  | nil => exact Triple.pure _ fun _ calls => ⟨calls, by simp⟩
  | cons item rest ih =>
    rw [List.forall_mem_cons] at each
    have others := ih each.2
    have first := each.1
    change Shows limits _ (step item >>= fun _ => rest.forM step)
    mvcgen [first, others]
    all_goals clear first others each ih; grind

theorem shows_mapM {items : List α} {facts : α → Prop} {step : α → Build β}
    (each : ∀ item ∈ items, Shows limits (facts item) (step item)) :
    Shows limits (∀ item ∈ items, facts item) (items.mapM step) := by
  induction items with
  | nil => exact Triple.pure _ fun _ calls => ⟨calls, by simp⟩
  | cons item rest ih =>
    rw [List.forall_mem_cons] at each
    have others := ih each.2
    have first := each.1
    rw [List.mapM_cons]
    mvcgen [first, others]
    all_goals clear first others each ih; grind

/-! ## Values and variables -/

@[local spec]
theorem limited_makeValue {block : BlockId} {operation : Operation}
    (new : ∀ callee, operation.opcode = .call → operation.payload = .function callee → limits.allowed callee) :
    Limited limits (makeValue block operation) := by
  have allocates : Limited limits (allocate block operation) := fun _ calls => calls.allocate block new
  unfold makeValue
  mvcgen [allocates]
  all_goals grind

@[local spec]
theorem limited_replaceUses (old new : ValueId) : Limited limits (replaceUses old new) := by
  unfold replaceUses
  mvcgen
  all_goals grind

@[local spec]
theorem limited_finishEdit (edit : Edit) : Limited limits (finishEdit edit) := by
  unfold finishEdit
  mvcgen
  all_goals grind

attribute [local spec] undefinedLike retirePhi startEdit queueRemoval removePhi

@[local spec]
theorem limited_removePhiWithin (depth : Nat) (phi : ValueId) :
    Limited limits (removePhiWithin depth phi) := by
  induction depth generalizing phi with
  | zero => exact limited_fail _
  | succ depth again =>
    unfold removePhiWithin
    mvcgen [again, limited_forM]
    all_goals first | grind | exact Graph.CallsOnly.noteReplaced ‹_› _ _

attribute [local spec] fillPhiWith

@[local spec]
theorem limited_readVarWithin (var : VarId) (depth : Nat) (block : BlockId) :
    Limited limits (readVarWithin program var depth block) := by
  induction depth generalizing block with
  | zero => exact limited_fail _
  | succ depth again =>
    unfold readVarWithin
    mvcgen [defineVarWith, searchVarWith, emptyPhi, writeVar, again, limited_forM]
    all_goals grind

@[local spec]
theorem limited_sealBlock (block : BlockId) : Limited limits (sealBlock program block) := by
  unfold sealBlock
  mvcgen [fillPhi, limited_forM]
  all_goals grind

@[local spec]
theorem limited_nextConstruct : Limited limits nextConstruct := by
  unfold nextConstruct
  mvcgen

@[local spec]
theorem limited_newBlock (construct : Nat) (name : String) : Limited limits (newBlock construct name) := by
  unfold newBlock
  mvcgen

@[local spec]
theorem limited_condJump (block : BlockId) (condition : ValueId) (onTrue onFalse : BlockId) :
    Limited limits (condJump block condition onTrue onFalse) := by
  unfold condJump addEdge
  mvcgen
  all_goals grind

@[local spec]
theorem limited_jump (block target : BlockId) : Limited limits (jump block target) := by
  unfold jump addEdge
  mvcgen
  all_goals grind

attribute [local spec] readVar writeVar

/-! ## Expressions -/

attribute [local spec] elementPointer storePlace loadPlace asVector

@[local spec]
theorem limited_arithmetic (op : BinaryOp) (left right : ValueId) (type : TypeId) :
    Limited limits (arithmetic program op left right type) := by
  have noCall {opcode : Opcode} (found : op.opcode? = some opcode) : opcode ≠ .call := by
    rintro rfl
    cases op <;> cases found
  unfold arithmetic
  mvcgen
  all_goals grind

def Clean (program : Program) (id : ExprId) : Prop :=
  ∀ part, program.Within id part → ∀ operand, (program.expr part).kind ≠ .unary .addressOf operand

theorem clean_intro {id : ExprId} (here : ∀ operand, (program.expr id).kind ≠ .unary .addressOf operand)
    (children : ∀ child ∈ (program.expr id).kind.children, Clean program child) : Clean program id := by
  intro part within
  rcases Relation.ReflTransGen.cases_head within with rfl | ⟨child, isChild, within⟩
  · exact here
  · exact children child isChild part within

/-- What lowering an expression shows, for each of the functions that lower one. -/
structure ShowsWithin (limits : Limits) (program : Program) (depth : Nat) : Prop where
  expr : ∀ id, program.Uses limits.allowed limits.blamed id →
    Shows limits (Clean program id) (exprWithin program depth id)
  base : ∀ id, program.Uses limits.allowed limits.blamed id →
    Shows limits (Clean program id) (baseWithin program depth id)
  place : ∀ id, program.Uses limits.allowed limits.blamed id →
    Shows limits (Clean program id) (placeWithin program depth id)
  root : ∀ id, program.Uses limits.allowed limits.blamed id →
    Shows limits (Clean program id) (rootWithin program depth id)
  binary : ∀ op left right type, program.Uses limits.allowed limits.blamed left →
    program.Uses limits.allowed limits.blamed right →
    Shows limits (Clean program left ∧ Clean program right) (binaryWithin program depth op left right type)
  unary : ∀ op operand expr, program.Uses limits.allowed limits.blamed operand →
    (op = .addressOf → limits.blamed expr.span) →
    Shows limits (Clean program operand ∧ op ≠ .addressOf) (unaryWithin program depth op operand expr)

attribute [local spec] literal memberMarker swizzleMarker chooseWith setMerge setCurrent variablePlace

@[local spec]
theorem limited_stepPlace (op : UnaryOp) (place : Place) (type : TypeId) :
    Limited limits (stepPlace program op place type) := by
  unfold stepPlace
  mvcgen
  all_goals grind

/-- The members of a structure are made in the order of the arguments, and there is one for each of them. -/
theorem shows_members {depth : Nat} (within : ShowsWithin limits program depth) {arguments : List ExprId}
    {members : List Member} (slot : ValueId) (complete : arguments.length ≤ members.length)
    (only : ∀ argument ∈ arguments, program.Uses limits.allowed limits.blamed argument) :
    Shows limits (∀ argument ∈ arguments, Clean program argument)
      ((arguments.zip members).zipIdx.forM fun ((argument, member), index) =>
        storeMember (exprWithin program depth argument) slot index member.type) := by
  have listed := List.map_fst_zip complete
  rw [← List.zipIdx_map_fst 0 (arguments.zip members), List.map_map] at listed
  nth_rewrite 1 [← listed]
  simp only [List.forall_mem_map]
  refine shows_forM fun item found => ?_
  have expr := within.expr item.1.1 (only _ (listed ▸ List.mem_map_of_mem found))
  unfold storeMember
  mvcgen [expr]
  all_goals grind

theorem showsWithin (sane : program.Sane) (depth : Nat) : ShowsWithin limits program depth := by
  induction depth with
  | zero =>
    constructor
    all_goals
      intros
      mvcgen [exprWithin, baseWithin, placeWithin, rootWithin, binaryWithin, unaryWithin]
      grind
  | succ depth within =>
    have members := @shows_members limits program depth within
    obtain ⟨expr, base, place, root, binary, unary⟩ := within
    refine ⟨fun id only => ?_, fun id only => ?_, fun id only => ?_, fun id only => ?_,
      fun op left right type onlyLeft onlyRight => ?_, fun op operand node only fair => ?_⟩
    · have children := only.child
      have here := only.here
      have complete := @Program.Sane.complete program sane id
      have clean := @clean_intro program id
      have all (items : List ExprId) (only : ∀ item ∈ items, program.Uses limits.allowed limits.blamed item) :
          Shows limits (∀ item ∈ items, Clean program item) (items.mapM (exprWithin program depth)) :=
        shows_mapM fun item found => expr item (only item found)
      unfold exprWithin
      mvcgen [expr, base, place, root, binary, unary, members, all]
      all_goals clear expr base place root binary unary members all; grind [ExprKind.children]
    · unfold baseWithin
      mvcgen [expr]
      all_goals clear expr base place root binary unary members; grind
    · have children := only.child
      have clean := @clean_intro program id
      unfold placeWithin
      mvcgen [expr, root]
      all_goals clear expr base place root binary unary members; grind [ExprKind.children]
    · unfold rootWithin
      mvcgen [expr, place]
      all_goals clear expr base place root binary unary members; grind
    · unfold binaryWithin
      mvcgen [expr, place]
      all_goals clear expr base place root binary unary members; grind
    · unfold unaryWithin
      mvcgen [expr, place]
      all_goals clear expr base place root binary unary members; grind

/-! ## Statements -/

def CleanStmt (program : Program) (id : StmtId) : Prop :=
  ∀ part, program.Occurs id part → ∀ operand, (program.expr part).kind ≠ .unary .addressOf operand

theorem cleanStmt_intro {id : StmtId} (here : ∀ root ∈ (program.stmt id).kind.exprs, Clean program root)
    (inner : ∀ child ∈ (program.stmt id).kind.row ++ (program.stmt id).kind.branches, CleanStmt program child) :
    CleanStmt program id := by
  rintro part ⟨stmt, inside, root, isRoot, within⟩
  rcases Relation.ReflTransGen.cases_head inside with rfl | ⟨child, isChild, inside⟩
  · exact here root isRoot part within
  · exact inner child isChild part ⟨stmt, inside, root, isRoot, within⟩

section Statements

variable (sane : program.Sane)

include sane

theorem shows_expr {id : ExprId} (only : program.Uses limits.allowed limits.blamed id) :
    Shows limits (Clean program id) (expr program id) :=
  (showsWithin sane _).expr id only

omit sane in
@[local spec]
theorem limited_ensureOpen : Limited limits (ensureOpen program) := by
  unfold ensureOpen
  mvcgen

omit sane in
theorem limited_declareVars (init : Option ValueId) (vars : List VarId) :
    Limited limits (vars.forM (declareVar program init)) := by
  refine limited_forM fun var _ => ?_
  unfold declareVar setSlot
  mvcgen
  all_goals grind

attribute [local spec] optionalExpr jumpIfOpen branchWith openLoop loopCondition returnValue returnVoid

theorem shows_ifElse {condition : ExprId} {onTrue : Build Unit} {onFalse : Option (Build Unit)}
    {whenTrue whenFalse : Prop} (only : program.Uses limits.allowed limits.blamed condition)
    (ofTrue : Shows limits whenTrue onTrue) (ofFalse : ∀ other ∈ onFalse, Shows limits whenFalse other) :
    Shows limits (Clean program condition ∧ whenTrue ∧ (onFalse ≠ none → whenFalse))
      (ifElseWith program condition onTrue onFalse) := by
  have expr := shows_expr sane only
  unfold ifElseWith
  cases onFalse with
  | none =>
    mvcgen [expr, ofTrue]
    all_goals clear expr ofTrue ofFalse; grind
  | some other =>
    have ofFalse := ofFalse other rfl
    mvcgen [expr, ofTrue, ofFalse]
    all_goals clear expr ofTrue ofFalse; grind

theorem shows_forLoop {init condition step : Option ExprId} {body : Build Unit} {inner : Prop}
    (only : ∀ id ∈ init.toList ++ condition.toList ++ step.toList, program.Uses limits.allowed limits.blamed id)
    (ofBody : Shows limits inner body) :
    Shows limits ((∀ id ∈ init.toList ++ condition.toList ++ step.toList, Clean program id) ∧ inner)
      (forLoopWith program init condition step body) := by
  have expr := @shows_expr limits program sane
  unfold forLoopWith
  mvcgen [expr, ofBody]
  all_goals clear expr ofBody; grind

theorem shows_stmtWithin (depth : Nat) {id : StmtId} (only : ∀ inner, program.Inside id inner →
      ∀ expr ∈ (program.stmt inner).kind.exprs, program.Uses limits.allowed limits.blamed expr) :
    Shows limits (CleanStmt program id) (stmtWithin program depth id) := by
  induction depth generalizing id with
  | zero =>
    mvcgen [stmtWithin]
    grind
  | succ depth ih =>
    have here := only id .refl
    have inner (child : StmtId) (inside : child ∈ (program.stmt id).kind.row ++ (program.stmt id).kind.branches) :
        Shows limits (CleanStmt program child) (stmtWithin program depth child) :=
      ih fun inner reaches => only inner (.head inside reaches)
    have clean := @cleanStmt_intro program id
    have expr := @shows_expr limits program sane
    unfold stmtWithin
    cases kind : (program.stmt id).kind with
    | block stmts =>
      have row := shows_forM fun child (isChild : child ∈ stmts) =>
        inner child (by simpa [kind, StmtKind.row, StmtKind.branches] using isChild)
      mvcgen [row]
      all_goals clear row inner ih expr; grind [StmtKind.exprs, StmtKind.branches, StmtKind.row]
    | ifElse condition onTrue onFalse =>
      have choice := @shows_ifElse limits program sane condition (stmtWithin program depth onTrue)
        (onFalse.map (stmtWithin program depth)) _ (∀ child ∈ onFalse, CleanStmt program child)
        (here condition (by simp [kind])) (inner onTrue (by simp [kind, StmtKind.branches])) (by
          rintro _ isFalse
          obtain ⟨child, rfl, rfl⟩ := Option.map_eq_some_iff.1 isFalse
          simpa using inner child (by simp [kind, StmtKind.branches]))
      mvcgen [choice]
      all_goals clear choice inner ih expr; grind [StmtKind.exprs, StmtKind.branches, StmtKind.row, Option.mem_def]
    | forLoop init condition step body =>
      have loop := shows_forLoop sane (fun root found => here root (by simpa [kind] using found))
        (inner body (by simp [kind, StmtKind.branches]))
      mvcgen [loop]
      all_goals clear loop inner ih expr; grind [StmtKind.exprs, StmtKind.branches, StmtKind.row]
    | _ =>
      mvcgen [expr, limited_declareVars]
      all_goals clear inner ih expr; grind [StmtKind.exprs, StmtKind.branches, StmtKind.row]

theorem shows_body {function : Function} {body : StmtId} (only : ∀ inner, program.Inside body inner →
      ∀ expr ∈ (program.stmt inner).kind.exprs, program.Uses limits.allowed limits.blamed expr) :
    Shows limits (CleanStmt program body) (Build.body program function body) := by
  have inner := shows_stmtWithin sane (program.stmts.size + 1) only
  unfold Build.body
  mvcgen [arguments, stmt, finishBody, unreachable, inner, limited_forM]
  all_goals clear inner; grind

end Statements

end Build

theorem lower_callsOnly {program : Program} {function : FunctionId} {graph : Graph} (sane : program.Sane)
    (lowered : lower program function = .ok graph) : graph.CallsOnly (·.index < function.index) := by
  unfold lower lowerUnder at lowered
  dsimp only at lowered
  split at lowered
  · cases lowered
  · rename_i body isBody
    split at lowered
    · rename_i runs
      cases lowered
      have shows := @Build.shows_body ⟨(·.index < function.index), fun _ => True⟩ program sane
        (program.function function) body fun inner inside expr isExpr => (sane.callsOlder function body isBody inner
          (sane.ordered.inside_le inside) expr isExpr).mono fun _ only => ⟨only, fun _ _ => trivial⟩
      refine (shows.of_ok ?_ runs).1
      intro value callee isCall
      cases isCall
    · cases lowered

end Shader
