import Shader.Proofs.Lowering.Expression
import Shader.Proofs.Lowering.Loop

/-! # Statements

Lowering statements. A statement may start behind the ending of a block, and then it goes to a block that
nothing jumps to. The variables that it declares are in scope behind it. -/

namespace Shader

open Relation (ReflTransGen)

namespace Build

variable {declared : Set VarId} {leaves : Prop} {step : Build Unit}

open Shader.Graph

variable {program : Program} {scope more : Set VarId} {graph : Graph} {watch : Watch}
  {var : VarId} {init : Option ValueId}

/-! ## Simple statements -/

theorem ensureOpen_yields (slots : Set VarId)
    (tolerant : watch.Tolerant)
    (ready : graph.Ready) :
    Yields watch (ensureOpen program) graph fun _ after =>
      Proceeds False slots graph after ∧ after.IsOpen := by
  refine yields_get_bind ?_
  by_cases isOpen : graph.IsOpen
  · have goesOn : graph.isTerminated graph.current = false := by
      simpa [isTerminated, Graph.IsOpen] using isOpen
    simp only [goesOn, Bool.false_eq_true, if_false]
    exact yields_pure ⟨.refl, isOpen⟩
  · have ended : graph.isTerminated graph.current = true := by
      simpa [isTerminated, Graph.IsOpen, Option.isSome_iff_ne_none] using isOpen
    simp only [ended, if_true]
    refine Yields.bind (nextConstruct_yields slots) ?_
    rintro construct counted ⟨extends₁, -⟩
    have ready₁ := extends₁.ready ready
    refine Yields.bind (newBlock_yields slots ready₁ construct _) ?_
    rintro block made ⟨extends₂, -, reserved, missing⟩
    have ready₂ := extends₂.ready ready₁
    have new : ¬ graph.HasBlock block :=
      fun has => missing ((extends₁.moves.stepped ready).hasBlock block has)
    have gathers : made.Gathers block graph.current := ⟨[], reserved, by simp⟩
    refine Yields.mono (resume_yields slots tolerant ready₂ gathers) ?_
    rintro - after ⟨extends₃, starts, isOpenAfter, behind, isSealed⟩
    have front := extends₁.onward extends₂ ready subset_rfl (by simp)
    have whole : Extends slots ∅ ∅ graph after := by
      refine (front.close extends₃ ready subset_rfl (by simpa using new) isSealed).mono ?_
      intro other found
      simp at found
    exact ⟨whole.proceeds id (starts.current.symm ▸ behind), isOpenAfter⟩

theorem leave_ensures (slots : Set VarId)
    (tolerant : watch.Tolerant)
    (ready : graph.Ready) (isOpen : graph.IsOpen) {operation : Operation}
    (isEnding : operation.opcode.isEnding = true) (leaves : operation.payload.blocks = [])
    (held : ∀ arg ∈ operation.args, graph.Held graph.current arg) :
    Yields watch (makeValue graph.current operation) graph fun _ after =>
      Proceeds False slots graph after ∧ ¬ after.IsOpen := by
  have ends : Ends graph graph.current operation :=
    ready.ends isOpen isEnding held (by simp [leaves]) (by simp [leaves])
  refine Yields.mono (leave_yields tolerant ready.sound ends leaves) ?_
  rintro - after rfl
  have extension : Extends slots ∅ ∅ graph (graph.endBlock graph.current operation) :=
    ends.extends (.inl rfl) (by simp [leaves])
  refine ⟨extension.proceeds id ?_, ?_⟩
  · rw [ends.current]
    exact dominates_self
  · rw [Graph.IsOpen, ends.current, ends.inserts.ending_eq, if_pos ⟨rfl, isEnding⟩]
    simp

theorem setSlot_yields {slot : ValueId} (ready : graph.Ready)
    (fresh : (graph.value slot).opcode = .alloca) (held : graph.Held graph.current slot)
    (new : var ∉ scope) (available : graph.Available program graph.current more) :
    Yields watch (setSlot var slot) graph fun _ after =>
      Proceeds False scope graph after ∧ (graph.IsOpen → after.IsOpen) ∧
        after.Available program after.current (more ∪ {var}) ∧ after.Held after.current slot := by
  have step : Step (graph.frame False scope ∅) ⟨graph, ∅, ∅⟩
      ⟨{ graph with slots := graph.slots.insert var slot }, ∅, ∅⟩ :=
    .setSlot held.live fresh new
  have proceeds : Proceeds False scope graph
      { graph with slots := graph.slots.insert var slot } :=
    ⟨.single step (neatens_beside rfl rfl), dominates_self, fun block has => .inl has⟩
  have still {value : ValueId} (old : graph.Held graph.current value) :
      ({ graph with slots := graph.slots.insert var slot } : Graph).Held graph.current value :=
    old.proceeds proceeds ready
  refine yields_modify ⟨proceeds, fun isOpen => isOpen, fun name found inMemory => ?_, still held⟩
  -- another variable keeps its address
  by_cases same : name = var
  · exact ⟨slot, by simp [same, Table.find?_insert_self], still held⟩
  · obtain ⟨address, isSlot, held⟩ := available name (found.resolve_right same) inMemory
    exact ⟨address, by rw [Table.find?_insert_of_ne _ _ same, isSlot], still held⟩

theorem declareVar_yields (tolerant : watch.Tolerant) (lowerable : graph.Lowerable program more)
    (new : var ∉ scope) (held : ∀ value, init = some value → graph.Held graph.current value) :
    Yields watch (declareVar program init var) graph fun _ after =>
      Proceeds False scope graph after ∧ after.Lowerable program (more ∪ {var}) := by
  unfold declareVar
  dsimp only
  split_ifs with renamed
  · -- a renamed variable has no address, so nothing is asked of it
    have finish {value : ValueId} {middle : Graph} (first : Evaluates False graph value middle) :
        Yields watch (do writeVar (← get).current var value) middle fun _ after =>
          Proceeds False scope graph after ∧ after.Lowerable program (more ∪ {var}) := by
      have now := lowerable.evaluates first
      refine Yields.mono (assign_yields False now.ready now.isOpen first.held) ?_
      rintro - after ⟨proceeds, isOpen⟩
      have whole := first.proceeds.trans proceeds lowerable.ready subset_rfl
      have kept := lowerable.available.proceeds whole lowerable.ready (Set.subset_univ _)
      refine ⟨whole.mono (Set.subset_univ _), whole.ready lowerable.ready, isOpen, ?_⟩
      rintro name (found | rfl) inMemory
      · exact kept name found inMemory
      · exact absurd (renamed.symm.trans inMemory) (by decide)
    cases init with
    | some value => exact finish (.refl lowerable.isOpen (held value rfl))
    | none =>
      refine Yields.bind (emit_yields False tolerant lowerable.ready lowerable.isOpen (by simp) rfl
        (by simp)) ?_
      exact fun _ _ first => finish first
  · refine Yields.bind (made_yields False tolerant lowerable.ready lowerable.isOpen (by simp) rfl
      (by simp)) ?_
    rintro slot middle ⟨first, fresh⟩
    have now := lowerable.evaluates first
    refine Yields.bind (setSlot_yields now.ready fresh first.held new now.available) ?_
    rintro - noted ⟨proceeds, isOpen, available, heldSlot⟩
    have whole := (first.proceeds.mono (Set.subset_univ scope)).trans proceeds lowerable.ready subset_rfl
    have later : noted.Lowerable program (more ∪ {var}) :=
      ⟨whole.ready lowerable.ready, isOpen now.isOpen, available⟩
    cases init with
    | none => exact yields_pure ⟨whole, later⟩
    | some value =>
      have heldValue := (held value rfl).proceeds whole lowerable.ready
      refine Yields.bind (emit_yields False tolerant later.ready later.isOpen (by simp) rfl
        (by simpa using ⟨heldSlot, heldValue⟩)) ?_
      intro stored after last
      exact yields_pure ⟨whole.trans last.proceeds lowerable.ready (Set.subset_univ _), later.evaluates last⟩

theorem declareVars_ensures (tolerant : watch.Tolerant) {vars : List VarId}
    (lowerable : graph.Lowerable program scope) (new : ∀ var ∈ vars, var ∉ scope)
    (held : ∀ value, init = some value → graph.Held graph.current value) :
    Ensures watch (vars.forM (declareVar program init)) graph fun _ after =>
      Proceeds False scope graph after ∧ after.Lowerable program (scope ∪ {var | var ∈ vars}) := by
  refine (ensures_forM (fun rest now => ∃ done, vars = done ++ rest ∧ Proceeds False scope graph now ∧
    now.Lowerable program (scope ∪ {var | var ∈ done})) ?_ ?_).mono ?_
  · exact ⟨[], rfl, .refl, by simpa using lowerable⟩
  · rintro var rest now ⟨done, split, proceeds, lowerableNow⟩
    refine (Yields.mono (declareVar_yields tolerant lowerableNow (new var (by simp [split]))
      fun value isInit => (held value isInit).proceeds proceeds lowerable.ready) ?_).ensures
    rintro - after ⟨declares, lowerableAfter⟩
    refine ⟨done ++ [var], by simp [split], proceeds.trans declares lowerable.ready subset_rfl, ?_⟩
    have same : scope ∪ {name | name ∈ done ++ [var]} = scope ∪ {name | name ∈ done} ∪ {var} := by
      ext name
      simp
      tauto
    rw [same]
    exact lowerableAfter
  · rintro - after ⟨done, split, facts⟩
    rw [List.append_nil] at split
    rw [split]
    exact facts

theorem optionalExpr_ensures (tolerant : watch.Tolerant) (lawful : program.Lawful)
    {expr : Option ExprId} (fits : ∀ id ∈ expr, program.Fits False scope id)
    (has : ∀ id ∈ expr, id.index < program.exprs.size) (lowerable : graph.Lowerable program scope) :
    Ensures watch (optionalExpr program expr) graph fun value after =>
      Proceeds False Set.univ graph after ∧ after.IsOpen ∧
        ∀ result, value = some result → after.Held after.current result := by
  cases expr with
  | none => exact ensures_pure ⟨.refl, lowerable.isOpen, by simp⟩
  | some id =>
    refine Ensures.bind (expr_ensures tolerant lawful (fits id rfl) (has id rfl) graph lowerable) ?_
    intro value after evaluates
    refine ensures_pure ⟨evaluates.proceeds, evaluates.isOpen, ?_⟩
    rintro result ⟨⟩
    exact evaluates.held

theorem loopCondition_values (tolerant : watch.Tolerant) (lawful : program.Lawful)
    {condition : Option ExprId} (fits : ∀ id ∈ condition, program.Fits False scope id)
    (has : ∀ id ∈ condition, id.index < program.exprs.size) :
    Values watch program False scope (loopCondition program condition) := by
  intro graph lowerable
  cases condition with
  | none => exact (literal_yields False tolerant lowerable.ready lowerable.isOpen (.bool true)).ensures
  | some id => exact expr_ensures tolerant lawful (fits id rfl) (has id rfl) graph lowerable

/-! ## Kinds of statements -/

/-- Lowering a statement in an open block does what it should. -/
abbrev Acts (watch : Watch) (program : Program) (scope declared : Set VarId) (leaves : Prop)
    (step : Build Unit) (start : Graph) : Prop :=
  Ensures watch step start fun _ after => Proceeds False scope start after ∧
    after.Available program after.current (scope ∪ declared) ∧ (leaves → ¬ after.IsOpen)

def Does (watch : Watch) (program : Program) (scope declared : Set VarId) (leaves : Prop)
    (step : Build Unit) : Prop :=
  ∀ graph : Graph, graph.Ready → graph.Available program graph.current scope →
    Acts watch program scope declared leaves step graph

theorem Does.fills (does : Does watch program scope declared leaves step) :
    Fills watch program scope scope step fun _ _ _ => True := by
  intro graph ready _ available
  exact (does graph ready available).mono fun _ _ acted => ⟨acted.1, trivial⟩

theorem acts_of_proceeds (lowerable : graph.Lowerable program scope)
    (proceeds : Ensures watch step graph fun _ after =>
      Proceeds False scope graph after ∧ (leaves → ¬ after.IsOpen)) :
    Acts watch program scope ∅ leaves step graph := by
  refine proceeds.mono fun _ after moved => ⟨moved.1, ?_, moved.2⟩
  rw [Set.union_empty]
  exact lowerable.available.proceeds moved.1 lowerable.ready subset_rfl

section

variable (tolerant : watch.Tolerant) (lawful : program.Lawful) (lowerable : graph.Lowerable program scope)

include tolerant lawful lowerable

theorem exprStmt_acts {id : ExprId} (fits : program.Fits False scope id)
    (has : id.index < program.exprs.size) :
    Acts watch program scope ∅ False (do
        let _ ← expr program id) graph :=
  acts_of_proceeds lowerable (Ensures.bind (expr_ensures tolerant lawful fits has graph lowerable)
    fun _ _ evaluates => ensures_pure ⟨evaluates.proceeds.mono (Set.subset_univ _), False.elim⟩)

theorem varDecl_acts {vars : List VarId} {init : Option ExprId}
    (fits : ∀ id ∈ init, program.Fits False scope id)
    (has : ∀ id ∈ init, id.index < program.exprs.size) (new : ∀ var ∈ vars, var ∉ scope) :
    Acts watch program scope {var | var ∈ vars} False (do
        let init ← optionalExpr program init
        vars.forM (declareVar program init)) graph := by
  refine Ensures.bind (optionalExpr_ensures tolerant lawful fits has lowerable) ?_
  rintro value middle ⟨proceeds, isOpen, held⟩
  have now := lowerable.proceeds proceeds isOpen (Set.subset_univ _)
  refine (declareVars_ensures tolerant now new held).mono ?_
  rintro - after ⟨declares, lowerableAfter⟩
  exact ⟨(proceeds.mono (Set.subset_univ _)).trans declares lowerable.ready subset_rfl,
    lowerableAfter.available, False.elim⟩

theorem ifElse_acts {condition : ExprId} {onTrue : Build Unit} {onFalse : Option (Build Unit)}
    (fits : program.Fits False scope condition) (has : condition.index < program.exprs.size)
    (fillsTrue : Fills watch program scope scope onTrue fun _ _ _ => True)
    (fillsFalse : ∀ step ∈ onFalse, Fills watch program scope scope step fun _ _ _ => True) :
    Acts watch program scope ∅ False (ifElseWith program condition onTrue onFalse) graph :=
  acts_of_proceeds lowerable ((ifElseWith_ensures tolerant lowerable.ready lowerable.isOpen
    lowerable.available (expr_ensures tolerant lawful fits has).fills fillsTrue fillsFalse).mono
    fun _ _ done => ⟨done.1, False.elim⟩)

theorem forLoop_acts {init condition step : Option ExprId} {body : Build Unit}
    (fits : ∀ id, id ∈ init ∨ id ∈ condition ∨ id ∈ step → program.Fits False scope id)
    (has : ∀ id, id ∈ init ∨ id ∈ condition ∨ id ∈ step → id.index < program.exprs.size)
    (fills : Fills watch program scope scope body fun _ _ _ => True) :
    Acts watch program scope ∅ False (forLoopWith program init condition step body) graph := by
  have fillsAny {expr : Option ExprId}
      (isPart : ∀ id ∈ expr, id ∈ init ∨ id ∈ condition ∨ id ∈ step) :
      Fills watch program scope scope (optionalExpr program expr) fun _ _ after => after.IsOpen := by
    intro start ready isOpen available
    refine (optionalExpr_ensures tolerant lawful (fun id isId => fits id (isPart id isId))
      (fun id isId => has id (isPart id isId)) ⟨ready, isOpen, available⟩).mono ?_
    rintro value after ⟨proceeds, isOpenAfter, -⟩
    exact ⟨proceeds.mono (Set.subset_univ _), isOpenAfter⟩
  have values := loopCondition_values tolerant lawful (fun id isId => fits id (.inr (.inl isId)))
    fun id isId => has id (.inr (.inl isId))
  exact acts_of_proceeds lowerable ((forLoopWith_ensures tolerant lowerable.ready lowerable.isOpen
    lowerable.available (fillsAny fun _ => .inl) (values.fills.mono (Set.subset_univ _))
    (fillsAny fun _ isId => .inr (.inr isId)) fills).mono fun _ _ done => ⟨done.1, False.elim⟩)

theorem returnValue_acts {id : ExprId} (fits : program.Fits False scope id)
    (has : id.index < program.exprs.size) :
    Acts watch program scope ∅ True (do
        let value ← expr program id
        let _ ← returnValue (← get).current value) graph := by
  refine acts_of_proceeds lowerable (Ensures.bind (expr_ensures tolerant lawful fits has graph lowerable) ?_)
  intro value middle evaluates
  have now := lowerable.evaluates evaluates
  refine ensures_get_bind (Ensures.bind (leave_ensures scope tolerant now.ready now.isOpen rfl rfl
    (by simpa using evaluates.held)).ensures ?_)
  exact fun _ _ leaves => ensures_pure ⟨(evaluates.proceeds.mono (Set.subset_univ scope)).trans leaves.1
    lowerable.ready subset_rfl, fun _ => leaves.2⟩

omit lawful in
theorem returnVoid_acts : Acts watch program scope ∅ True (do
        let _ ← returnVoid (← get).current) graph :=
  acts_of_proceeds lowerable (ensures_get_bind (Ensures.bind (leave_ensures scope tolerant
    lowerable.ready lowerable.isOpen rfl rfl (by simp)).ensures fun _ _ leaves =>
      ensures_pure ⟨leaves.1, fun _ => leaves.2⟩))

end

theorem Acts.imp {fewer : Prop}
    (acts : Acts watch program scope declared leaves step graph) (implies : fewer → leaves) :
    Acts watch program scope declared fewer step graph :=
  acts.mono fun _ _ acted => ⟨acted.1, acted.2.1, acted.2.2 ∘ implies⟩

theorem row_acts {stmts : List StmtId} {step : StmtId → Build Unit}
    (does : ∀ before child after, stmts = before ++ child :: after →
      Does watch program (scope ∪ program.declaredBy before) (program.declaredBy [child])
        (program.Leaves child) (step child))
    (lowerable : graph.Lowerable program scope) :
    Acts watch program scope ∅ (∃ before last, stmts = before ++ [last] ∧ program.Leaves last)
      (stmts.forM step) graph := by
  refine acts_of_proceeds lowerable ((ensures_forM (fun rest now => ∃ done, stmts = done ++ rest ∧
    Proceeds False scope graph now ∧ now.Available program now.current (scope ∪ program.declaredBy done) ∧
    ∀ before last, done = before ++ [last] → program.Leaves last → ¬ now.IsOpen) ?_ ?_).mono ?_)
  · refine ⟨[], rfl, .refl, ?_, by simp⟩
    simpa [Program.declaredBy] using lowerable.available
  · rintro child rest now ⟨done, split, proceeds, availableNow, -⟩
    refine (does done child rest split now (proceeds.ready lowerable.ready) availableNow).mono ?_
    rintro - after ⟨moved, available, ended⟩
    refine ⟨done ++ [child], by simp [split],
      proceeds.trans moved lowerable.ready Set.subset_union_left, ?_, fun before last same leaves => ?_⟩
    rotate_left
    · obtain ⟨-, ⟨⟩⟩ := List.append_inj' same rfl
      exact ended leaves
    have same : scope ∪ program.declaredBy (done ++ [child]) =
        scope ∪ program.declaredBy done ∪ program.declaredBy [child] := by
      ext var
      simp [Program.declaredBy, or_and_right, exists_or, or_assoc]
    rw [same]
    exact available
  · rintro - after ⟨done, split, proceeds, -, ended⟩
    rw [List.append_nil] at split
    refine ⟨proceeds, fun ⟨before, last, same, leaves⟩ => ended before last (split ▸ same) leaves⟩

/-! ## All statements -/

theorem does_of_acts (tolerant : watch.Tolerant)
    (acts : ∀ start, start.Lowerable program scope → Acts watch program scope declared leaves step start) :
    Does watch program scope declared leaves (do
        ensureOpen program
        step) := by
  intro graph ready available
  refine Ensures.bind (ensureOpen_yields scope tolerant ready).ensures ?_
  rintro - start ⟨opens, isOpen⟩
  refine (acts start ⟨opens.ready ready, isOpen, available.proceeds opens ready subset_rfl⟩).mono ?_
  exact fun _ _ acted => ⟨opens.trans acted.1 ready subset_rfl, acted.2⟩

theorem stmtWithin_does (tolerant : watch.Tolerant) (lawful : program.Lawful) {id : StmtId}
    (within : program.Scoped scope id) {depth : Nat} (enough : id.index < depth) :
    Does watch program scope (program.declaredBy [id]) (program.Leaves id) (stmtWithin program depth id) := by
  induction within generalizing depth with
  | @intro scope id exprs new _ row branches inductionRow inductionBranch =>
    obtain ⟨depth, rfl⟩ : ∃ less, depth = less + 1 := ⟨depth - 1, by omega⟩
    have part := lawful.part id
    have fillsBranch (child : StmtId) (found : child ∈ (program.stmt id).kind.branches) :
        Fills watch program scope scope (stmtWithin program depth child) fun _ _ _ => True := by
      have less := lawful.branch id child found
      exact (inductionBranch child found (by omega)).fills
    have declared : program.declaredBy [id] = {var | var ∈ (program.stmt id).kind.declared} := by
      simp [Program.declaredBy]
    -- only a declaration declares variables
    have declaresNone {leaves : Prop} {step : Build Unit} {kind : StmtKind} (nothing : kind.declared = [])
        (implies : program.Leaves id → leaves)
        (acts : ∀ start, start.Lowerable program scope → Acts watch program scope ∅ leaves step start) :
        ∀ start, start.Lowerable program scope →
          Acts watch program scope {var | var ∈ kind.declared} (program.Leaves id) step start := by
      rw [nothing]
      simpa using fun start lowerable => (acts start lowerable).imp implies
    -- and only a return or a block leaves the function
    have stays (plain : (program.stmt id).kind.isReturn = false ∧ (program.stmt id).kind.row = []) :
        program.Leaves id → False := by
      simp [Program.Leaves, plain]
    rw [stmtWithin, declared]
    refine does_of_acts tolerant ?_
    cases kind : (program.stmt id).kind with
    | expr value =>
      rw [kind] at exprs part
      exact declaresNone rfl (stays (by simp [kind, StmtKind.isReturn, StmtKind.row])) fun start lowerable => exprStmt_acts tolerant lawful lowerable
        (exprs value (by simp)) (part value (by simp))
    | varDecl vars init =>
      rw [kind] at exprs part new
      exact fun start lowerable => (varDecl_acts tolerant lawful lowerable
        (fun id isInit => exprs id (by simpa using isInit))
        (fun id isInit => part id (by simpa using isInit)) new).imp
        (stays (by simp [kind, StmtKind.isReturn, StmtKind.row]))
    | block stmts =>
      refine declaresNone rfl ?_ fun start lowerable => row_acts (fun before child after split => ?_) lowerable
      · rintro (isReturn | ⟨before, last, same, isReturn⟩)
        · rw [kind] at isReturn
          cases isReturn
        · rw [kind] at same
          exact ⟨before, last, same, .inl isReturn⟩
      have less := lawful.row id child (by simp [kind, StmtKind.row, split])
      exact inductionRow before child after (by rw [kind]; exact split) (by omega)
    | ifElse condition onTrue onFalse =>
      rw [kind] at exprs part fillsBranch
      refine declaresNone rfl (stays (by simp [kind, StmtKind.isReturn, StmtKind.row])) fun start lowerable => ifElse_acts tolerant lawful lowerable
        (exprs condition (by simp)) (part condition (by simp))
        (fillsBranch onTrue (by simp [StmtKind.branches])) fun step isStep => ?_
      obtain ⟨other, isOther, rfl⟩ := Option.map_eq_some_iff.1 isStep
      exact fillsBranch other (by simp [StmtKind.branches, isOther])
    | forLoop init condition step body =>
      rw [kind] at exprs part fillsBranch
      have isPart (id : ExprId) (isId : id ∈ init ∨ id ∈ condition ∨ id ∈ step) :
          id ∈ (StmtKind.forLoop init condition step body).exprs := by
        simpa using isId
      exact declaresNone rfl (stays (by simp [kind, StmtKind.isReturn, StmtKind.row])) fun start lowerable => forLoop_acts tolerant lawful lowerable
        (fun id isId => exprs id (isPart id isId)) (fun id isId => part id (isPart id isId))
        (fillsBranch body (by simp [StmtKind.branches]))
    | returnStmt value =>
      rw [kind] at exprs part
      cases value with
      | some value =>
        exact declaresNone rfl (fun _ => trivial) fun start lowerable => returnValue_acts tolerant lawful lowerable
          (exprs value (by simp)) (part value (by simp))
      | none => exact declaresNone rfl (fun _ => trivial) fun start lowerable => returnVoid_acts tolerant lowerable

end Build

end Shader
