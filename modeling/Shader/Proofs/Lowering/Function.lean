import Shader.Proofs.Lowering.Statement

/-! # Functions

Lowering functions, from the empty graph on. -/

namespace Shader

open Relation (ReflTransGen)

namespace Graph

variable {function : FunctionId}

/-! ## The empty graph -/

theorem not_hasValue_start (value : ValueId) : ¬ (start function).HasValue value := Nat.not_lt_zero _

theorem value_start (value : ValueId) : (start function).value value = default :=
  value_of_not_hasValue (not_hasValue_start value)

theorem block_start_entry :
    (start function).block (start function).entry = { name := "entry", isSealed := true } := rfl

theorem block_start {α : Type} (field : Block → α)
    (same : field { name := "entry", isSealed := true } = field default) (block : BlockId) :
    field ((start function).block block) = field default := by
  by_cases has : (start function).HasBlock block
  · have isEntry : block = (start function).entry := by
      obtain ⟨index⟩ := block
      have few : index < 1 := has
      obtain rfl : index = 0 := by omega
      rfl
    rw [isEntry, block_start_entry]
    exact same
  · rw [block_of_not_hasBlock has]

theorem binding_start (block : BlockId) (var : VarId) : (start function).binding block var = none := by
  have none : ((start function).block block).bindings = _ := block_start Block.bindings rfl block
  rw [binding, none]
  rfl

theorem values_start (block : BlockId) : ((start function).block block).values = [] :=
  block_start Block.values rfl block

theorem incomplete_start (block : BlockId) : ((start function).block block).incomplete = [] :=
  block_start Block.incomplete rfl block

theorem ending_start (block : BlockId) : ((start function).block block).ending = none :=
  block_start Block.ending rfl block

theorem preds_start (block : BlockId) : ((start function).block block).preds = [] :=
  block_start Block.preds rfl block

theorem succs_start (block : BlockId) : ((start function).block block).succs = [] :=
  block_start Block.succs rfl block

theorem sound_start : (start function).Sound ∅ ∅ where
  idle := rfl
  consistent :=
    { edges := fun user value => by rw [value_start, value_start]; rfl
      removed_args := fun value _ => by rw [value_start]; rfl
      removed_uses := fun value _ => by rw [value_start]; rfl
      placed := fun value _ live => absurd live.1 (not_hasValue_start value)
      listed := fun block value found => by simp [values_start] at found
      bound := fun block var value found => by simp [binding_start] at found
      slots := fun var value found => by cases found
      waiting := fun block var value found => by simp [incomplete_start] at found }
  replaces :=
    { kept := fun value live => absurd live.1 (not_hasValue_start value)
      survivor := fun value has => absurd has (not_hasValue_start value) }
  laidOut :=
    { parts := fun block => by simp [phisOf, bodyOf, values_start, ending_start]
      ending := fun block value found => by simp [ending_start] at found
      slot := fun var value found => by cases found }
  flows :=
    { hasEntry := Nat.zero_lt_one
      hasCurrent := Nat.zero_lt_one
      entry_sealed := rfl
      entry_preds := rfl
      edges := fun source target => by simp [preds_start, succs_start]
      preds_nodup := fun block => by simp [preds_start]
      succs_nodup := fun block => by simp [succs_start]
      succs := fun block => by simp [succs_start, targetsOf, ending_start]
      ranks := ⟨fun _ => 0, fun _ => Nat.zero_le _, fun block pred _ only => by simp [preds_start] at only⟩ }
  fills :=
    { arity := fun phi live => absurd live.1 (not_hasValue_start phi)
      waits := fun block var phi found => by simp [incomplete_start] at found
      waits_nodup := fun block => by simp [incomplete_start]
      pending := fun phi found => absurd found (Set.notMem_empty _)
      notEntry := fun phi live => absurd live.1 (not_hasValue_start phi) }
  strict :=
    { operand := fun user arg _ used => absurd (hasValue_of_mem_args used) (not_hasValue_start user)
      choice := fun phi _ position arg pred found =>
        absurd (hasValue_of_mem_args (List.mem_of_getElem? found)) (not_hasValue_start phi)
      bound := fun block var value found => by simp [binding_start] at found }

theorem ready_start : (start function).Ready := ⟨sound_start⟩

end Graph

namespace Build

open Shader.Graph

variable {program : Program} {graph : Graph} {watch : Watch} {function : Function}

theorem arguments_yields (tolerant : watch.Tolerant) (ready : graph.Ready) (isOpen : graph.IsOpen)
    (inEntry : graph.current = graph.entry) :
    Yields watch (arguments program function) graph fun _ after =>
      Proceeds True Set.univ graph after ∧ after.IsOpen := by
  refine Yields.mono (yields_forM (fun _ now => Proceeds True Set.univ graph now ∧ now.IsOpen) ?_ ?_)
    fun _ _ done => done
  · exact ⟨.refl, isOpen⟩
  · rintro ⟨argument, index⟩ rest now ⟨proceeds, isOpenNow⟩
    -- nothing leaves the entry
    have inside {later : Graph} (moved : Proceeds True Set.univ graph later) :
        later.entry = later.current := by
      rw [(moved.moves.stepped ready).entry, (moved.moves.stays ready trivial).1, inEntry]
    have readyNow := proceeds.ready ready
    obtain ⟨value, middle, made, evaluates⟩ : Yields watch (emit
          { opcode := .functionArg
            payload := .argument index
            type := some (program.var argument).type }) now _ :=
      emit_yields True tolerant readyNow isOpenNow (by simp) rfl (by simp)
    have front := proceeds.trans evaluates.proceeds ready subset_rfl
    refine yields_get_bind ?_
    rw [inside proceeds]
    refine yields_bind_of_eq made ?_
    rw [← (evaluates.proceeds.moves.stays readyNow trivial).1]
    have assigned : Yields watch (do writeVar (← get).current argument value) middle _ :=
      assign_yields True (front.ready ready) evaluates.isOpen evaluates.held
    refine Yields.mono assigned ?_
    rintro - after ⟨proceedsAfter, isOpenAfter⟩
    exact ⟨front.trans proceedsAfter ready subset_rfl, isOpenAfter⟩

theorem finishBody_ensures (tolerant : watch.Tolerant) (ready : graph.Ready)
    (returns : function.returnType = .void ∨ ¬ graph.IsOpen) :
    Ensures watch (finishBody function) graph fun _ after => Proceeds False Set.univ graph after := by
  refine ensures_get_bind ?_
  dsimp only
  by_cases isOpen : graph.IsOpen
  · have goesOn : graph.isTerminated graph.current = false := by
      simpa [isTerminated, Graph.IsOpen] using isOpen
    have leave {operation : Operation} (isEnding : operation.opcode.isEnding = true)
        (plain : operation.args = []) (leaves : operation.payload.blocks = []) :
        Ensures watch (do
            let _ ← makeValue graph.current operation) graph fun _ after =>
          Proceeds False Set.univ graph after := by
      refine Ensures.bind (leave_ensures Set.univ tolerant ready isOpen isEnding leaves
        (by simp [plain])).ensures ?_
      exact fun _ after proceeds => ensures_pure proceeds.1
    simp only [goesOn, Bool.false_eq_true, if_false]
    split_ifs with nowhere isVoid
    · exact leave rfl rfl rfl
    · exact leave rfl rfl rfl
    · simp [returns.resolve_right (not_not.2 isOpen)] at isVoid
  · have ended : graph.isTerminated graph.current = true := by
      simpa [isTerminated, Graph.IsOpen, Option.isSome_iff_ne_none] using isOpen
    simp only [ended, if_true]
    exact ensures_pure .refl

theorem body_ensures (tolerant : watch.Tolerant) (lawful : program.Lawful) {id : FunctionId}
    {root : StmtId} (has : root.index < program.stmts.size)
    (renamed : ∀ argument ∈ function.arguments, isRenamed program argument = true)
    (within : program.Scoped {var | var ∈ function.arguments} root)
    (returns : function.returnType = .void ∨ program.Leaves root) :
    Ensures watch (body program function root) (.start id) fun _ after =>
      Proceeds False ∅ (.start id) after := by
  have ready : (Graph.start id).Ready := ready_start
  refine Ensures.bind (arguments_yields tolerant ready rfl rfl).ensures ?_
  rintro - started ⟨straight, isOpen⟩
  have received : Proceeds False Set.univ (.start id) started :=
    ⟨straight.moves.mono False.elim subset_rfl, straight.dominates, straight.closed⟩
  have available : started.Available program started.current {var | var ∈ function.arguments} := by
    refine Available.proceeds ?_ received ready (Set.subset_univ _)
    intro var isArgument inMemory
    cases (renamed var isArgument).symm.trans inMemory
  refine Ensures.bind (stmtWithin_does tolerant lawful within (Nat.lt_succ_of_lt has) started (received.ready ready)
    available) ?_
  rintro - filled ⟨acted, -, ended⟩
  have front := (received.mono (Set.empty_subset _)).trans acted ready (Set.empty_subset _)
  refine (finishBody_ensures tolerant (front.ready ready) (returns.imp_right ended)).mono ?_
  exact fun _ after finished => front.trans finished ready (Set.empty_subset _)

end Build

/-- A function with a body in its scope can be lowered, and its graph is built on from the empty one, unless
an address is taken. -/
theorem lowerUnder_ensures {watch : Watch} {program : Program} {id : FunctionId} {root : StmtId}
    (tolerant : watch.Tolerant) (lawful : program.Lawful)
    (hasBody : (program.function id).body = some root) (has : root.index < program.stmts.size)
    (renamed : ∀ argument ∈ (program.function id).arguments, Graph.isRenamed program argument = true)
    (within : program.Scoped {var | var ∈ (program.function id).arguments} root)
    (returns : (program.function id).returnType = .void ∨ program.Leaves root) :
    match lowerUnder watch program id with
    | .ok graph => Graph.Proceeds False ∅ (.start id) graph
    | .error (.reported diagnostic) => diagnostic.RefusesAddress
    | .error (.fault _) => False := by
  have ensured : Build.Ensures watch (Build.body program (program.function id) root)
      (.start id) _ := Build.body_ensures tolerant lawful has renamed within returns
  unfold Build.Ensures at ensured
  simp only [lowerUnder, hasBody]
  split at ensured <;> rename_i runs <;> simp only [runs] <;> exact ensured

end Shader
