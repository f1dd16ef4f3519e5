import Shader.Proofs.Typing.Rules

/-! # Changes that keep the typing rules

What the primitive changes of a graph do to the types of its values. -/

namespace Shader

namespace Value

theorem operation_of_nature {left right : Value} (same : left.nature = right.nature) :
    left.toOperation = { right.toOperation with args := left.args } := by
  have opcode := opcode_of_nature same
  have payload := payload_of_nature same
  have type := type_of_nature same
  obtain ⟨⟨_, _, _, _⟩, _, _, _, _⟩ := left
  simp_all

theorem replacedBy_of_core {left right : Value} (same : left.core = right.core) :
    left.replacedBy = right.replacedBy := by
  have kept := congrArg Value.replacedBy same
  exact kept

end Value

namespace Graph

variable {program : Program} {graph middle after : Graph} {block : BlockId} {operation : Operation}
  {value old new phi : ValueId} {type : TypeId}

/-! ## Changes that stay in place -/

/-- The values of a graph are in another one with the same blocks, in which the same blocks have the
same endings. -/
structure Stays (graph after : Graph) : Prop extends graph.Grows after where
  sizeBlocks : after.blocks.size = graph.blocks.size
  current : after.current = graph.current
  ending : ∀ block, (after.block block).ending = (graph.block block).ending

theorem Stays.refl : graph.Stays graph := ⟨.refl, rfl, rfl, fun _ => rfl⟩

theorem Stays.trans (first : graph.Stays middle) (second : middle.Stays after) : graph.Stays after where
  toGrows := first.toGrows.trans second.toGrows
  sizeBlocks := second.sizeBlocks.trans first.sizeBlocks
  current := second.current.trans first.current
  ending block := (second.ending block).trans (first.ending block)

theorem value_modifyValue_or (graph : Graph) (changed : ValueId) (change : Value → Value) (value : ValueId) :
    (graph.modifyValue changed change).value value = graph.value value ∨
      value = changed ∧ (graph.modifyValue changed change).value value = change (graph.value value) :=
  graph.values.get_modify_or changed change value

theorem block_modifyBlock_or (graph : Graph) (changed : BlockId) (change : Block → Block) (block : BlockId) :
    (graph.modifyBlock changed change).block block = graph.block block ∨
      block = changed ∧ (graph.modifyBlock changed change).block block = change (graph.block block) :=
  graph.blocks.get_modify_or changed change block

theorem grows_of_values (function : after.function = graph.function)
    (values : after.values = graph.values) : graph.Grows after := by
  have same (value : ValueId) : after.value value = graph.value value := by
    rw [Graph.value, Graph.value, values]
  refine ⟨function, fun value has => ?_, fun value _ => by rw [same]⟩
  rwa [HasValue, values]

theorem Typed.grows (typed : graph.Typed program) (grows : graph.Grows after)
    (accepts : ∀ value, graph.Accepts program (after.value value).toOperation)
    (bound : ∀ block var value, after.binding block var = some value →
      graph.Carries value (program.var var).type)
    (waiting : ∀ block var phi, (var, phi) ∈ (after.block block).incomplete →
      (graph.value phi).opcode = .phi ∧ (graph.value phi).type = some (program.var var).type)
    (slots : ∀ var slot, after.slot? var = some slot →
      (graph.value slot).opcode = .alloca ∧ (graph.value slot).type = some (program.var var).type)
    (replaced : ∀ value next, (after.value value).replacedBy = some next →
      (graph.value value).replacedBy = some next ∨ ∀ type, after.Carries value type → graph.Carries next type)
    (ending : ∀ block value, (after.block block).ending = some value →
      (graph.block block).ending = some value ∨ (after.value value).opcode.isEnding = true) :
    after.Typed program where
  accepts value := (accepts value).grows grows
  bound block var value found := (bound block var value found).grows grows
  waiting block var phi found := by
    obtain ⟨isPhi, isType⟩ := waiting block var phi found
    have has := hasValue_of_type isType
    exact ⟨(grows.opcode has).trans isPhi, (grows.sameType has).trans isType⟩
  slots var slot found := by
    obtain ⟨isSlot, isType⟩ := slots var slot found
    have has := hasValue_of_type isType
    exact ⟨(grows.opcode has).trans isSlot, (grows.sameType has).trans isType⟩
  replaced value next found type carries := by
    rcases replaced value next found with before | alike
    · have has : graph.HasValue value := by
        by_contra missing
        rw [value_of_not_hasValue missing] at before
        cases before
      exact (typed.replaced value next before type ((grows.carries_iff has).1 carries)).grows grows
    · exact (alike type carries).grows grows
  ending block value found := by
    rcases ending block value found with before | isEnding
    · have isEnding := typed.ending block value before
      have has : graph.HasValue value := hasValue_of_opcode fun isUndefined => by
        rw [isUndefined] at isEnding
        cases isEnding
      rwa [grows.opcode has]
    · exact isEnding

theorem Typed.of_values (typed : graph.Typed program) (function : after.function = graph.function)
    (values : after.values = graph.values) (slots : after.slots = graph.slots)
    (bound : ∀ block var value, after.binding block var = some value →
      graph.binding block var = some value ∨ graph.Carries value (program.var var).type)
    (waiting : ∀ block var phi, (var, phi) ∈ (after.block block).incomplete →
      (var, phi) ∈ (graph.block block).incomplete ∨
        (graph.value phi).opcode = .phi ∧ (graph.value phi).type = some (program.var var).type)
    (ending : ∀ block value, (after.block block).ending = some value →
      (graph.block block).ending = some value) : after.Typed program := by
  have same (value : ValueId) : after.value value = graph.value value := by
    rw [Graph.value, Graph.value, values]
  refine typed.grows (grows_of_values function values) (fun value => ?_)
    (fun block var value found => (bound block var value found).elim (typed.bound block var value) id)
    (fun block var phi found => (waiting block var phi found).elim (typed.waiting block var phi) id)
    (fun var slot found => ?_) (fun value next found => ?_) fun block value found =>
      .inl (ending block value found)
  · rw [same]
    exact typed.accepts value
  · rw [slot?, slots] at found
    exact typed.slots var slot found
  · rw [same] at found
    exact .inl found

theorem Typed.modifyBlock (typed : graph.Typed program) (block : BlockId) (change : Block → Block)
    (bound : ∀ var value, (change (graph.block block)).bindings.find? var = some value →
      graph.binding block var = some value ∨ graph.Carries value (program.var var).type)
    (waiting : ∀ var phi, (var, phi) ∈ (change (graph.block block)).incomplete →
      (var, phi) ∈ (graph.block block).incomplete ∨
        (graph.value phi).opcode = .phi ∧ (graph.value phi).type = some (program.var var).type)
    (ending : (change (graph.block block)).ending = (graph.block block).ending) :
    graph.Stays (graph.modifyBlock block change) ∧ (graph.modifyBlock block change).Typed program := by
  constructor
  · refine ⟨grows_of_values rfl rfl, ?_, rfl, fun other => ?_⟩
    · simp [Graph.modifyBlock]
    · rcases block_modifyBlock_or graph block change other with same | ⟨rfl, changed⟩
      · rw [same]
      · rw [changed, ending]
  · refine typed.of_values rfl rfl rfl ?_ ?_ ?_
    · intro other var value found
      rw [binding] at found
      rcases block_modifyBlock_or graph block change other with same | ⟨rfl, changed⟩
      · rw [same] at found
        exact .inl found
      · rw [changed] at found
        exact bound var value found
    · intro other var phi found
      rcases block_modifyBlock_or graph block change other with same | ⟨rfl, changed⟩
      · rw [same] at found
        exact .inl found
      · rw [changed] at found
        exact waiting var phi found
    · intro other value found
      rcases block_modifyBlock_or graph block change other with same | ⟨rfl, changed⟩
      · rwa [same] at found
      · rwa [changed, ending] at found

/-! ## One more value -/

/-- A graph has one more value, which may be the ending of a block. -/
structure Adds (graph : Graph) (block : BlockId) (operation : Operation) (after : Graph) : Prop where
  function : after.function = graph.function
  sizeBlocks : after.blocks.size = graph.blocks.size
  current : after.current = graph.current
  slots : after.slots = graph.slots
  hasValue : ∀ value, after.HasValue value ↔ graph.HasValue value ∨ value = graph.values.next
  new : after.value graph.values.next = { operation with block }
  core : ∀ value, value ≠ graph.values.next → (after.value value).core = (graph.value value).core
  bindings : ∀ id, (after.block id).bindings = (graph.block id).bindings
  incomplete : ∀ id, (after.block id).incomplete = (graph.block id).incomplete
  ending : ∀ id, (after.block id).ending = (graph.block id).ending ∨
    id = block ∧ operation.opcode.isEnding = true ∧ (after.block id).ending = some graph.values.next
  ended : operation.opcode.isEnding = true → graph.HasBlock block →
    (after.block block).ending = some graph.values.next
  entry : after.entry = graph.entry

namespace Adds

theorem grows (adds : graph.Adds block operation after) : graph.Grows after where
  function := adds.function
  hasValue value has := (adds.hasValue value).2 (.inl has)
  nature value has := Value.nature_of_core (adds.core value has.ne_next)

theorem stays (adds : graph.Adds block operation after) (plain : operation.opcode.isEnding = false) :
    graph.Stays after where
  toGrows := adds.grows
  sizeBlocks := adds.sizeBlocks
  current := adds.current
  ending id := by
    rcases adds.ending id with same | ⟨-, isEnding, -⟩
    · exact same
    · rw [plain] at isEnding
      cases isEnding

theorem carries (adds : graph.Adds block operation after) (isType : operation.type = some type)
    (noAddress : operation.opcode.isAddress = false) : after.Carries graph.values.next type := by
  rw [Carries, adds.new]
  exact ⟨isType, noAddress⟩

theorem typed (adds : graph.Adds block operation after) (typed : graph.Typed program)
    (accepts : graph.Accepts program operation) : after.Typed program := by
  refine typed.grows adds.grows (fun value => ?_) (fun block var value found => ?_)
    (fun block var phi found => ?_) (fun var slot found => ?_) (fun value next found => ?_)
    fun block value found => ?_
  · by_cases isNew : value = graph.values.next
    · rw [isNew, adds.new]
      exact accepts
    · have same := adds.core value isNew
      rw [Value.operation_of_nature (Value.nature_of_core same), Value.args_of_core same]
      exact typed.accepts value
  · rw [binding, adds.bindings] at found
    exact typed.bound block var value found
  · rw [adds.incomplete] at found
    exact typed.waiting block var phi found
  · rw [slot?, adds.slots] at found
    exact typed.slots var slot found
  · by_cases isNew : value = graph.values.next
    · rw [isNew, adds.new] at found
      cases found
    · rw [Value.replacedBy_of_core (adds.core value isNew)] at found
      exact .inl found
  · rcases adds.ending block with same | ⟨-, isEnding, isNew⟩
    · exact .inl (same.symm.trans found)
    · rw [isNew] at found
      cases found
      rw [adds.new]
      exact .inr isEnding

end Adds

/-! ## One more operand -/

theorem Typed.addArg (typed : graph.Typed program) (isPhi : (graph.value phi).opcode = .phi)
    (isType : (graph.value phi).type = some type) (carries : graph.Carries value type) :
    graph.Stays (graph.addArg phi value) ∧ (graph.addArg phi value).Typed program := by
  have reads := value_addArg (hasValue_of_type isType) carries.hasValue
  have grows : graph.Grows (graph.addArg phi value) := by
    refine ⟨rfl, fun value has => hasValue_addArg.2 has, fun value _ => ?_⟩
    rw [reads]
    rfl
  refine ⟨⟨grows, rfl, rfl, fun _ => rfl⟩, ?_⟩
  refine typed.grows grows (fun other => ?_) typed.bound typed.waiting typed.slots
    (fun other next found => ?_) fun _ _ found => .inl found
  · rw [reads]
    by_cases isUser : other = phi
    · subst isUser
      have before := typed.accepts other
      unfold Accepts at before ⊢
      rw [isPhi] at before
      simp only [isPhi]
      obtain ⟨known, isKnown, choices⟩ := before
      have sameType : known = type := Option.some.inj (isKnown.symm.trans isType)
      subst sameType
      refine ⟨known, isType, fun arg used => ?_⟩
      simp only [↓reduceIte, List.mem_append, List.mem_singleton] at used
      rcases used with used | rfl
      · exact choices arg used
      · exact carries
    · simp only [isUser, ↓reduceIte, List.append_nil]
      exact typed.accepts other
  · rw [reads] at found
    exact .inl found

/-! ## Giving a phi up -/

/-- The values of a graph are what they were, but for some operands. -/
structure Rewrites (change : ValueId → List ValueId → List ValueId → Prop) (graph after : Graph) :
    Prop where
  hasValue : ∀ value, after.HasValue value ↔ graph.HasValue value
  nature : ∀ value, (after.value value).nature = (graph.value value).nature
  replacedBy : ∀ value, (after.value value).replacedBy = (graph.value value).replacedBy
  args : ∀ value, change value (graph.value value).args (after.value value).args

section Rewrites

variable {change : ValueId → List ValueId → List ValueId → Prop}

theorem Rewrites.grows (rewrites : Rewrites change graph after) (function : after.function = graph.function) :
    graph.Grows after :=
  ⟨function, fun value => (rewrites.hasValue value).2, fun value _ => rewrites.nature value⟩

theorem Rewrites.refl (reflexive : ∀ value args, change value args args) : Rewrites change graph graph :=
  ⟨fun _ => Iff.rfl, fun _ => rfl, fun _ => rfl, fun _ => reflexive _ _⟩

theorem Rewrites.trans (first : Rewrites change graph middle)
    (transitive : ∀ value first second third, change value first second →
      change value second third → change value first third) (second : Rewrites change middle after) :
    Rewrites change graph after where
  hasValue value := (second.hasValue value).trans (first.hasValue value)
  nature value := (second.nature value).trans (first.nature value)
  replacedBy value := (second.replacedBy value).trans (first.replacedBy value)
  args value := transitive value _ _ _ (first.args value) (second.args value)

theorem rewrites_modifyValue (changed : ValueId) (modify : Value → Value)
    (reflexive : ∀ value args, change value args args)
    (nature : ∀ node, (modify node).nature = node.nature)
    (replacedBy : ∀ node, (modify node).replacedBy = node.replacedBy)
    (args : ∀ node, change changed node.args (modify node).args) :
    Rewrites change graph (graph.modifyValue changed modify) := by
  have reads := value_modifyValue_or graph changed modify
  refine ⟨fun value => hasValue_modifyValue, fun value => ?_, fun value => ?_, fun value => ?_⟩
  · rcases reads value with same | ⟨-, same⟩
    · rw [same]
    · rw [same, nature]
  · rcases reads value with same | ⟨-, same⟩
    · rw [same]
    · rw [same, replacedBy]
  · rcases reads value with same | ⟨rfl, same⟩
    · rw [same]
      exact reflexive _ _
    · rw [same]
      exact args _

end Rewrites

theorem rewrites_moveUses (user : ValueId) :
    Rewrites (fun _ => Exchanged old new) graph (graph.moveUses old new user) := by
  have reflexive (_ : ValueId) (args : List ValueId) : Exchanged old new args args := .refl args
  have first : Rewrites (fun _ => Exchanged old new) graph (graph.modifyValue user fun value =>
      { value with args := value.args.map (exchange old new) }) :=
    rewrites_modifyValue user _ reflexive (fun _ => rfl) (fun _ => rfl) fun node =>
      exchanged_map node.args
  exact first.trans (fun _ _ _ _ first second => first.trans second)
    (rewrites_modifyValue new _ reflexive (fun _ => rfl) (fun _ => rfl) fun node => .refl node.args)

theorem rewrites_replaceUses (old new : ValueId) :
    Rewrites (fun _ => Exchanged old new) graph (graph.replaceUses old new) := by
  have reflexive (_ : ValueId) (args : List ValueId) : Exchanged old new args args := .refl args
  have moved (users : List ValueId) (graph : Graph) : Rewrites (fun _ => Exchanged old new) graph
      (users.foldl (fun graph user => graph.moveUses old new user) graph) := by
    induction users generalizing graph with
    | nil => exact .refl reflexive
    | cons user rest ih =>
      exact (rewrites_moveUses user).trans (fun _ _ _ _ first second => first.trans second) (ih _)
  have last := (moved (graph.otherUsers old) graph).trans
    (fun _ _ _ _ first second => first.trans second)
    (rewrites_modifyValue old (fun value => { value with uses := value.uses.filter (· == old) })
      reflexive (fun _ => rfl) (fun _ => rfl) fun node => .refl node.args)
  exact ⟨last.hasValue, last.nature, last.replacedBy, last.args⟩

theorem Typed.replaceUses (typed : graph.Typed program) (isPhi : (graph.value old).opcode = .phi)
    (alike : ∀ type, graph.Carries old type → graph.Carries new type) :
    graph.Stays (graph.replaceUses old new) ∧ (graph.replaceUses old new).Typed program := by
  have rewrites := @rewrites_replaceUses graph old new
  have function : (graph.replaceUses old new).function = graph.function := by rw [replaceUses_eq]
  have slots (var : VarId) : (graph.replaceUses old new).slot? var =
      (graph.slot? var).map (exchange old new) := by
    rw [slot?, replaceUses_eq, slot?]
    exact Table.find?_mapValues _ _ _
  have blocks (block : BlockId) : (graph.replaceUses old new).block block =
      { graph.block block with
        bindings := (graph.block block).bindings.mapValues (exchange old new) } := by
    rw [replaceUses_eq]
    exact block_mapBindings _ _
  have grows := rewrites.grows function
  refine ⟨⟨grows, ?_, ?_, fun block => by rw [blocks]⟩, ?_⟩
  · rw [replaceUses_eq]
    simp [Arena.map, Arena.size]
  · rw [replaceUses_eq]
  refine typed.grows grows (fun value => ?_) (fun block var value found => ?_)
    (fun block var phi found => ?_) (fun var slot found => ?_) (fun value next found => ?_)
    fun block value found => ?_
  · rw [Value.operation_of_nature (rewrites.nature value)]
    exact (typed.accepts value).exchange isPhi alike (rewrites.args value)
  · rw [binding, blocks, Table.find?_mapValues, Option.map_eq_some_iff] at found
    obtain ⟨before, isBound, rfl⟩ := found
    have carries := typed.bound block var before isBound
    unfold exchange
    split_ifs with isOld
    · exact alike _ (isOld ▸ carries)
    · exact carries
  · rw [blocks] at found
    exact typed.waiting block var phi found
  · rw [slots, Option.map_eq_some_iff] at found
    obtain ⟨before, isSlot, rfl⟩ := found
    have memory := typed.slots var before isSlot
    -- a slot is fresh memory, and so it is not the phi
    have differs : before ≠ old := by
      rintro rfl
      rw [isPhi] at memory
      cases memory.1
    rw [exchange, if_neg differs]
    exact memory
  · exact .inl ((rewrites.replacedBy value).symm.trans found)
  · rw [blocks] at found
    exact .inl found

/-- Operands are what they were, or those of a value that was given up, which has none. -/
def Emptied (removed value : ValueId) (args changed : List ValueId) : Prop :=
  changed = args ∨ value = removed ∧ changed = []

theorem Emptied.refl (removed value : ValueId) (args : List ValueId) :
    Emptied removed value args args := .inl rfl

theorem Emptied.trans (removed value : ValueId) (first second third : List ValueId)
    (before : Emptied removed value first second) (later : Emptied removed value second third) :
    Emptied removed value first third := by
  rcases later with rfl | later
  · exact before
  · exact .inr later

theorem rewrites_removeValue (removed : ValueId) :
    Rewrites (Emptied removed) graph (graph.removeValue removed) := by
  have released (args : List ValueId) (graph : Graph) :
      Rewrites (Emptied removed) graph (graph.releaseUses removed args) := by
    induction args generalizing graph with
    | nil => exact .refl (Emptied.refl removed)
    | cons arg rest ih =>
      have first : Rewrites (Emptied removed) graph (graph.modifyValue arg fun node =>
          { node with uses := node.uses.erase removed }) :=
        rewrites_modifyValue arg _ (Emptied.refl removed) (fun _ => rfl) (fun _ => rfl) fun _ => .inl rfl
      exact first.trans (Emptied.trans removed) (ih _)
  have cleared : Rewrites (Emptied removed) graph
      (graph.modifyValue removed fun node => { node with args := [] }) :=
    rewrites_modifyValue removed _ (Emptied.refl removed) (fun _ => rfl) (fun _ => rfl)
      fun _ => .inr ⟨rfl, rfl⟩
  have last := (cleared.trans (Emptied.trans removed)
    (released (graph.value removed).args _)).trans (Emptied.trans removed)
      (rewrites_modifyValue removed (fun node => { node with uses := [], removed := true })
        (Emptied.refl removed) (fun _ => rfl) (fun _ => rfl) fun _ => .inl rfl)
  exact ⟨last.hasValue, last.nature, last.replacedBy, last.args⟩

theorem Typed.removeValue (typed : graph.Typed program) (isPhi : (graph.value phi).opcode = .phi) :
    graph.Stays (graph.removeValue phi) ∧ (graph.removeValue phi).Typed program := by
  have rewrites := @rewrites_removeValue graph phi
  -- the phi is not an ending, so endings stay
  have blocks (block : BlockId) : ∃ values, (graph.removeValue phi).block block =
      { graph.block block with values } := by
    have reads := block_modifyBlock_or graph (graph.value phi).block (fun block =>
      { block with
        values := block.values.filter (· != phi)
        ending := if block.ending = some phi then none else block.ending }) block
    have same : (graph.removeValue phi).block block = (graph.modifyBlock (graph.value phi).block fun block =>
          { block with
            values := block.values.filter (· != phi)
            ending := if block.ending = some phi then none else block.ending }).block block := by
      rw [removeValue_eq]
      rfl
    rw [same]
    rcases reads with same | ⟨-, same⟩
    · exact ⟨_, same⟩
    · rw [same, if_neg]
      · exact ⟨_, rfl⟩
      · intro isEnding
        have ending := typed.ending block phi isEnding
        rw [isPhi] at ending
        cases ending
  have function : (graph.removeValue phi).function = graph.function := by rw [removeValue_eq]
  have grows := rewrites.grows function
  refine ⟨⟨grows, ?_, ?_, fun block => ?_⟩, ?_⟩
  · rw [removeValue_eq]
    simp
  · rw [removeValue_eq]
  · obtain ⟨values, same⟩ := blocks block
    rw [same]
  refine typed.grows grows (fun value => ?_) (fun block var value found => ?_)
    (fun block var phi found => ?_) (fun var slot found => ?_) (fun value next found =>
      .inl ((rewrites.replacedBy value).symm.trans found)) fun block value found => ?_
  · rw [Value.operation_of_nature (rewrites.nature value)]
    rcases rewrites.args value with same | ⟨rfl, none⟩
    · rw [same]
      exact typed.accepts value
    · have before := typed.accepts value
      unfold Accepts at before ⊢
      rw [isPhi] at before
      obtain ⟨type, isType, -⟩ := before
      simp only [isPhi, none]
      exact ⟨type, isType, fun arg used => absurd used List.not_mem_nil⟩
  · obtain ⟨values, same⟩ := blocks block
    rw [binding, same] at found
    exact typed.bound block var value found
  · obtain ⟨values, same⟩ := blocks block
    rw [same] at found
    exact typed.waiting block var phi found
  · rw [slot?, removeValue_eq] at found
    exact typed.slots var slot found
  · obtain ⟨values, same⟩ := blocks block
    rw [same] at found
    exact .inl found

theorem Typed.noteReplaced (typed : graph.Typed program)
    (alike : ∀ type, graph.Carries old type → graph.Carries new type) :
    graph.Stays (graph.modifyValue old fun value => { value with replacedBy := some new }) ∧
      (graph.modifyValue old fun value => { value with replacedBy := some new }).Typed program := by
  have reads := value_modifyValue_or graph old fun value => { value with replacedBy := some new }
  have operation (value : ValueId) :
      ((graph.modifyValue old fun value => { value with replacedBy := some new }).value
        value).toOperation = (graph.value value).toOperation := by
    rcases reads value with same | ⟨-, same⟩ <;> rw [same]
  have grows : graph.Grows
      (graph.modifyValue old fun value => { value with replacedBy := some new }) := by
    refine ⟨rfl, fun value => hasValue_modifyValue.2, fun value _ => ?_⟩
    rcases reads value with same | ⟨-, same⟩ <;> rw [same]
    rfl
  refine ⟨⟨grows, rfl, rfl, fun _ => rfl⟩, typed.grows grows (fun value => ?_) typed.bound
    typed.waiting typed.slots (fun value next found => ?_) fun _ _ found => .inl found⟩
  · rw [operation]
    exact typed.accepts value
  · rcases reads value with same | ⟨rfl, same⟩
    · exact .inl (same ▸ found)
    · rw [same] at found
      cases found
      refine .inr fun type carries => alike type ?_
      rwa [Carries, operation] at carries

end Graph

/-! ## Making values -/

theorem Block.place_fields {block placed : Block} {isPhi : ValueId → Bool} {value : ValueId}
    {opcode : Opcode} (runs : block.place isPhi value opcode = .ok placed) :
    placed.bindings = block.bindings ∧ placed.incomplete = block.incomplete ∧
      placed.ending = if opcode.isEnding then some value else block.ending := by
  unfold Block.place at runs
  split_ifs at runs with isPhi isEnding ended
  · cases runs
    rw [isPhi]
    exact ⟨rfl, rfl, rfl⟩
  · cases runs
    exact ⟨rfl, rfl, by rw [if_pos isEnding]⟩
  · split at runs <;>
    · cases runs
      exact ⟨rfl, rfl, by rw [if_neg isEnding]⟩

namespace Graph

variable {graph : Graph} {block : BlockId} {operation : Operation}

theorem adds_place {isPhi : ValueId → Bool} {placed : Block}
    (has : ∀ arg ∈ operation.args, graph.HasValue arg)
    (fits : ((graph.allocate block operation).2.block block).place isPhi graph.values.next
      operation.opcode = .ok placed) :
    graph.Adds block operation ((graph.allocate block operation).2.modifyBlock block fun _ => placed) := by
  have reads := value_allocate block operation has
  rw [allocate_eq] at fits
  obtain ⟨bindings, incomplete, ending⟩ := Block.place_fields fits
  have blocks := block_modifyBlock_or graph block fun _ => placed
  have sameBlock (id : BlockId) :
      ((graph.allocate block operation).2.modifyBlock block fun _ => placed).block id =
        (graph.modifyBlock block fun _ => placed).block id := by
    rw [allocate_eq]
    rfl
  constructor
  · rw [allocate_eq]
    rfl
  · rw [allocate_eq]
    simp [Graph.modifyBlock]
  · rw [allocate_eq]
    rfl
  · rw [allocate_eq]
    rfl
  · exact fun value => hasValue_allocate block operation value
  · exact (reads _).trans (if_pos rfl)
  · intro value differs
    refine (congrArg Value.core ((reads value).trans (if_neg differs))).trans rfl
  · intro id
    rw [sameBlock]
    rcases blocks id with same | ⟨rfl, same⟩ <;> rw [same]
    exact bindings
  · intro id
    rw [sameBlock]
    rcases blocks id with same | ⟨rfl, same⟩ <;> rw [same]
    exact incomplete
  · intro id
    rw [sameBlock]
    rcases blocks id with same | ⟨rfl, same⟩ <;> rw [same]
    · exact .inl rfl
    · by_cases isEnding : operation.opcode.isEnding = true
      · rw [if_pos isEnding] at ending
        exact .inr ⟨rfl, isEnding, ending⟩
      · rw [if_neg isEnding] at ending
        exact .inl ending
  · intro isEnding hasBlock
    rw [sameBlock, block_modifyBlock hasBlock, if_pos rfl, ending, if_pos isEnding]
  · rw [allocate_eq]
    rfl

end Graph

end Shader
