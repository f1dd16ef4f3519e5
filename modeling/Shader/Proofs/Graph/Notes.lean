import Shader.Proofs.Graph.Sound

/-! # Changes of what blocks have noted

Most changes leave the values, their places and the edges between blocks alone, and only change what
blocks have noted: the values of variables, the phis that wait, whether all predecessors are known. -/

namespace Shader

namespace Graph

variable {graph after : Graph} {pending : Set ValueId} {sealing : Set BlockId}

structure Keeps (graph after : Graph) : Prop where
  values : after.values = graph.values
  entry : after.entry = graph.entry
  idle : after.isEditing = graph.isEditing
  hasBlock : ∀ block, graph.HasBlock block → after.HasBlock block
  places : ∀ block, (after.block block).values = (graph.block block).values
  ending : ∀ block, (after.block block).ending = (graph.block block).ending

/-- Values, their places and the edges between blocks stay what they are. -/
structure Retains (graph after : Graph) : Prop extends Keeps graph after where
  preds : ∀ block, (after.block block).preds = (graph.block block).preds
  succs : ∀ block, (after.block block).succs = (graph.block block).succs

theorem Sound.slot (sound : graph.Sound pending sealing) (var : VarId) (value : ValueId)
    (found : graph.slots.find? var = some value) :
    graph.IsLive value ∧ (graph.value value).opcode = .alloca :=
  ⟨sound.consistent.slots var value found, sound.laidOut.slot var value found⟩

theorem Sound.bound (sound : graph.Sound pending sealing) (block : BlockId) (var : VarId)
    (value : ValueId) (found : graph.binding block var = some value) :
    graph.IsLive value ∧ graph.Dominates (graph.value value).block block :=
  ⟨sound.consistent.bound block var value found, sound.strict.bound block var value found⟩

theorem binding_congr (bindings : ∀ block, (after.block block).bindings = (graph.block block).bindings)
    (block : BlockId) (var : VarId) : after.binding block var = graph.binding block var :=
  congrArg (Table.find? · var) (bindings block)

namespace Keeps

variable (keeps : Keeps graph after)

include keeps

theorem value (id : ValueId) : after.value id = graph.value id := by
  rw [Graph.value, Graph.value, keeps.values]

theorem hasValue (id : ValueId) : after.HasValue id ↔ graph.HasValue id := by
  rw [HasValue, HasValue, keeps.values]

theorem isLive (id : ValueId) : after.IsLive id ↔ graph.IsLive id := by
  rw [IsLive, IsLive, keeps.hasValue, keeps.value]

theorem isPhi : after.isPhi = graph.isPhi := by
  funext id
  rw [Graph.isPhi, Graph.isPhi, keeps.value]

theorem isPlain : after.isPlain = graph.isPlain := by
  funext id
  rw [Graph.isPlain, Graph.isPlain, keeps.isPhi, keeps.value]

theorem phisOf (block : BlockId) : after.phisOf block = graph.phisOf block := by
  rw [Graph.phisOf, Graph.phisOf, keeps.places, keeps.isPhi]

theorem bodyOf (block : BlockId) : after.bodyOf block = graph.bodyOf block := by
  rw [Graph.bodyOf, Graph.bodyOf, keeps.places, keeps.isPlain]

theorem targetsOf (block : BlockId) : after.targetsOf block = graph.targetsOf block := by
  simp only [Graph.targetsOf, keeps.ending, keeps.value]

theorem removedCount : after.removedCount = graph.removedCount := by
  simp only [Graph.removedCount, keeps.values, keeps.value]

theorem resolveWithin (steps : Nat) (id : ValueId) :
    after.resolveWithin steps id = graph.resolveWithin steps id := by
  induction steps generalizing id with
  | zero => rfl
  | succ steps ih =>
    simp only [Graph.resolveWithin, keeps.value, ih]

theorem consistent (before : graph.Consistent)
    (bound : ∀ block var value, after.binding block var = some value → graph.IsLive value)
    (slots : ∀ var value, after.slots.find? var = some value → graph.IsLive value)
    (waiting : ∀ block var value, (var, value) ∈ (after.block block).incomplete →
      graph.IsLive value) : after.Consistent where
  edges user value := by
    rw [keeps.value, keeps.value]
    exact before.edges user value
  removed_args value removed := by
    rw [keeps.value] at removed ⊢
    exact before.removed_args value removed
  removed_uses value removed := by
    rw [keeps.value] at removed ⊢
    exact before.removed_uses value removed
  placed value block live := by
    rw [keeps.places, keeps.value]
    exact before.placed value block ((keeps.isLive value).1 live)
  listed block value found := by
    rw [keeps.places] at found
    exact (keeps.isLive value).2 (before.listed block value found)
  bound block var value found := (keeps.isLive value).2 (bound block var value found)
  slots var value found := (keeps.isLive value).2 (slots var value found)
  waiting block var value found := (keeps.isLive value).2 (waiting block var value found)

theorem replaces (before : graph.Replaces) : after.Replaces where
  kept value live := by
    rw [keeps.value]
    exact before.kept value ((keeps.isLive value).1 live)
  survivor value has := by
    obtain ⟨steps, few, live⟩ := before.survivor value ((keeps.hasValue value).1 has)
    refine ⟨steps, ?_, ?_⟩
    · rwa [keeps.removedCount]
    · rwa [keeps.resolveWithin, keeps.isLive]

theorem laidOut (before : graph.LaidOut) (slot : ∀ var value, after.slots.find? var = some value →
      (graph.value value).opcode = .alloca) : after.LaidOut where
  parts block := by
    rw [keeps.places, keeps.phisOf, keeps.bodyOf, keeps.ending]
    exact before.parts block
  ending block value found := by
    rw [keeps.ending] at found
    rw [keeps.value]
    exact before.ending block value found
  slot var value found := by
    rw [keeps.value]
    exact slot var value found

end Keeps

namespace Retains

variable (retains : Retains graph after)

include retains

theorem reaches (block : BlockId) : after.Reaches block ↔ graph.Reaches block :=
  reaches_congr retains.entry retains.preds

theorem dominates (other block : BlockId) : after.Dominates other block ↔ graph.Dominates other block :=
  dominates_congr retains.entry retains.preds

theorem flows (before : graph.Flows) (hasCurrent : after.HasBlock after.current)
    (entrySealed : (after.block graph.entry).isSealed = true) (ranks : ∃ rank, after.Ranks rank) :
    after.Flows where
  hasEntry := retains.entry ▸ retains.hasBlock _ before.hasEntry
  hasCurrent := hasCurrent
  entry_sealed := retains.entry ▸ entrySealed
  entry_preds := by
    rw [retains.entry, retains.preds]
    exact before.entry_preds
  edges source target := by
    rw [retains.succs, retains.preds]
    exact before.edges source target
  preds_nodup block := by
    rw [retains.preds]
    exact before.preds_nodup block
  succs_nodup block := by
    rw [retains.succs]
    exact before.succs_nodup block
  succs block := by
    rw [retains.succs, retains.targetsOf]
    exact before.succs block
  ranks := ranks

theorem strict (before : graph.Strict) (bound : ∀ block var value, after.binding block var = some value →
      graph.Dominates (graph.value value).block block) : after.Strict where
  operand user arg plain used := by
    rw [retains.value] at plain used
    simp only [retains.value, retains.dominates, retains.reaches, retains.places]
    exact before.operand user arg plain used
  choice phi isPhi position arg pred found source := by
    rw [retains.value] at isPhi found source
    rw [retains.preds] at source
    rw [retains.dominates, retains.value]
    exact before.choice phi isPhi position arg pred found source
  bound block var value found := by
    rw [retains.dominates, retains.value]
    exact bound block var value found

theorem fills (before : graph.Fills pending sealing)
    (incomplete : ∀ block, (after.block block).incomplete = (graph.block block).incomplete)
    (isSealed : ∀ block, (after.block block).isSealed = (graph.block block).isSealed)
    (bound : ∀ block var, (graph.binding block var).isSome = true →
      (after.binding block var).isSome = true) : after.Fills pending sealing where
  arity phi live isPhi := by
    rw [retains.value] at isPhi
    have known := before.arity phi ((retains.isLive phi).1 live) isPhi
    simpa only [Waits, IsFilled, retains.value, incomplete, isSealed, retains.preds] using known
  waits block var phi found := by
    rw [incomplete] at found
    obtain ⟨isPhi, home, args, unsealed, noted, named⟩ := before.waits block var phi found
    rw [retains.value, isSealed]
    exact ⟨isPhi, home, args, unsealed, bound block var noted, named⟩
  waits_nodup block := by
    rw [incomplete]
    exact before.waits_nodup block
  pending phi found := by
    obtain ⟨live, isPhi, free⟩ := before.pending phi found
    rw [retains.isLive, retains.value]
    refine ⟨live, isPhi, ?_⟩
    simpa only [Waits, retains.value, incomplete] using free
  notEntry phi live isPhi := by
    rw [retains.value] at isPhi ⊢
    rw [retains.entry]
    exact before.notEntry phi ((retains.isLive phi).1 live) isPhi

theorem flows_of_isSealed (before : graph.Flows) (hasCurrent : after.HasBlock after.current)
    (count : after.sealedCount = graph.sealedCount)
    (isSealed : ∀ block, (after.block block).isSealed = (graph.block block).isSealed) :
    after.Flows := by
  obtain ⟨rank, ranks⟩ := before.ranks
  refine retains.flows before hasCurrent ((isSealed _).trans before.entry_sealed)
    ⟨rank, fun block => count ▸ ranks.le block, fun block pred closed only => ?_⟩
  rw [isSealed] at closed
  rw [retains.preds] at only
  exact ranks.lt block pred closed only

/-- A change keeps a graph sound if variables are bound to values that are there, phis that wait are
live, and the blocks and phis that are open are told. -/
theorem sound_of_fills {waiting : Set ValueId} {closing : Set BlockId}
    (before : graph.Sound pending sealing)
    (bound : ∀ block var value, after.binding block var = some value →
      graph.IsLive value ∧ graph.Dominates (graph.value value).block block)
    (slots : ∀ var value, after.slots.find? var = some value →
      graph.IsLive value ∧ (graph.value value).opcode = .alloca)
    (waits : ∀ block var value, (var, value) ∈ (after.block block).incomplete → graph.IsLive value)
    (flows : after.Flows) (fills : after.Fills waiting closing) : after.Sound waiting closing where
  idle := retains.idle.trans before.idle
  consistent := retains.consistent before.consistent (fun block var value found =>
    (bound block var value found).1) (fun var value found => (slots var value found).1) waits
  replaces := retains.replaces before.replaces
  laidOut := retains.laidOut before.laidOut fun var value found => (slots var value found).2
  flows := flows
  fills := fills
  strict := retains.strict before.strict fun block var value found => (bound block var value found).2

/-- A change that neither lets phis start or stop to wait nor seals a block keeps a graph sound, if the
variables have what they had. -/
theorem sound (before : graph.Sound pending sealing)
    (count : after.sealedCount = graph.sealedCount)
    (kept : ∀ block, (after.block block).incomplete = (graph.block block).incomplete ∧
      (after.block block).isSealed = (graph.block block).isSealed ∧
      (after.block block).bindings = (graph.block block).bindings)
    (slots : ∀ var value, after.slots.find? var = some value →
      graph.IsLive value ∧ (graph.value value).opcode = .alloca)
    (hasCurrent : after.HasBlock after.current) : after.Sound pending sealing := by
  have binding (block : BlockId) (var : VarId) : after.binding block var = graph.binding block var :=
    binding_congr (fun block => (kept block).2.2) block var
  refine retains.sound_of_fills before (fun block var value found =>
    before.bound block var value (binding block var ▸ found)) slots (fun block var value found =>
      before.consistent.waiting block var value ((kept block).1 ▸ found))
    (retains.flows_of_isSealed before.flows hasCurrent count fun block => (kept block).2.1)
    (retains.fills before.fills (fun block => (kept block).1) (fun block => (kept block).2.1)
      fun block var noted => ?_)
  rwa [binding]

end Retains

theorem retains_modifyBlock {change : Block → Block} {block : BlockId}
    (same : ∀ node, (change node).values = node.values ∧ (change node).ending = node.ending ∧
      (change node).preds = node.preds ∧ (change node).succs = node.succs) :
    Retains graph (graph.modifyBlock block change) where
  values := rfl
  entry := rfl
  idle := rfl
  hasBlock _ := hasBlock_modifyBlock.2
  places other := field_modifyBlock Block.values block other fun node => (same node).1
  ending other := field_modifyBlock Block.ending block other fun node => (same node).2.1
  preds other := field_modifyBlock Block.preds block other fun node => (same node).2.2.1
  succs other := field_modifyBlock Block.succs block other fun node => (same node).2.2.2

theorem retains_beside (values : after.values = graph.values) (blocks : after.blocks = graph.blocks)
    (entry : after.entry = graph.entry) (idle : after.isEditing = graph.isEditing) :
    Retains graph after := by
  have same (block : BlockId) : after.block block = graph.block block := by
    rw [Graph.block, Graph.block, blocks]
  exact ⟨⟨values, entry, idle, fun block => by simp [HasBlock, blocks], fun block => by rw [same],
    fun block => by rw [same]⟩, fun block => by rw [same], fun block => by rw [same]⟩

theorem sealedCount_congr (size : after.blocks.size = graph.blocks.size)
    (isSealed : ∀ block, (after.block block).isSealed = (graph.block block).isSealed) :
    after.sealedCount = graph.sealedCount := by
  simp only [sealedCount, size, isSealed]

theorem sealedCount_modifyBlock {change : Block → Block} {block : BlockId}
    (isSealed : ∀ node, (change node).isSealed = node.isSealed) :
    (graph.modifyBlock block change).sealedCount = graph.sealedCount :=
  sealedCount_congr (by simp [modifyBlock]) fun other => field_modifyBlock _ block other isSealed

/-! ## Variables -/

def bind (graph : Graph) (block : BlockId) (var : VarId) (value : ValueId) : Graph :=
  graph.modifyBlock block fun node => { node with bindings := node.bindings.insert var value }

section Bind

variable {block : BlockId} {var : VarId} {bound : ValueId}

theorem retains_bind : Retains graph (graph.bind block var bound) :=
  retains_modifyBlock fun _ => ⟨rfl, rfl, rfl, rfl⟩

theorem binding_bind (has : graph.HasBlock block) (other : BlockId) (name : VarId) :
    (graph.bind block var bound).binding other name =
      if other = block ∧ name = var then some bound else graph.binding other name := by
  rw [binding, bind, block_modifyBlock has]
  by_cases home : other = block
  · by_cases same : name = var
    · simp [home, same]
    · simp [home, same, binding, Table.find?_insert_of_ne _ _ same]
  · simp [home, binding]

theorem incomplete_bind (other : BlockId) :
    ((graph.bind block var bound).block other).incomplete = (graph.block other).incomplete :=
  field_modifyBlock Block.incomplete block other fun _ => rfl

theorem isSealed_bind (other : BlockId) :
    ((graph.bind block var bound).block other).isSealed = (graph.block other).isSealed :=
  field_modifyBlock Block.isSealed block other fun _ => rfl

theorem Sound.bind (sound : graph.Sound pending sealing) (has : graph.HasBlock block)
    (live : graph.IsLive bound) (dominates : graph.Dominates (graph.value bound).block block) :
    (graph.bind block var bound).Sound pending sealing := by
  refine retains_bind.sound_of_fills sound (fun other name value found => ?_) sound.slot
    (fun other name value found =>
      sound.consistent.waiting other name value (incomplete_bind other ▸ found))
    (retains_bind.flows_of_isSealed sound.flows (hasBlock_modifyBlock.2 sound.flows.hasCurrent)
      (sealedCount_modifyBlock fun _ => rfl) isSealed_bind)
    (retains_bind.fills sound.fills incomplete_bind isSealed_bind fun other name noted => ?_)
  · rw [binding_bind has] at found
    split_ifs at found with here
    · rw [here.1, ← Option.some.inj found]
      exact ⟨live, dominates⟩
    · exact sound.bound other name value found
  · rw [binding_bind has]
    split_ifs
    · rfl
    · exact noted

end Bind

theorem Sound.setSlot {var : VarId} {slot : ValueId} (sound : graph.Sound pending sealing)
    (live : graph.IsLive slot) (fresh : (graph.value slot).opcode = .alloca) :
    ({ graph with slots := graph.slots.insert var slot } : Graph).Sound pending sealing := by
  have retains : Retains graph { graph with slots := graph.slots.insert var slot } :=
    retains_beside rfl rfl rfl rfl
  refine retains.sound sound rfl (fun _ => ⟨rfl, rfl, rfl⟩) (fun name value found => ?_)
    sound.flows.hasCurrent
  have looked : (graph.slots.insert var slot).find? name = some value := found
  by_cases same : name = var
  · rw [same, Table.find?_insert_self] at looked
    exact Option.some.inj looked ▸ ⟨live, fresh⟩
  · rw [Table.find?_insert_of_ne _ _ same] at looked
    exact sound.slot name value looked

/-! ## Blocks -/

theorem Sound.setCurrent {block : BlockId} (sound : graph.Sound pending sealing)
    (has : graph.HasBlock block) :
    ({ graph with current := block } : Graph).Sound pending sealing :=
  Retains.sound (@retains_beside graph _ rfl rfl rfl rfl) sound rfl (fun _ => ⟨rfl, rfl, rfl⟩) sound.slot has

theorem Sound.setConstruct {construct : Nat} (sound : graph.Sound pending sealing) :
    ({ graph with construct := construct } : Graph).Sound pending sealing :=
  Retains.sound (@retains_beside graph _ rfl rfl rfl rfl) sound rfl (fun _ => ⟨rfl, rfl, rfl⟩)
    sound.slot sound.flows.hasCurrent

theorem Sound.setMerge {block : BlockId} {merge : Merge} (sound : graph.Sound pending sealing) :
    (graph.modifyBlock block fun node => { node with merge := some merge }).Sound pending sealing :=
  Retains.sound (retains_modifyBlock fun _ => ⟨rfl, rfl, rfl, rfl⟩) sound
    (sealedCount_modifyBlock fun _ => rfl) (fun other =>
      ⟨field_modifyBlock Block.incomplete block other fun _ => rfl,
        field_modifyBlock Block.isSealed block other fun _ => rfl,
        field_modifyBlock Block.bindings block other fun _ => rfl⟩)
    sound.slot (hasBlock_modifyBlock.2 sound.flows.hasCurrent)

theorem block_append (node : Block) (other : BlockId) :
    ({ graph with blocks := graph.blocks.append node } : Graph).block other =
      if other = graph.blocks.next then node else graph.block other :=
  graph.blocks.get_append node other

theorem hasBlock_append {node : Block} {other : BlockId} :
    ({ graph with blocks := graph.blocks.append node } : Graph).HasBlock other ↔
      graph.HasBlock other ∨ other = graph.blocks.next :=
  Arena.lt_size_append

theorem not_hasBlock_next : ¬ graph.HasBlock graph.blocks.next := Nat.lt_irrefl _

theorem block_append_named (name : String) {α : Type} (field : Block → α)
    (same : field { name } = field default) (other : BlockId) :
    field (({ graph with blocks := graph.blocks.append { name } } : Graph).block other) =
      field (graph.block other) := by
  rw [block_append]
  split_ifs with isNew
  · rw [isNew, same, block_of_not_hasBlock not_hasBlock_next]
  · rfl

theorem retains_newBlock (name : String) :
    Retains graph { graph with blocks := graph.blocks.append { name } } :=
  ⟨⟨rfl, rfl, rfl, fun _ has => hasBlock_append.2 (.inl has),
    block_append_named name Block.values rfl, block_append_named name Block.ending rfl⟩,
    block_append_named name Block.preds rfl, block_append_named name Block.succs rfl⟩

theorem Sound.newBlock (sound : graph.Sound pending sealing) (name : String) :
    ({ graph with blocks := graph.blocks.append { name } } : Graph).Sound pending sealing := by
  have isSealed := @block_append_named graph name _ Block.isSealed rfl
  refine (retains_newBlock name).sound sound ?_ (fun other =>
    ⟨block_append_named name Block.incomplete rfl other, isSealed other,
      block_append_named name Block.bindings rfl other⟩) sound.slot
    (hasBlock_append.2 (.inl sound.flows.hasCurrent))
  have unsealed : (graph.block ⟨graph.blocks.size⟩).isSealed = false :=
    congrArg Block.isSealed (block_of_not_hasBlock not_hasBlock_next)
  simp only [sealedCount, Arena.size_append, isSealed]
  rw [Finset.range_add_one, Finset.filter_insert, unsealed, if_neg Bool.false_ne_true]

/-! ## Phis that wait -/

section Waiting

variable {block : BlockId} {var : VarId} {phi : ValueId}

/-- The graph in which a phi of a block waits to be filled, and is what a variable is bound to. -/
def defer (graph : Graph) (block : BlockId) (var : VarId) (phi : ValueId) : Graph :=
  (graph.modifyBlock block fun node =>
    { node with incomplete := node.incomplete ++ [(var, phi)] }).bind block var phi

def release (graph : Graph) (block : BlockId) : Graph :=
  graph.modifyBlock block fun node => { node with incomplete := [] }

def close (graph : Graph) (block : BlockId) : Graph :=
  graph.modifyBlock block fun node => { node with isSealed := true }

theorem block_defer (has : graph.HasBlock block) (other : BlockId) : (graph.defer block var phi).block other =
      if other = block then
        { graph.block other with
          bindings := (graph.block other).bindings.insert var phi
          incomplete := (graph.block other).incomplete ++ [(var, phi)] }
      else graph.block other := by
  rw [defer, bind, block_modifyBlock (hasBlock_modifyBlock.2 has), block_modifyBlock has]
  split_ifs <;> rfl

theorem field_defer {α : Type} (field : Block → α) (other : BlockId)
    (same : ∀ (node : Block) bindings incomplete,
      field { node with bindings, incomplete } = field node) :
    field ((graph.defer block var phi).block other) = field (graph.block other) :=
  (field_modifyBlock field block other fun _ => same _ _ _).trans
    (field_modifyBlock field block other fun _ => same _ _ _)

theorem retains_defer : Retains graph (graph.defer block var phi) where
  values := rfl
  entry := rfl
  idle := rfl
  hasBlock _ has := hasBlock_modifyBlock.2 (hasBlock_modifyBlock.2 has)
  places other := field_defer Block.values other fun _ _ _ => rfl
  ending other := field_defer Block.ending other fun _ _ _ => rfl
  preds other := field_defer Block.preds other fun _ _ _ => rfl
  succs other := field_defer Block.succs other fun _ _ _ => rfl

theorem isSealed_defer (other : BlockId) :
    ((graph.defer block var phi).block other).isSealed = (graph.block other).isSealed :=
  field_defer Block.isSealed other fun _ _ _ => rfl

theorem binding_defer (has : graph.HasBlock block) (other : BlockId) (name : VarId) :
    (graph.defer block var phi).binding other name =
      if other = block ∧ name = var then some phi else graph.binding other name := by
  rw [defer, binding_bind (hasBlock_modifyBlock.2 has)]
  exact if_congr Iff.rfl rfl (binding_congr (field_modifyBlock Block.bindings block) other name)

theorem mem_incomplete_defer (has : graph.HasBlock block) {other : BlockId} {name : VarId}
    {value : ValueId} :
    (name, value) ∈ ((graph.defer block var phi).block other).incomplete ↔
      (name, value) ∈ (graph.block other).incomplete ∨ other = block ∧ name = var ∧ value = phi := by
  rw [block_defer has]
  split_ifs with home <;> simp [home]

theorem Sound.defer (sound : graph.Sound (pending ∪ {phi}) sealing) (fresh : phi ∉ pending)
    (home : (graph.value phi).block = block) (empty : (graph.value phi).args = [])
    (named : (graph.value phi).payload = .var var)
    (unsealed : (graph.block block).isSealed = false) :
    (graph.defer block var phi).Sound pending sealing := by
  obtain ⟨live, isPhi, free⟩ := sound.fills.pending phi (.inr rfl)
  have has : graph.HasBlock block := home ▸ sound.consistent.hasBlock live
  have retains : Retains graph (graph.defer block var phi) := retains_defer
  refine retains.sound_of_fills sound (fun other name value found => ?_) sound.slot
    (fun other name value found => ?_) ?_ ?_
  · rw [binding_defer has] at found
    split_ifs at found with here
    · rw [here.1, ← Option.some.inj found, home]
      exact ⟨live, dominates_self⟩
    · exact sound.bound other name value found
  · rcases (mem_incomplete_defer has).1 found with found | ⟨-, -, rfl⟩
    · exact sound.consistent.waiting other name value found
    · exact live
  · exact retains.flows_of_isSealed sound.flows (retains.hasBlock _ sound.flows.hasCurrent)
      (sealedCount_congr (by simp [Graph.defer, Graph.bind, modifyBlock]) isSealed_defer)
      isSealed_defer
  · refine ⟨fun other otherLive otherPhi => ?_, fun other name value found => ?_, fun other => ?_,
      fun other found => ?_, fun other otherLive otherPhi => ?_⟩
    · rw [retains.value] at otherPhi
      simp only [Waits, IsFilled, retains.value, isSealed_defer, retains.preds]
      rcases sound.fills.arity other ((retains.isLive other).1 otherLive) otherPhi with
        found | ⟨name, found⟩ | filled
      · rcases found with found | rfl
        · exact .inl found
        · exact .inr (.inl ⟨var, (mem_incomplete_defer has).2 (.inr ⟨home, rfl, rfl⟩)⟩)
      · exact .inr (.inl ⟨name, (mem_incomplete_defer has).2 (.inl found)⟩)
      · exact .inr (.inr filled)
    · rw [retains.value, isSealed_defer, binding_defer has]
      rcases (mem_incomplete_defer has).1 found with found | ⟨rfl, rfl, rfl⟩
      · obtain ⟨isPhi, home, args, unsealed, noted, named⟩ := sound.fills.waits other name value found
        refine ⟨isPhi, home, args, unsealed, ?_, named⟩
        split_ifs
        · rfl
        · exact noted
      · exact ⟨isPhi, home, empty, unsealed, by simp, named⟩
    · rw [block_defer has]
      split_ifs with isHome
      · subst isHome
        rw [List.map_append, List.nodup_append]
        refine ⟨sound.fills.waits_nodup other, List.nodup_singleton _, ?_⟩
        rintro waiting found last isLast rfl
        obtain ⟨⟨name, value⟩, noted, rfl⟩ := List.mem_map.1 found
        simp only [List.map_cons, List.map_nil, List.mem_singleton] at isLast
        exact free ⟨name, by rw [home, ← isLast]; exact noted⟩
      · exact sound.fills.waits_nodup other
    · obtain ⟨otherLive, otherPhi, otherFree⟩ := sound.fills.pending other (.inl found)
      rw [retains.isLive, retains.value]
      refine ⟨otherLive, otherPhi, ?_⟩
      rintro ⟨name, waits⟩
      rcases (mem_incomplete_defer has).1 waits with waits | ⟨-, -, rfl⟩
      · rw [retains.value] at waits
        exact otherFree ⟨name, waits⟩
      · exact fresh found
    · rw [retains.value] at otherPhi ⊢
      exact sound.fills.notEntry other ((retains.isLive other).1 otherLive) otherPhi

theorem block_release (has : graph.HasBlock block) (other : BlockId) : (graph.release block).block other =
      if other = block then { graph.block other with incomplete := [] } else graph.block other :=
  block_modifyBlock has _ _

theorem Sound.release (sound : graph.Sound pending sealing) (has : graph.HasBlock block) :
    (graph.release block).Sound
      (pending ∪ {phi | ∃ var, (var, phi) ∈ (graph.block block).incomplete})
      (sealing ∪ {block}) := by
  have retains : Retains graph (graph.release block) :=
    retains_modifyBlock fun _ => ⟨rfl, rfl, rfl, rfl⟩
  have isSealed (other : BlockId) :
      ((graph.release block).block other).isSealed = (graph.block other).isSealed :=
    field_modifyBlock Block.isSealed block other fun _ => rfl
  have binding (other : BlockId) (name : VarId) :
      (graph.release block).binding other name = graph.binding other name :=
    binding_congr (field_modifyBlock Block.bindings block) other name
  have waits {other : BlockId} {name : VarId} {value : ValueId} :
      (name, value) ∈ ((graph.release block).block other).incomplete ↔
        (name, value) ∈ (graph.block other).incomplete ∧ other ≠ block := by
    rw [block_release has]
    split_ifs with home <;> simp [home]
  refine retains.sound_of_fills sound (fun other name value found =>
    sound.bound other name value (binding other name ▸ found)) sound.slot
    (fun other name value found => sound.consistent.waiting other name value (waits.1 found).1) ?_ ?_
  · exact retains.flows_of_isSealed sound.flows (retains.hasBlock _ sound.flows.hasCurrent)
      (sealedCount_modifyBlock fun _ => rfl) isSealed
  · refine ⟨fun phi live isPhi => ?_, fun other name phi found => ?_, fun other => ?_,
      fun phi found => ?_, fun phi live isPhi => ?_⟩
    · rw [retains.value] at isPhi
      simp only [Waits, IsFilled, retains.value, isSealed, retains.preds]
      rcases sound.fills.arity phi ((retains.isLive phi).1 live) isPhi with
        found | ⟨name, found⟩ | ⟨filled, closed⟩
      · exact .inl (.inl found)
      · by_cases home : (graph.value phi).block = block
        · exact .inl (.inr ⟨name, home ▸ found⟩)
        · exact .inr (.inl ⟨name, waits.2 ⟨found, home⟩⟩)
      · exact .inr (.inr ⟨filled, closed.imp_right .inl⟩)
    · obtain ⟨found, -⟩ := waits.1 found
      rw [retains.value, isSealed, binding]
      exact sound.fills.waits other name phi found
    · rw [block_release has]
      split_ifs
      · exact List.nodup_nil
      · exact sound.fills.waits_nodup other
    · rw [retains.isLive, retains.value]
      simp only [Waits, retains.value, waits]
      rcases found with found | ⟨name, found⟩
      · obtain ⟨live, isPhi, free⟩ := sound.fills.pending phi found
        exact ⟨live, isPhi, fun ⟨name, found, _⟩ => free ⟨name, found⟩⟩
      · obtain ⟨isPhi, home, -⟩ := sound.fills.waits block name phi found
        exact ⟨sound.consistent.waiting block name phi found, isPhi, fun ⟨_, _, away⟩ => away home⟩
    · rw [retains.value] at isPhi ⊢
      exact sound.fills.notEntry phi ((retains.isLive phi).1 live) isPhi

theorem block_close (has : graph.HasBlock block) (other : BlockId) : (graph.close block).block other =
      if other = block then { graph.block other with isSealed := true } else graph.block other :=
  block_modifyBlock has _ _

theorem sealedCount_close (has : graph.HasBlock block)
    (unsealed : (graph.block block).isSealed = false) :
    (graph.close block).sealedCount = graph.sealedCount + 1 := by
  have split : (Finset.range (graph.close block).blocks.size).filter
      (fun index => ((graph.close block).block ⟨index⟩).isSealed = true) =
      Insert.insert block.index ((Finset.range graph.blocks.size).filter fun index =>
        (graph.block ⟨index⟩).isSealed = true) := by
    ext index
    have size : (graph.close block).blocks.size = graph.blocks.size := by simp [close, modifyBlock]
    simp only [Finset.mem_filter, Finset.mem_range, Finset.mem_insert, block_close has, size]
    by_cases isBlock : index = block.index
    · subst isBlock
      have inside : block.index < graph.blocks.size := has
      simp [inside]
    · have differs : (⟨index⟩ : BlockId) ≠ block := fun same => isBlock (congrArg Handle.index same)
      simp [isBlock, differs]
  rw [sealedCount, split, Finset.card_insert_of_notMem, sealedCount]
  have isOpen : (graph.block ⟨block.index⟩).isSealed = false := unsealed
  simp [isOpen]

/-- A block that is sealed when nothing comes behind it, or with several predecessors, leaves ways of
counting down. -/
theorem exists_ranks_close (ranks : ∃ rank, graph.Ranks rank) (has : graph.HasBlock block)
    (unsealed : (graph.block block).isSealed = false)
    (last : ∀ pred, (graph.block block).preds = [pred] →
      ∀ other, block ∉ (graph.block other).preds) : ∃ rank, (graph.close block).Ranks rank := by
  obtain ⟨rank, ranks⟩ := ranks
  have preds (other : BlockId) : ((graph.close block).block other).preds = (graph.block other).preds :=
    field_modifyBlock Block.preds block other fun _ => rfl
  by_cases single : ∃ pred, (graph.block block).preds = [pred]
  · obtain ⟨pred, only⟩ := single
    refine ⟨fun other => if other = block then graph.sealedCount + 1 else rank other,
      fun other => ?_, fun other source closed isOnly => ?_⟩
    · rw [sealedCount_close has unsealed]
      have := ranks.le other
      split_ifs <;> omega
    · rw [preds] at isOnly
      have away : source ≠ block := by
        rintro rfl
        exact last pred only other (by rw [isOnly]; exact List.mem_singleton_self _)
      rw [if_neg away]
      split_ifs with isBlock
      · have := ranks.le source
        omega
      · rw [block_close has, if_neg isBlock] at closed
        exact ranks.lt other source closed isOnly
  · refine ⟨rank, fun other => ?_, fun other source closed isOnly => ?_⟩
    · rw [sealedCount_close has unsealed]
      exact (ranks.le other).trans (Nat.le_succ _)
    · rw [preds] at isOnly
      have away : other ≠ block := by
        rintro rfl
        exact single ⟨source, isOnly⟩
      rw [block_close has, if_neg away] at closed
      exact ranks.lt other source closed isOnly

theorem Sound.close (sound : graph.Sound pending (sealing ∪ {block})) (has : graph.HasBlock block)
    (unsealed : (graph.block block).isSealed = false)
    (settled : (graph.block block).incomplete = [])
    (last : ∀ pred, (graph.block block).preds = [pred] →
      ∀ other, block ∉ (graph.block other).preds) : (graph.close block).Sound pending sealing := by
  have retains : Retains graph (graph.close block) :=
    retains_modifyBlock fun _ => ⟨rfl, rfl, rfl, rfl⟩
  have incomplete (other : BlockId) :
      ((graph.close block).block other).incomplete = (graph.block other).incomplete :=
    field_modifyBlock Block.incomplete block other fun _ => rfl
  have binding (other : BlockId) (name : VarId) :
      (graph.close block).binding other name = graph.binding other name :=
    binding_congr (field_modifyBlock Block.bindings block) other name
  have isSealed (other : BlockId) : ((graph.close block).block other).isSealed =
      if other = block then true else (graph.block other).isSealed := by
    rw [block_close has]
    split_ifs <;> rfl
  refine retains.sound_of_fills sound (fun other name value found =>
    sound.bound other name value (binding other name ▸ found)) sound.slot
    (fun other name value found => ?_) ?_ ?_
  · rw [incomplete] at found
    exact sound.consistent.waiting other name value found
  · refine retains.flows sound.flows (retains.hasBlock _ sound.flows.hasCurrent) ?_
      (exists_ranks_close sound.flows.ranks has unsealed last)
    rw [isSealed]
    split_ifs
    · rfl
    · exact sound.flows.entry_sealed
  · refine ⟨fun phi live isPhi => ?_, fun other name phi found => ?_, fun other => ?_,
      fun phi found => ?_, fun phi live isPhi => ?_⟩
    · rw [retains.value] at isPhi
      simp only [Waits, IsFilled, retains.value, isSealed, retains.preds, incomplete]
      rcases sound.fills.arity phi ((retains.isLive phi).1 live) isPhi with
        found | waits | ⟨filled, closed⟩
      · exact .inl found
      · exact .inr (.inl waits)
      · refine .inr (.inr ⟨filled, ?_⟩)
        by_cases home : (graph.value phi).block = block
        · exact .inl (if_pos home)
        · rw [if_neg home]
          exact closed.imp_right fun found => found.resolve_right home
    · rw [incomplete] at found
      obtain ⟨isPhi, home, args, isOpen, noted, named⟩ := sound.fills.waits other name phi found
      have away : other ≠ block := by
        rintro rfl
        rw [settled] at found
        exact List.not_mem_nil found
      rw [retains.value, isSealed, binding, if_neg away]
      exact ⟨isPhi, home, args, isOpen, noted, named⟩
    · rw [incomplete]
      exact sound.fills.waits_nodup other
    · obtain ⟨live, isPhi, free⟩ := sound.fills.pending phi found
      rw [retains.isLive, retains.value]
      refine ⟨live, isPhi, ?_⟩
      simpa only [Waits, retains.value, incomplete] using free
    · rw [retains.value] at isPhi ⊢
      exact sound.fills.notEntry phi ((retains.isLive phi).1 live) isPhi

end Waiting

end Graph

end Shader
