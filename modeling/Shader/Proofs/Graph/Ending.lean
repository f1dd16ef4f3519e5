import Shader.Proofs.Graph.Insertion
import Shader.Proofs.Graph.Notes

/-! # Ending blocks

A block is joined to the blocks that it goes on with, and then it gets its ending. Between the two the
edges and the endings of a graph do not agree, so they are taken as one change. -/

namespace Shader

namespace Graph

variable {block : BlockId}

variable {graph : Graph} {source : BlockId} {targets : List BlockId}

def joinTo (graph : Graph) (source : BlockId) (targets : List BlockId) : Graph :=
  targets.foldl (fun graph target => graph.addEdge source target) graph

structure IsBlank (graph : Graph) (block : BlockId) : Prop where
  places : (graph.block block).values = []
  binding : ∀ var, graph.binding block var = none

/-! ## The joined graph -/

theorem block_addEdge {target : BlockId} (hasSource : graph.HasBlock source)
    (hasTarget : graph.HasBlock target) (block : BlockId) :
    (graph.addEdge source target).block block =
      { graph.block block with
        succs := (graph.block block).succs ++ if block = source then [target] else []
        preds := (graph.block block).preds ++ if block = target then [source] else [] } := by
  rw [addEdge, block_modifyBlock (hasBlock_modifyBlock.2 hasTarget), block_modifyBlock hasSource]
  split_ifs <;> simp

theorem hasBlock_addEdge {target : BlockId} :
    (graph.addEdge source target).HasBlock block ↔ graph.HasBlock block := by
  rw [addEdge, hasBlock_modifyBlock, hasBlock_modifyBlock]

theorem size_joinTo : (graph.joinTo source targets).blocks.size = graph.blocks.size := by
  induction targets generalizing graph with
  | nil => rfl
  | cons target rest ih =>
    refine ih.trans ?_
    simp [addEdge, modifyBlock]

theorem hasBlock_joinTo : (graph.joinTo source targets).HasBlock block ↔ graph.HasBlock block := by
  rw [HasBlock, HasBlock, size_joinTo]

theorem joinTo_eq : graph.joinTo source targets =
      { graph with blocks := (graph.joinTo source targets).blocks } := by
  induction targets generalizing graph with
  | nil => rfl
  | cons target rest ih =>
    have unfolded : graph.joinTo source (target :: rest) =
        (graph.addEdge source target).joinTo source rest := rfl
    rw [unfolded, ih]
    rfl

theorem block_joinTo (hasSource : graph.HasBlock source)
    (hasTargets : ∀ target ∈ targets, graph.HasBlock target) (distinct : targets.Nodup)
    (block : BlockId) :
    (graph.joinTo source targets).block block =
      { graph.block block with
        succs := (graph.block block).succs ++ if block = source then targets else []
        preds := (graph.block block).preds ++ if block ∈ targets then [source] else [] } := by
  induction targets generalizing graph with
  | nil => simp [joinTo]
  | cons target rest ih =>
    obtain ⟨notAgain, distinct⟩ := List.nodup_cons.1 distinct
    have hasTarget := hasTargets target List.mem_cons_self
    have unfolded : graph.joinTo source (target :: rest) =
        (graph.addEdge source target).joinTo source rest := rfl
    rw [unfolded, ih (hasBlock_addEdge.2 hasSource) (fun other found =>
      hasBlock_addEdge.2 (hasTargets other (List.mem_cons_of_mem _ found))) distinct,
      block_addEdge hasSource hasTarget]
    by_cases isTarget : block = target
    · subst isTarget
      by_cases isSource : block = source <;> simp [isSource, notAgain]
      simp [← isSource, notAgain]
    · by_cases isSource : block = source <;> simp [isTarget, isSource]
      simp [← isSource, isTarget]

/-! ## What may be joined -/

/-- A block can be joined to others: it is open, they are not sealed, and they are blank, unless it is
joined back to a block that dominates it. -/
structure Joins (graph : Graph) (source : BlockId) (targets : List BlockId) : Prop where
  hasSource : graph.HasBlock source
  isOpen : (graph.block source).ending = none
  hasTargets : ∀ target ∈ targets, graph.HasBlock target
  unsealed : ∀ target ∈ targets, (graph.block target).isSealed = false
  distinct : targets.Nodup
  forward : (∀ target ∈ targets, graph.IsBlank target ∧ target ≠ source) ∨
    ∃ target, targets = [target] ∧ graph.Dominates target source

theorem LaidOut.ending_of_blank (laidOut : graph.LaidOut)
    (blank : graph.IsBlank block) : (graph.block block).ending = none := by
  have parts := laidOut.parts block
  rw [blank.places] at parts
  cases found : (graph.block block).ending with
  | none => rfl
  | some value => simp [found] at parts

theorem Sound.succs_of_open {pending : Set ValueId} {sealing : Set BlockId}
    (sound : graph.Sound pending sealing)
    (isOpen : (graph.block block).ending = none) : (graph.block block).succs = [] := by
  rw [sound.flows.succs, targetsOf, isOpen]
  rfl

theorem Sound.not_blank_of_pred {pending : Set ValueId} {sealing : Set BlockId}
    (sound : graph.Sound pending sealing) {pred : BlockId}
    (edge : pred ∈ (graph.block block).preds) : ¬ graph.IsBlank pred := by
  intro blank
  have none := sound.succs_of_open (sound.laidOut.ending_of_blank blank)
  have edge := (sound.flows.edges pred block).2 edge
  rw [none] at edge
  exact List.not_mem_nil edge

namespace Joins

variable (joins : Joins graph source targets)

include joins

theorem block_eq (block : BlockId) : (graph.joinTo source targets).block block =
      { graph.block block with
        succs := (graph.block block).succs ++ if block = source then targets else []
        preds := (graph.block block).preds ++ if block ∈ targets then [source] else [] } :=
  block_joinTo joins.hasSource joins.hasTargets joins.distinct block

theorem preds_of_not_mem {block : BlockId} (away : block ∉ targets) :
    ((graph.joinTo source targets).block block).preds = (graph.block block).preds := by
  rw [joins.block_eq]
  simp [away]

theorem keeps : Keeps graph (graph.joinTo source targets) where
  values := by rw [joinTo_eq]
  entry := by rw [joinTo_eq]
  idle := by rw [joinTo_eq]
  hasBlock _ has := hasBlock_joinTo.2 has
  places block := by rw [joins.block_eq]
  ending block := by rw [joins.block_eq]

theorem binding (block : BlockId) (var : VarId) :
    (graph.joinTo source targets).binding block var = graph.binding block var := by
  rw [Graph.binding, joins.block_eq]
  rfl

theorem incomplete (block : BlockId) :
    ((graph.joinTo source targets).block block).incomplete = (graph.block block).incomplete := by
  rw [joins.block_eq]

theorem isSealed (block : BlockId) :
    ((graph.joinTo source targets).block block).isSealed = (graph.block block).isSealed := by
  rw [joins.block_eq]

section Sound

variable {block : BlockId}

variable (sound : graph.Sound ∅ ∅)

include sound

theorem avoids_iff (other : BlockId)
    (steady : block ∈ targets → graph.IsBlank block → block = source) :
    (graph.joinTo source targets).Avoids other block ↔ graph.Avoids other block := by
  rcases joins.forward with blank | ⟨target, rfl, dominates⟩
  · refine avoids_congr (fun block => block ∉ targets) joins.keeps.entry
      (fun block away => joins.preds_of_not_mem away) (fun block _ pred edge isTarget => ?_)
      fun isTarget => ?_
    · exact sound.not_blank_of_pred edge (blank pred isTarget).1
    · exact (blank block isTarget).2 (steady isTarget (blank block isTarget).1)
  · refine avoids_back_edge joins.keeps.entry ?_ (fun block away => ?_) dominates
    · rw [joins.block_eq]
      simp
    · exact joins.preds_of_not_mem (by simpa using away)

theorem dominates_iff (other : BlockId)
    (steady : block ∈ targets → graph.IsBlank block → block = source) :
    (graph.joinTo source targets).Dominates other block ↔ graph.Dominates other block :=
  not_congr (joins.avoids_iff sound other steady)

theorem reaches_iff (steady : block ∈ targets → graph.IsBlank block → block = source) :
    (graph.joinTo source targets).Reaches block ↔ graph.Reaches block :=
  reaches_iff_of_avoids fun other => joins.avoids_iff sound other steady

theorem consistent : (graph.joinTo source targets).Consistent := by
  refine joins.keeps.consistent sound.consistent (fun block var value found => ?_)
    (fun var value found => ?_) fun block var value found => ?_
  · rw [joins.binding] at found
    exact sound.consistent.bound block var value found
  · rw [joinTo_eq] at found
    exact sound.consistent.slots var value found
  · rw [joins.incomplete] at found
    exact sound.consistent.waiting block var value found

theorem laidOut : (graph.joinTo source targets).LaidOut := by
  refine joins.keeps.laidOut sound.laidOut fun var value found => ?_
  rw [joinTo_eq] at found
  exact sound.laidOut.slot var value found

theorem fills : (graph.joinTo source targets).Fills ∅ ∅ where
  arity phi live isPhi := by
    rw [joins.keeps.value] at isPhi
    simp only [Waits, IsFilled, joins.keeps.value, joins.incomplete, joins.isSealed]
    rcases sound.fills.arity phi ((joins.keeps.isLive phi).1 live) isPhi with
      found | waits | ⟨filled, closed | found⟩
    · exact .inl found
    · exact .inr (.inl waits)
    · have away : (graph.value phi).block ∉ targets := fun isTarget => by
        rw [joins.unsealed _ isTarget] at closed
        exact Bool.false_ne_true closed
      rw [joins.preds_of_not_mem away]
      exact .inr (.inr ⟨filled, .inl closed⟩)
    · exact absurd found (Set.notMem_empty _)
  waits block var phi found := by
    rw [joins.incomplete] at found
    rw [joins.keeps.value, joins.isSealed, joins.binding]
    exact sound.fills.waits block var phi found
  waits_nodup block := by
    rw [joins.incomplete]
    exact sound.fills.waits_nodup block
  pending phi found := absurd found (Set.notMem_empty _)
  notEntry phi live isPhi := by
    rw [joins.keeps.value] at isPhi ⊢
    rw [joins.keeps.entry]
    exact sound.fills.notEntry phi ((joins.keeps.isLive phi).1 live) isPhi

theorem strict : (graph.joinTo source targets).Strict where
  operand user arg plain used := by
    rw [joins.keeps.value] at plain used
    have live := sound.consistent.live_user used
    have occupied : ¬ graph.IsBlank (graph.value user).block := fun blank => by
      have found := (sound.consistent.mem_values_iff live).2 rfl
      rw [blank.places] at found
      exact List.not_mem_nil found
    rw [joins.keeps.value, joins.keeps.value,
      joins.dominates_iff sound _ (fun _ blank => absurd blank occupied),
      joins.reaches_iff sound (fun _ blank => absurd blank occupied), joins.keeps.places]
    exact sound.strict.operand user arg plain used
  choice phi isPhi position arg pred found source := by
    rw [joins.keeps.value] at isPhi found source
    rw [joins.keeps.value]
    have live := sound.consistent.live_user (List.mem_of_getElem? found)
    rcases sound.fills.arity phi live isPhi with pending | ⟨var, waits⟩ | ⟨filled, closed | sealing⟩
    · exact absurd pending (Set.notMem_empty _)
    · obtain ⟨-, -, empty, -⟩ := sound.fills.waits _ var phi waits
      rw [empty] at found
      simp at found
    · have away : (graph.value phi).block ∉ targets := fun isTarget => by
        rw [joins.unsealed _ isTarget] at closed
        exact Bool.false_ne_true closed
      rw [joins.preds_of_not_mem away] at source
      have edge := List.mem_of_getElem? source
      rw [joins.dominates_iff sound _ (fun _ blank => absurd blank (sound.not_blank_of_pred edge))]
      exact sound.strict.choice phi isPhi position arg pred found source
    · exact absurd sealing (Set.notMem_empty _)
  bound block var value found := by
    rw [joins.binding] at found
    have occupied : ¬ graph.IsBlank block := fun blank => by
      rw [blank.binding] at found
      cases found
    rw [joins.keeps.value, joins.dominates_iff sound _ (fun _ blank => absurd blank occupied)]
    exact sound.strict.bound block var value found

end Sound

end Joins

/-! ## Ending a block -/

variable {operation : Operation}

/-- The graph in which a block goes on with the blocks of an ending, and has it as its last value. -/
def endBlock (graph : Graph) (source : BlockId) (operation : Operation) : Graph :=
  (graph.joinTo source operation.payload.blocks).insertValue source operation (graph.block source).values []

/-- What is needed to end a block: it can be joined to the blocks of the ending, and the operands are
defined where it ends. -/
structure Ends (graph : Graph) (source : BlockId) (operation : Operation) : Prop where
  joins : Joins graph source operation.payload.blocks
  isEnding : operation.opcode.isEnding = true
  live : ∀ arg ∈ operation.args, graph.IsLive arg
  dominates : ∀ arg ∈ operation.args, graph.Dominates (graph.value arg).block source

namespace Ends

variable (ends : Ends graph source operation)

include ends

theorem notPhi : operation.opcode ≠ .phi := fun isPhi => by
  have isEnding := ends.isEnding
  rw [isPhi] at isEnding
  exact Bool.false_ne_true isEnding

theorem inserts : Inserts (graph.joinTo source operation.payload.blocks) source operation
    (graph.block source).values [] (graph.endBlock source operation) where
  eq := rfl
  has := hasBlock_joinTo.2 ends.joins.hasSource
  live arg found := (ends.joins.keeps.isLive arg).2 (ends.live arg found)
  split := by rw [List.append_nil, ends.joins.keeps.places]

theorem fits (laidOut : graph.LaidOut) :
    (graph.joinTo source operation.payload.blocks).Fits source operation.opcode
      (graph.block source).values [] := by
  have isOpen : ((graph.joinTo source operation.payload.blocks).block source).ending = none := by
    rw [ends.joins.keeps.ending]
    exact ends.joins.isOpen
  have parts : (graph.block source).values = (graph.joinTo source operation.payload.blocks).phisOf source ++
        (graph.joinTo source operation.payload.blocks).bodyOf source := by
    have parts := laidOut.parts source
    rw [ends.joins.isOpen, Option.toList_none, List.append_nil] at parts
    rw [ends.joins.keeps.phisOf, ends.joins.keeps.bodyOf]
    exact parts
  rw [parts]
  exact .ending ends.isEnding isOpen

theorem targetsOf_self : (graph.endBlock source operation).targetsOf source = operation.payload.blocks := by
  rw [targetsOf, ends.inserts.ending_eq, if_pos ⟨rfl, ends.isEnding⟩]
  exact congrArg (fun value : Value => value.payload.blocks) ends.inserts.value_new

theorem preds_eq (block : BlockId) : ((graph.endBlock source operation).block block).preds =
      (graph.block block).preds ++ if block ∈ operation.payload.blocks then [source] else [] := by
  rw [ends.inserts.preds, ends.joins.block_eq]

theorem succs_eq (block : BlockId) : ((graph.endBlock source operation).block block).succs =
      (graph.block block).succs ++
        if block = source then operation.payload.blocks else [] := by
  rw [ends.inserts.same Block.succs (fun _ _ _ => rfl), ends.joins.block_eq]

theorem flows (sound : graph.Sound ∅ ∅) : (graph.endBlock source operation).Flows where
  hasEntry := by
    rw [ends.inserts.hasBlock, ends.inserts.entry, ends.joins.keeps.entry]
    exact hasBlock_joinTo.2 sound.flows.hasEntry
  hasCurrent := by
    rw [ends.inserts.hasBlock, ends.inserts.current, joinTo_eq]
    exact (ends.joins.keeps.hasBlock _ sound.flows.hasCurrent)
  entry_sealed := by
    rw [ends.inserts.isSealed, ends.inserts.entry, ends.joins.keeps.entry, ends.joins.isSealed]
    exact sound.flows.entry_sealed
  entry_preds := by
    have away : graph.entry ∉ operation.payload.blocks := fun isTarget => by
      have unsealed := ends.joins.unsealed _ isTarget
      rw [sound.flows.entry_sealed] at unsealed
      exact Bool.false_ne_true unsealed.symm
    rw [ends.inserts.entry, ends.joins.keeps.entry, ends.preds_eq, if_neg away,
      sound.flows.entry_preds, List.append_nil]
  edges first second := by
    rw [ends.succs_eq, ends.preds_eq, List.mem_append, List.mem_append]
    refine or_congr (sound.flows.edges first second) ?_
    by_cases isSource : first = source <;> by_cases isTarget : second ∈ operation.payload.blocks <;>
      simp [isSource, isTarget]
  preds_nodup block := by
    rw [ends.preds_eq]
    split_ifs with isTarget
    · refine List.nodup_append.2 ⟨sound.flows.preds_nodup block, List.nodup_singleton _, ?_⟩
      rintro pred edge last isLast rfl
      rw [List.mem_singleton] at isLast
      have edge := (sound.flows.edges pred block).2 edge
      rw [isLast, sound.succs_of_open ends.joins.isOpen] at edge
      exact List.not_mem_nil edge
    · rw [List.append_nil]
      exact sound.flows.preds_nodup block
  succs_nodup block := by
    rw [ends.succs_eq]
    split_ifs with isSource
    · rw [isSource, sound.succs_of_open ends.joins.isOpen, List.nil_append]
      exact ends.joins.distinct
    · rw [List.append_nil]
      exact sound.flows.succs_nodup block
  succs block := by
    rw [ends.succs_eq]
    by_cases isSource : block = source
    · subst isSource
      rw [if_pos rfl, ends.targetsOf_self, sound.succs_of_open ends.joins.isOpen, List.nil_append]
    · rw [if_neg isSource, List.append_nil, ends.inserts.targetsOf
        (ends.joins.consistent sound) (ends.joins.laidOut sound) (.inl isSource),
        ends.joins.keeps.targetsOf]
      exact sound.flows.succs block
  ranks := by
    obtain ⟨rank, ranks⟩ := sound.flows.ranks
    refine ends.inserts.ranks ⟨rank, fun block => ?_, fun block pred closed only => ?_⟩
    · have count : (graph.joinTo source operation.payload.blocks).sealedCount = graph.sealedCount :=
        sealedCount_congr size_joinTo ends.joins.isSealed
      rw [count]
      exact ranks.le block
    · rw [ends.joins.isSealed] at closed
      have away : block ∉ operation.payload.blocks := fun isTarget => by
        rw [ends.joins.unsealed _ isTarget] at closed
        exact Bool.false_ne_true closed
      rw [ends.joins.preds_of_not_mem away] at only
      exact ranks.lt block pred closed only

theorem dominates_iff (sound : graph.Sound ∅ ∅) {block : BlockId} (other : BlockId)
    (steady : block ∈ operation.payload.blocks → graph.IsBlank block → block = source) :
    (graph.endBlock source operation).Dominates other block ↔ graph.Dominates other block := by
  rw [← ends.joins.dominates_iff sound other steady]
  exact dominates_congr ends.inserts.entry ends.inserts.preds

end Ends

theorem Sound.ends (sound : graph.Sound ∅ ∅) (ends : Ends graph source operation) :
    (graph.endBlock source operation).Sound ∅ ∅ where
  idle := by
    rw [ends.inserts.frame]
    exact ends.joins.keeps.idle.trans sound.idle
  consistent := ends.inserts.consistent (ends.joins.consistent sound)
  replaces := ends.inserts.replaces (ends.joins.keeps.replaces sound.replaces)
  laidOut := ends.inserts.laidOut (ends.joins.consistent sound) (ends.joins.laidOut sound)
    (ends.fits sound.laidOut)
  flows := ends.flows sound
  fills := by
    have fills := ends.inserts.fills (ends.joins.consistent sound) (ends.joins.fills sound)
      fun isPhi => absurd isPhi ends.notPhi
    simpa [ends.notPhi] using fills
  strict := by
    refine ends.inserts.strict (ends.joins.consistent sound) (ends.joins.strict sound)
      (fun _ arg found => ⟨?_, fun _ home => ?_⟩) fun isPhi => absurd isPhi ends.notPhi
    · rw [ends.joins.keeps.value, ends.joins.dominates_iff sound _ (fun _ _ => rfl)]
      exact ends.dominates arg found
    · rw [ends.joins.keeps.value] at home
      exact (sound.consistent.mem_values_iff (ends.live arg found)).2 home.symm

end Graph

end Shader
