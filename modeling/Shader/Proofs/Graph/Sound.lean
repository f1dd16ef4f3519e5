import Shader.Proofs.Graph.Dominance

/-! # Sound graphs

What holds of a graph at every moment of its building, in groups that are kept for different reasons.

A graph is `Sound` if all of this holds. Two things are in between: the phis that are being filled, and
the block that is being sealed. -/

namespace Shader

def Payload.blocks : Payload → List BlockId
  | .target block => [block]
  | .targets onTrue onFalse => [onTrue, onFalse]
  | _ => []

namespace Graph

/-! ## Vocabulary -/

def IsLive (graph : Graph) (value : ValueId) : Prop :=
  graph.HasValue value ∧ (graph.value value).removed = false

def binding (graph : Graph) (block : BlockId) (var : VarId) : Option ValueId :=
  (graph.block block).bindings.find? var

def isPlain (graph : Graph) (value : ValueId) : Bool :=
  !graph.isPhi value && !(graph.value value).opcode.isEnding

def phisOf (graph : Graph) (block : BlockId) : List ValueId :=
  (graph.block block).values.filter graph.isPhi

def bodyOf (graph : Graph) (block : BlockId) : List ValueId :=
  (graph.block block).values.filter graph.isPlain

def targetsOf (graph : Graph) (block : BlockId) : List BlockId :=
  ((graph.block block).ending.map fun ending => (graph.value ending).payload.blocks).getD []

def removedCount (graph : Graph) : Nat :=
  ((Finset.range graph.values.size).filter fun index =>
    (graph.value ⟨index⟩).removed = true).card

def sealedCount (graph : Graph) : Nat :=
  ((Finset.range graph.blocks.size).filter fun index =>
    (graph.block ⟨index⟩).isSealed = true).card

def Waits (graph : Graph) (phi : ValueId) : Prop :=
  ∃ var, (var, phi) ∈ (graph.block (graph.value phi).block).incomplete

def IsFilled (graph : Graph) (phi : ValueId) : Prop :=
  (graph.value phi).args.length = (graph.block (graph.value phi).block).preds.length

/-- A numbering of blocks that goes down from a sealed block to its only predecessor. -/
structure Ranks (graph : Graph) (rank : BlockId → Nat) : Prop where
  le : ∀ block, rank block ≤ graph.sealedCount
  lt : ∀ block pred, (graph.block block).isSealed = true →
    (graph.block block).preds = [pred] → rank pred < rank block

/-! ## The groups -/

structure Consistent (graph : Graph) : Prop where
  edges : graph.EdgesAgree
  removed_args : ∀ value, (graph.value value).removed = true → (graph.value value).args = []
  removed_uses : ∀ value, (graph.value value).removed = true → (graph.value value).uses = []
  /-- A value that was not given up is in its own block, once, and in no other. -/
  placed : ∀ value block, graph.IsLive value →
    (graph.block block).values.count value = if block = (graph.value value).block then 1 else 0
  listed : ∀ block, ∀ value ∈ (graph.block block).values, graph.IsLive value
  bound : ∀ block var value, graph.binding block var = some value → graph.IsLive value
  slots : ∀ var value, graph.slots.find? var = some value → graph.IsLive value
  waiting : ∀ block var value, (var, value) ∈ (graph.block block).incomplete → graph.IsLive value

structure Replaces (graph : Graph) : Prop where
  kept : ∀ value, graph.IsLive value → (graph.value value).replacedBy = none
  /-- The replacements of a value end at one that was not given up, in no more steps than values were
  given up. -/
  survivor : ∀ value, graph.HasValue value →
    ∃ steps ≤ graph.removedCount, graph.IsLive (graph.resolveWithin steps value)

structure LaidOut (graph : Graph) : Prop where
  parts : ∀ block, (graph.block block).values =
    graph.phisOf block ++ graph.bodyOf block ++ (graph.block block).ending.toList
  ending : ∀ block value, (graph.block block).ending = some value → (graph.value value).opcode.isEnding = true
  slot : ∀ var value, graph.slots.find? var = some value → (graph.value value).opcode = .alloca

structure Flows (graph : Graph) : Prop where
  hasEntry : graph.HasBlock graph.entry
  hasCurrent : graph.HasBlock graph.current
  entry_sealed : (graph.block graph.entry).isSealed = true
  entry_preds : (graph.block graph.entry).preds = []
  edges : ∀ source target, target ∈ (graph.block source).succs ↔ source ∈ (graph.block target).preds
  preds_nodup : ∀ block, (graph.block block).preds.Nodup
  succs_nodup : ∀ block, (graph.block block).succs.Nodup
  succs : ∀ block, (graph.block block).succs = graph.targetsOf block
  ranks : ∃ rank, graph.Ranks rank

/-- Phis have their operands, or are noted as having to get them. -/
structure Fills (pending : Set ValueId) (sealing : Set BlockId) (graph : Graph) : Prop where
  arity : ∀ phi, graph.IsLive phi → (graph.value phi).opcode = .phi → phi ∈ pending ∨ graph.Waits phi ∨
      graph.IsFilled phi ∧ ((graph.block (graph.value phi).block).isSealed = true ∨
        (graph.value phi).block ∈ sealing)
  /-- What waits is a phi for a variable without operands, in a block that is not sealed and has noted
  it or a later value. -/
  waits : ∀ block var phi, (var, phi) ∈ (graph.block block).incomplete →
    (graph.value phi).opcode = .phi ∧ (graph.value phi).block = block ∧
      (graph.value phi).args = [] ∧ (graph.block block).isSealed = false ∧
      (graph.binding block var).isSome = true ∧ (graph.value phi).payload = .var var
  waits_nodup : ∀ block, ((graph.block block).incomplete.map Prod.snd).Nodup
  pending : ∀ phi ∈ pending, graph.IsLive phi ∧ (graph.value phi).opcode = .phi ∧ ¬ graph.Waits phi
  notEntry : ∀ phi, graph.IsLive phi → (graph.value phi).opcode = .phi → (graph.value phi).block ≠ graph.entry

structure Strict (graph : Graph) : Prop where
  operand : ∀ user arg, (graph.value user).opcode ≠ .phi → arg ∈ (graph.value user).args →
    graph.Dominates (graph.value arg).block (graph.value user).block ∧
      (graph.Reaches (graph.value user).block → (graph.value arg).block = (graph.value user).block →
          [arg, user].Sublist (graph.block (graph.value user).block).values)
  choice : ∀ phi, (graph.value phi).opcode = .phi → ∀ (position : Nat) arg pred,
    (graph.value phi).args[position]? = some arg →
    (graph.block (graph.value phi).block).preds[position]? = some pred →
      graph.Dominates (graph.value arg).block pred
  bound : ∀ block var value, graph.binding block var = some value →
    graph.Dominates (graph.value value).block block

/-- A graph is as it must be, but for the phis that are being filled and the blocks that are being
sealed. -/
structure Sound (pending : Set ValueId) (sealing : Set BlockId) (graph : Graph) : Prop where
  idle : graph.isEditing = false
  consistent : graph.Consistent
  replaces : graph.Replaces
  laidOut : graph.LaidOut
  flows : graph.Flows
  fills : graph.Fills pending sealing
  strict : graph.Strict

/-! ## Consequences -/

variable {pending : Set ValueId} {sealing : Set BlockId} {graph : Graph} {value user arg : ValueId}
  {block : BlockId}

theorem Consistent.live_arg (consistent : graph.Consistent)
    (used : arg ∈ (graph.value user).args) : graph.IsLive arg := by
  have counted : user ∈ (graph.value arg).uses := consistent.edges.mem_uses_iff.2 used
  refine ⟨hasValue_of_mem_uses counted, ?_⟩
  by_contra removed
  rw [consistent.removed_uses arg (by simpa using removed)] at counted
  exact List.not_mem_nil counted

theorem Consistent.live_user (consistent : graph.Consistent)
    (used : arg ∈ (graph.value user).args) : graph.IsLive user := by
  refine ⟨hasValue_of_mem_args used, ?_⟩
  by_contra removed
  rw [consistent.removed_args user (by simpa using removed)] at used
  exact List.not_mem_nil used

theorem Consistent.mem_values_iff (consistent : graph.Consistent) (live : graph.IsLive value) :
    value ∈ (graph.block block).values ↔ block = (graph.value value).block := by
  rw [← List.count_pos_iff, consistent.placed value block live]
  split_ifs with home <;> simp [home]

theorem hasBlock_of_mem_values (found : value ∈ (graph.block block).values) : graph.HasBlock block := by
  by_contra missing
  rw [block_of_not_hasBlock missing] at found
  exact List.not_mem_nil found

theorem Consistent.hasBlock (consistent : graph.Consistent) (live : graph.IsLive value) :
    graph.HasBlock (graph.value value).block :=
  hasBlock_of_mem_values ((consistent.mem_values_iff live).2 rfl)

theorem Consistent.values_nodup (consistent : graph.Consistent) : (graph.block block).values.Nodup := by
  refine List.nodup_iff_count_le_one.2 fun value => ?_
  by_cases found : value ∈ (graph.block block).values
  · rw [consistent.placed value block (consistent.listed block value found)]
    split_ifs <;> omega
  · rw [List.count_eq_zero.2 found]
    omega

/-! ## Following replacements -/

theorem resolveWithin_add (first second : Nat) (value : ValueId) :
    graph.resolveWithin (first + second) value =
      graph.resolveWithin second (graph.resolveWithin first value) := by
  induction first generalizing value with
  | zero => rw [Nat.zero_add, resolveWithin]
  | succ first ih =>
    rw [Nat.succ_add, resolveWithin]
    cases next : (graph.value value).replacedBy with
    | some other => simp only [resolveWithin, next, ih]
    | none => cases second <;> simp [resolveWithin, next]

theorem Replaces.resolveWithin_live (replaces : graph.Replaces) (live : graph.IsLive value)
    (steps : Nat) : graph.resolveWithin steps value = value := by
  cases steps with
  | zero => rfl
  | succ steps => simp [resolveWithin, replaces.kept value live]

theorem Replaces.resolve_live (replaces : graph.Replaces) (live : graph.IsLive value) :
    graph.resolve value = value :=
  replaces.resolveWithin_live live _

theorem removedCount_le : graph.removedCount ≤ graph.values.size :=
  (Finset.card_filter_le _ _).trans (Finset.card_range _).le

theorem Replaces.resolve_eq (replaces : graph.Replaces) (has : graph.HasValue value) :
    ∃ steps ≤ graph.removedCount, graph.resolve value = graph.resolveWithin steps value ∧
      graph.IsLive (graph.resolve value) := by
  obtain ⟨steps, few, live⟩ := replaces.survivor value has
  have enough : graph.values.size = steps + (graph.values.size - steps) := by
    have := @removedCount_le graph
    omega
  have same : graph.resolve value = graph.resolveWithin steps value := by
    rw [resolve, enough, resolveWithin_add, replaces.resolveWithin_live live]
  exact ⟨steps, few, same, same ▸ live⟩

theorem Replaces.live_resolve (replaces : graph.Replaces) (has : graph.HasValue value) :
    graph.IsLive (graph.resolve value) := by
  obtain ⟨-, -, -, live⟩ := replaces.resolve_eq has
  exact live

end Graph

end Shader
