import Shader.Proofs.Graph.Lookup

/-! # The changes of a build

Everything that building a graph does is a lookup, or one of few other changes: a variable is written in
a block that is open, a block is made, ended, sealed or filled next, and an address is noted. -/

namespace Shader

open Relation (ReflTransGen)

/-- One change of a build. -/
inductive Step (guard : Guard) : Draft → Draft → Prop where
  | lookup {before after : Draft} (step : Lookup guard before after) : Step guard before after
  | write {graph : Graph} {block : BlockId} {var : VarId} {value : ValueId}
      (has : graph.HasBlock block) (isOpen : (graph.block block).ending = none)
      (live : graph.IsLive value) (dominates : graph.Dominates (graph.value value).block block)
      (allowed : block ∉ guard.blank ∧ (block, var) ∉ guard.notes) :
    Step guard ⟨graph, ∅, ∅⟩ ⟨graph.bind block var value, ∅, ∅⟩
  | release {graph : Graph} {block : BlockId} (has : graph.HasBlock block)
      (unsealed : (graph.block block).isSealed = false) (allowed : block ∉ guard.blocks) :
    Step guard ⟨graph, ∅, ∅⟩
      ⟨graph.release block, {phi | ∃ var, (var, phi) ∈ (graph.block block).incomplete}, {block}⟩
  | close {graph : Graph} {block : BlockId} (has : graph.HasBlock block)
      (unsealed : (graph.block block).isSealed = false)
      (settled : (graph.block block).incomplete = [])
      (last : ∀ pred, (graph.block block).preds = [pred] → ∀ other, block ∉ (graph.block other).preds)
      (allowed : block ∉ guard.blocks) :
    Step guard ⟨graph, ∅, {block}⟩ ⟨graph.close block, ∅, ∅⟩
  | newBlock {graph : Graph} (name : String) (bends : ¬ guard.straight) :
    Step guard ⟨graph, ∅, ∅⟩ ⟨{ graph with blocks := graph.blocks.append { name } }, ∅, ∅⟩
  | setCurrent {graph : Graph} {block : BlockId} (has : graph.HasBlock block)
      (bends : ¬ guard.straight) (allowed : block ∉ guard.blocks) :
    Step guard ⟨graph, ∅, ∅⟩ ⟨{ graph with current := block }, ∅, ∅⟩
  | setConstruct {graph : Graph} (construct : Nat) :
    Step guard ⟨graph, ∅, ∅⟩ ⟨{ graph with construct := construct }, ∅, ∅⟩
  | setMerge {graph : Graph} {block : BlockId} (has : graph.HasBlock block) (merge : Merge) :
    Step guard ⟨graph, ∅, ∅⟩
      ⟨graph.modifyBlock block fun node => { node with merge := some merge }, ∅, ∅⟩
  | setSlot {graph : Graph} {var : VarId} {slot : ValueId} (live : graph.IsLive slot)
      (fresh : (graph.value slot).opcode = .alloca) (allowed : var ∉ guard.slots) :
    Step guard ⟨graph, ∅, ∅⟩ ⟨{ graph with slots := graph.slots.insert var slot }, ∅, ∅⟩
  | ends {graph : Graph} {source : BlockId} {operation : Operation}
      (ends : Graph.Ends graph source operation)
      (allowed : source ∉ guard.blank)
      (targets : ∀ target ∈ operation.payload.blocks, target ∉ guard.blocks) :
    Step guard ⟨graph, ∅, ∅⟩ ⟨graph.endBlock source operation, ∅, ∅⟩

abbrev Steps (guard : Guard) : Draft → Draft → Prop :=
  ReflTransGen (Step guard)

variable {guard : Guard} {before after : Draft}

theorem Step.sound (step : Step guard before after) (sound : before.Sound) : after.Sound := by
  cases step with
  | lookup step => exact step.sound sound
  | write has _ live dominates => exact Graph.Sound.bind sound has live dominates
  | @release graph block has =>
    have released := Graph.Sound.release sound has
    rw [Set.empty_union, Set.empty_union] at released
    exact released
  | close has unsealed settled last =>
    refine Graph.Sound.close ?_ has unsealed settled last
    rw [Set.empty_union]
    exact sound
  | newBlock name => exact Graph.Sound.newBlock sound name
  | setCurrent has => exact Graph.Sound.setCurrent sound has
  | setConstruct => exact Graph.Sound.setConstruct sound
  | setMerge => exact Graph.Sound.setMerge sound
  | setSlot live fresh => exact Graph.Sound.setSlot sound live fresh
  | ends ends => exact Graph.Sound.ends sound ends

theorem Steps.sound (steps : Steps guard before after) (sound : before.Sound) : after.Sound := by
  induction steps with
  | refl => exact sound
  | tail _ step ih => exact step.sound ih

theorem Looks.steps (looks : Looks guard before after) : Steps guard before after := by
  induction looks with
  | refl => exact .refl
  | tail _ step ih => exact ih.tail (.lookup step)

/-! ## What a build leaves alone -/

structure Graph.Stepped (guard : Guard) (graph after : Graph) : Prop where
  entry : after.entry = graph.entry
  current : after.current = graph.current ∨ after.current ∉ guard.blocks
  slot : ∀ var ∈ guard.slots, after.slots.find? var = graph.slots.find? var
  hasBlock : ∀ block, graph.HasBlock block → after.HasBlock block
  hasValue : ∀ value, graph.HasValue value → after.HasValue value
  nature : ∀ value, graph.HasValue value → (after.value value).nature = (graph.value value).nature
  core : ∀ value ∈ guard.values, (after.value value).core = (graph.value value).core
  ending : ∀ block value, (graph.block block).ending = some value → (after.block block).ending = some value
  preds : ∀ block ∈ guard.blocks, (after.block block).preds = (graph.block block).preds
  isSealed : ∀ block ∈ guard.blocks, (after.block block).isSealed = (graph.block block).isSealed
  closed : ∀ block, (graph.block block).isSealed = true →
    (after.block block).isSealed = true ∧ (after.block block).preds = (graph.block block).preds
  binding : ∀ block var, (block, var) ∈ guard.notes → after.binding block var = graph.binding block var
  bound : ∀ block var, (graph.binding block var).isSome = true → (after.binding block var).isSome = true
  blank : ∀ block ∈ guard.blank, after.IsBlank block

namespace Graph

variable {graph middle after : Graph} {guard : Guard}

theorem Looked.stepped (looked : Looked guard graph after) : Stepped guard graph after where
  entry := looked.entry
  current := .inl looked.current
  slot var _ := looked.slot var
  hasBlock block := (looked.hasBlock block).2
  hasValue := looked.hasValue
  nature := looked.nature
  core := looked.core
  ending block _ found := (looked.ending block).trans found
  preds block _ := looked.preds block
  isSealed block _ := looked.isSealed block
  closed block done := ⟨(looked.isSealed block).trans done, looked.preds block⟩
  binding := looked.binding
  bound := looked.bound
  blank := looked.blank

theorem Stepped.trans (first : Stepped guard graph middle) (second : Stepped guard middle after) :
    Stepped guard graph after where
  entry := second.entry.trans first.entry
  current := by
    rcases second.current with same | outside
    · rw [same]
      exact first.current
    · exact .inr outside
  slot var found := (second.slot var found).trans (first.slot var found)
  hasBlock block has := second.hasBlock block (first.hasBlock block has)
  hasValue value has := second.hasValue value (first.hasValue value has)
  nature value has := (second.nature value (first.hasValue value has)).trans (first.nature value has)
  core value found := (second.core value found).trans (first.core value found)
  ending block value found := second.ending block value (first.ending block value found)
  preds block found := (second.preds block found).trans (first.preds block found)
  isSealed block found := (second.isSealed block found).trans (first.isSealed block found)
  closed block done :=
    have ⟨doneThen, predsThen⟩ := first.closed block done
    have ⟨doneLast, predsLast⟩ := second.closed block doneThen
    ⟨doneLast, predsLast.trans predsThen⟩
  binding block var found := (second.binding block var found).trans (first.binding block var found)
  bound block var noted := second.bound block var (first.bound block var noted)
  blank := second.blank

theorem Stepped.fits (stepped : Stepped guard graph after) (fits : guard.Fits graph) : guard.Fits after where
  has value found := stepped.hasValue value (fits.has value found)
  closed value found arg used := by
    rw [Value.args_of_core (stepped.core value found)] at used
    exact fits.closed value found arg used
  noted block var value found bound := by
    rw [stepped.binding block var found] at bound
    exact fits.noted block var value found bound
  blank := stepped.blank

theorem stepped_of_retains (retains : Retains graph after) (fits : guard.Fits graph)
    (bindings : ∀ block, (after.block block).bindings = (graph.block block).bindings)
    (isSealed : ∀ block, (after.block block).isSealed = (graph.block block).isSealed ∨
      block ∉ guard.blocks ∧ (after.block block).isSealed = true)
    (current : after.current = graph.current ∨ after.current ∉ guard.blocks := by exact .inl rfl)
    (slot : ∀ var ∈ guard.slots, after.slots.find? var = graph.slots.find? var := by
      exact fun _ _ => rfl) : Stepped guard graph after where
  entry := retains.entry
  current := current
  slot := slot
  hasBlock := retains.hasBlock
  hasValue value := (retains.hasValue value).2
  nature value _ := by rw [retains.value]
  core value _ := by rw [retains.value]
  ending block value found := (retains.ending block).trans found
  preds block _ := retains.preds block
  isSealed block found := (isSealed block).resolve_right fun changed => changed.1 found
  closed block done := ⟨(isSealed block).elim (·.trans done) (·.2), retains.preds block⟩
  binding block var _ := binding_congr bindings block var
  bound block var noted := by rwa [binding_congr bindings]
  blank block found := (fits.blank block found).congr (retains.places block) (binding_congr bindings block)

theorem stepped_bind {block : BlockId} {var : VarId} {value : ValueId} (has : graph.HasBlock block)
    (fits : guard.Fits graph) (allowed : block ∉ guard.blank ∧ (block, var) ∉ guard.notes) :
    Stepped guard graph (graph.bind block var value) :=
  (looked_bind has fits allowed).stepped

theorem stepped_modifyBlock {change : Block → Block} {block : BlockId} (fits : guard.Fits graph)
    (retains : Retains graph (graph.modifyBlock block change) := by
      exact Graph.retains_modifyBlock fun _ => ⟨rfl, rfl, rfl, rfl⟩)
    (bindings : ∀ node, (change node).bindings = node.bindings := by exact fun _ => rfl)
    (isSealed : ∀ node, (change node).isSealed = node.isSealed := by exact fun _ => rfl) :
    Stepped guard graph (graph.modifyBlock block change) :=
  stepped_of_retains retains fits (fun other => field_modifyBlock _ block other bindings)
    fun other => .inl (field_modifyBlock _ block other isSealed)

theorem stepped_close {block : BlockId} (has : graph.HasBlock block) (fits : guard.Fits graph)
    (allowed : block ∉ guard.blocks) : Stepped guard graph (graph.close block) := by
  refine stepped_of_retains (retains_modifyBlock fun _ => ⟨rfl, rfl, rfl, rfl⟩) fits
    (field_modifyBlock Block.bindings block) fun other => ?_
  rw [block_close has]
  split_ifs with isBlock
  · exact .inr ⟨isBlock ▸ allowed, rfl⟩
  · exact .inl rfl

theorem stepped_ends {source : BlockId} {operation : Operation} (ends : Ends graph source operation)
    (fits : guard.Fits graph) (allowed : source ∉ guard.blank)
    (targets : ∀ target ∈ operation.payload.blocks, target ∉ guard.blocks) :
    Stepped guard graph (graph.endBlock source operation) := by
  have keeps := ends.joins.keeps
  have value {value : ValueId} (has : graph.HasValue value) :
      ((graph.endBlock source operation).value value).core = (graph.value value).core := by
    have old := ((keeps.hasValue value).2 has).ne_next
    rw [ends.inserts.core_old old, keeps.value]
  have binding (other : BlockId) (var : VarId) :
      (graph.endBlock source operation).binding other var = graph.binding other var := by
    rw [ends.inserts.binding, ends.joins.binding]
  have isSealed (other : BlockId) :
      ((graph.endBlock source operation).block other).isSealed = (graph.block other).isSealed := by
    rw [ends.inserts.isSealed, ends.joins.isSealed]
  have preds (other : BlockId) (away : other ∉ operation.payload.blocks) :
      ((graph.endBlock source operation).block other).preds = (graph.block other).preds := by
    rw [ends.preds_eq, if_neg away, List.append_nil]
  exact
    { entry := by rw [ends.inserts.entry, keeps.entry]
      current := .inl (by rw [ends.inserts.current, joinTo_eq])
      slot := fun var _ => by rw [ends.inserts.slots, joinTo_eq]
      hasBlock := fun other has => (ends.inserts.hasBlock other).2 (keeps.hasBlock other has)
      hasValue := fun other has => (ends.inserts.hasValue other).2 (.inl ((keeps.hasValue other).2 has))
      nature := fun other has => Value.nature_of_core (value has)
      core := fun other found => value (fits.has other found)
      ending := fun other last found => by
        have differs : other ≠ source := by
          rintro rfl
          exact absurd (ends.joins.isOpen.symm.trans found) (by simp)
        rw [ends.inserts.ending_eq, if_neg fun here => differs here.1, keeps.ending]
        exact found
      preds := fun other found => preds other fun isTarget => targets other isTarget found
      isSealed := fun other _ => isSealed other
      closed := fun other done => by
        refine ⟨(isSealed other).trans done, preds other fun isTarget => ?_⟩
        exact absurd ((ends.joins.unsealed other isTarget).symm.trans done) (by decide)
      binding := fun other var _ => binding other var
      bound := fun other var noted => by rwa [binding]
      blank := fun other found => by
        refine (fits.blank other found).congr ?_ (binding other)
        rw [ends.inserts.places, if_neg, keeps.places]
        rintro rfl
        exact allowed found }

end Graph

theorem Step.stepped (step : Step guard before after) (sound : before.Sound)
    (fits : guard.Fits before.graph) : Graph.Stepped guard before.graph after.graph := by
  cases step with
  | lookup step => exact (step.looked sound fits).stepped
  | write has _ _ _ allowed => exact Graph.stepped_bind has fits allowed
  | release => exact Graph.stepped_modifyBlock fits
  | close has _ _ _ allowed => exact Graph.stepped_close has fits allowed
  | newBlock name =>
    exact Graph.stepped_of_retains (Graph.retains_newBlock name) fits
      (Graph.block_append_named name Block.bindings rfl) fun other =>
        .inl (Graph.block_append_named name Block.isSealed rfl other)
  | setCurrent _ _ allowed =>
    exact Graph.stepped_of_retains (Graph.retains_beside rfl rfl rfl rfl) fits (fun _ => rfl)
      (fun _ => .inl rfl) (.inr allowed)
  | setConstruct =>
    exact Graph.stepped_of_retains (Graph.retains_beside rfl rfl rfl rfl) fits (fun _ => rfl)
      fun _ => .inl rfl
  | setMerge => exact Graph.stepped_modifyBlock fits
  | @setSlot graph var slot _ _ allowed =>
    refine Graph.stepped_of_retains (Graph.retains_beside rfl rfl rfl rfl) fits (fun _ => rfl)
      (fun _ => .inl rfl) (.inl rfl) fun name found => ?_
    have differs : name ≠ var := by
      rintro rfl
      exact allowed found
    exact Table.find?_insert_of_ne _ _ differs
  | ends ends allowed targets => exact Graph.stepped_ends ends fits allowed targets

theorem Steps.stepped (steps : Steps guard before after) (sound : before.Sound)
    (fits : guard.Fits before.graph) : Graph.Stepped guard before.graph after.graph := by
  induction steps with
  | refl => exact (Graph.Looked.refl fits).stepped
  | tail earlier step ih =>
    exact ih.trans (step.stepped (Steps.sound earlier sound) (ih.fits fits))

theorem Step.straight (step : Step guard before after) (isStraight : guard.straight)
    (sound : before.Sound) (fits : guard.Fits before.graph) :
    after.graph.current = before.graph.current ∧
      ∀ block, after.graph.HasBlock block → before.graph.HasBlock block := by
  cases step with
  | lookup step =>
    have looked := step.looked sound fits
    exact ⟨looked.current, fun block => (looked.hasBlock block).1⟩
  | write | release | close | setMerge => exact ⟨rfl, fun _ => Graph.hasBlock_modifyBlock.1⟩
  | newBlock _ bends => exact absurd isStraight bends
  | setCurrent _ bends => exact absurd isStraight bends
  | setConstruct | setSlot => exact ⟨rfl, fun _ has => has⟩
  | ends ends =>
    refine ⟨?_, fun block has => Graph.hasBlock_joinTo.1 ((ends.inserts.hasBlock block).1 has)⟩
    exact ends.inserts.current.trans (by rw [Graph.joinTo_eq])

theorem Steps.straight (steps : Steps guard before after) (isStraight : guard.straight)
    (sound : before.Sound) (fits : guard.Fits before.graph) :
    after.graph.current = before.graph.current ∧
      ∀ block, after.graph.HasBlock block → before.graph.HasBlock block := by
  induction steps with
  | refl => exact ⟨rfl, fun _ has => has⟩
  | tail earlier step ih =>
    have stepped := Steps.stepped earlier sound fits
    obtain ⟨current, old⟩ := step.straight isStraight (Steps.sound earlier sound) (stepped.fits fits)
    exact ⟨current.trans ih.1, fun block has => ih.2 block (old block has)⟩

/-! ## Less guarded changes -/

/-- A guard guards no more than another, in builds as in lookups. -/
structure Guard.Below (guard other : Guard) : Prop extends guard.Weaker other where
  blocks : guard.blocks ⊆ other.blocks
  slots : guard.slots ⊆ other.slots
  straight : guard.straight → other.straight

theorem Step.weaken {other : Guard} (below : guard.Below other) (step : Step other before after) :
    Step guard before after := by
  have blank {block : BlockId} (allowed : block ∉ other.blank) : block ∉ guard.blank :=
    fun found => allowed (below.blank found)
  have outside {block : BlockId} (allowed : block ∉ other.blocks) : block ∉ guard.blocks :=
    fun found => allowed (below.blocks found)
  cases step with
  | lookup step => exact .lookup (step.weaken below.toWeaker)
  | write has isOpen live dominates allowed =>
    exact .write has isOpen live dominates ⟨blank allowed.1, fun found => allowed.2 (below.notes found)⟩
  | release has unsealed allowed => exact .release has unsealed (outside allowed)
  | close has unsealed settled last allowed =>
    exact .close has unsealed settled last (outside allowed)
  | newBlock name bends => exact .newBlock name fun straight => bends (below.straight straight)
  | setCurrent has bends allowed =>
    exact .setCurrent has (fun straight => bends (below.straight straight)) (outside allowed)
  | setConstruct construct => exact .setConstruct construct
  | setMerge has merge => exact .setMerge has merge
  | setSlot live fresh allowed => exact .setSlot live fresh fun found => allowed (below.slots found)
  | ends ends allowed targets =>
    exact .ends ends (blank allowed) fun target found => outside (targets target found)

theorem Steps.weaken {other : Guard} (below : guard.Below other)
    (steps : Steps other before after) : Steps guard before after := by
  induction steps with
  | refl => exact .refl
  | tail _ step ih => exact ih.tail (step.weaken below)

end Shader
