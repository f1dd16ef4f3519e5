import Shader.Proofs.Graph.Ending
import Shader.Proofs.Graph.Operands
import Shader.Proofs.Graph.Retirement

/-! # The changes of a lookup

Looking a variable up, and removing phis, changes a graph in few ways: values are inserted, phis get
operands, blocks note values, phis are given up. What such a change may touch is limited by a guard. -/

namespace Shader

variable {left right : Value} {value : ValueId} {block : BlockId} {var : VarId}

open Relation (ReflTransGen)

/-- A graph that is being built, with what is in between. -/
structure Draft where
  graph : Graph
  pending : Set ValueId := ∅
  sealing : Set BlockId := ∅

def Draft.Sound (draft : Draft) : Prop :=
  draft.graph.Sound draft.pending draft.sealing

structure Guard where
  values : Set ValueId := ∅
  blank : Set BlockId := ∅
  notes : Set (BlockId × VarId) := ∅
  blocks : Set BlockId := ∅
  slots : Set VarId := ∅
  straight : Prop := False

/-- One change of a lookup. -/
inductive Lookup (guard : Guard) : Draft → Draft → Prop where
  /-- A value is inserted; behind the ending of a block only a phi or an undefined value. -/
  | insert {graph after : Graph} {pending : Set ValueId} {sealing : Set BlockId} {block : BlockId}
      {operation : Operation} {left right : List ValueId}
      (inserts : Graph.Inserts graph block operation left right after)
      (fits : graph.Fits block operation.opcode left right)
      (notEnding : operation.opcode.isEnding = false)
      (notEntry : operation.opcode = .phi → block ≠ graph.entry)
      (operands : operation.opcode ≠ .phi → ∀ arg ∈ operation.args,
        graph.Dominates (graph.value arg).block block ∧
          (graph.Reaches block → (graph.value arg).block = block → arg ∈ left))
      (choices : operation.opcode = .phi → ∀ (position : Nat) arg pred, operation.args[position]? = some arg →
        (graph.block block).preds[position]? = some pred → graph.Dominates (graph.value arg).block pred)
      (late : (graph.block block).ending ≠ none → operation.opcode = .phi ∨ operation.opcode = .undef)
      (allowed : block ∉ guard.blank) :
    Lookup guard ⟨graph, pending, sealing⟩
      ⟨after, pending ∪ {value | value = graph.values.next ∧ operation.opcode = .phi}, sealing⟩
  | fill {graph : Graph} {pending : Set ValueId} {sealing : Set BlockId} {phi arg : ValueId}
      (live : graph.IsLive arg) (filling : phi ∈ pending)
      (short : (graph.value phi).args.length < (graph.block (graph.value phi).block).preds.length)
      (dominates : ∀ pred,
        (graph.block (graph.value phi).block).preds[(graph.value phi).args.length]? = some pred →
          graph.Dominates (graph.value arg).block pred)
      (allowed : phi ∉ guard.values) :
    Lookup guard ⟨graph, pending, sealing⟩ ⟨graph.addArg phi arg, pending, sealing⟩
  | settle {graph : Graph} {pending : Set ValueId} {sealing : Set BlockId} {phi : ValueId}
      (filled : graph.IsFilled phi)
      (closed : (graph.block (graph.value phi).block).isSealed = true ∨ (graph.value phi).block ∈ sealing) :
    Lookup guard ⟨graph, pending ∪ {phi}, sealing⟩ ⟨graph, pending, sealing⟩
  /-- A block notes what a variable has where it starts, which is what its only predecessor has. -/
  | note {graph : Graph} {pending : Set ValueId} {sealing : Set BlockId} {block : BlockId}
      {var : VarId} {value : ValueId} (has : graph.HasBlock block) (live : graph.IsLive value)
      (dominates : graph.Dominates (graph.value value).block block)
      (enters : graph.binding block var = some value ∨ graph.binding block var = none ∧
        ∀ pred, (graph.block block).preds = [pred] → graph.binding pred var = some value)
      (allowed : block ∉ guard.blank ∧ (block, var) ∉ guard.notes) :
    Lookup guard ⟨graph, pending, sealing⟩ ⟨graph.bind block var value, pending, sealing⟩
  | defer {graph : Graph} {pending : Set ValueId} {sealing : Set BlockId} {block : BlockId}
      {var : VarId} {phi : ValueId} (fresh : phi ∉ pending)
      (home : (graph.value phi).block = block) (empty : (graph.value phi).args = [])
      (named : (graph.value phi).payload = .var var)
      (unsealed : (graph.block block).isSealed = false) (unbound : graph.binding block var = none)
      (allowed : block ∉ guard.blank ∧ (block, var) ∉ guard.notes) :
    Lookup guard ⟨graph, pending ∪ {phi}, sealing⟩ ⟨graph.defer block var phi, pending, sealing⟩
  | retire {graph after : Graph} {pending : Set ValueId} {sealing : Set BlockId}
      {phi same : ValueId} (retires : Graph.Retires graph phi same after) (settled : phi ∉ pending)
      (free : ¬ graph.Waits phi)
      (choice : ∀ arg ∈ (graph.value phi).args, arg = phi ∨ arg = same)
      (allowed : phi ∉ guard.values) :
    Lookup guard ⟨graph, pending, sealing⟩ ⟨after, pending, sealing⟩

abbrev Looks (guard : Guard) : Draft → Draft → Prop :=
  ReflTransGen (Lookup guard)

variable {guard : Guard} {before after : Draft}

theorem Lookup.sound (step : Lookup guard before after) (sound : before.Sound) : after.Sound := by
  cases step with
  | insert inserts fits notEnding notEntry operands choices =>
    exact Graph.Sound.inserts sound inserts fits notEnding notEntry operands choices
  | fill live filling _ dominates => exact Graph.Sound.addArg live sound filling dominates
  | settle filled closed => exact Graph.Sound.settle sound filled closed
  | note has live dominates => exact Graph.Sound.bind sound has live dominates
  | defer fresh home empty named unsealed =>
    exact Graph.Sound.defer sound fresh home empty named unsealed
  | retire retires settled free => exact Graph.Sound.retires sound retires settled free

theorem Looks.sound (steps : Looks guard before after) (sound : before.Sound) : after.Sound := by
  induction steps with
  | refl => exact sound
  | tail _ step ih => exact step.sound ih

/-! ## What a lookup leaves alone -/

/-- What a value is, apart from its operands, its users and its being given up. -/
def Value.nature (value : Value) : Value :=
  { value with args := [], uses := [], removed := false, replacedBy := none }

theorem Value.nature_of_core (same : left.core = right.core) : left.nature = right.nature := by
  have kept := congrArg Value.nature same
  exact kept

theorem Value.args_of_core (same : left.core = right.core) : left.args = right.args := by
  have kept := congrArg (fun value : Value => value.args) same
  exact kept

theorem Value.removed_of_core (same : left.core = right.core) : left.removed = right.removed := by
  have kept := congrArg (fun value : Value => value.removed) same
  exact kept

section Nature

variable {left right : Value} (same : left.nature = right.nature)

include same

theorem Value.opcode_of_nature : left.opcode = right.opcode := by
  have kept := congrArg (fun value : Value => value.opcode) same
  exact kept

theorem Value.block_of_nature : left.block = right.block := by
  have kept := congrArg Value.block same
  exact kept

theorem Value.type_of_nature : left.type = right.type := by
  have kept := congrArg (fun value : Value => value.type) same
  exact kept

theorem Value.payload_of_nature : left.payload = right.payload := by
  have kept := congrArg (fun value : Value => value.payload) same
  exact kept

end Nature

/-- A graph has what a guard speaks of, and nothing guarded refers to anything else. -/
structure Guard.Fits (guard : Guard) (graph : Graph) : Prop where
  has : ∀ value ∈ guard.values, graph.HasValue value
  closed : ∀ value ∈ guard.values, ∀ arg ∈ (graph.value value).args, arg ∈ guard.values
  noted : ∀ block var value, (block, var) ∈ guard.notes → graph.binding block var = some value →
    value ∈ guard.values
  blank : ∀ block ∈ guard.blank, graph.IsBlank block

structure Graph.Looked (guard : Guard) (graph after : Graph) : Prop where
  sizeBlocks : after.blocks.size = graph.blocks.size
  entry : after.entry = graph.entry
  current : after.current = graph.current
  slot : ∀ var, after.slots.find? var = graph.slots.find? var
  preds : ∀ block, (after.block block).preds = (graph.block block).preds
  succs : ∀ block, (after.block block).succs = (graph.block block).succs
  ending : ∀ block, (after.block block).ending = (graph.block block).ending
  isSealed : ∀ block, (after.block block).isSealed = (graph.block block).isSealed
  hasValue : ∀ value, graph.HasValue value → after.HasValue value
  nature : ∀ value, graph.HasValue value → (after.value value).nature = (graph.value value).nature
  core : ∀ value ∈ guard.values, (after.value value).core = (graph.value value).core
  binding : ∀ block var, (block, var) ∈ guard.notes → after.binding block var = graph.binding block var
  bound : ∀ block var, (graph.binding block var).isSome = true → (after.binding block var).isSome = true
  incomplete : ∀ block, (∀ var, (block, var) ∈ guard.notes) →
    (after.block block).incomplete = (graph.block block).incomplete
  blank : ∀ block ∈ guard.blank, after.IsBlank block

namespace Graph

variable {value phi : ValueId} {block : BlockId} {var : VarId}

variable {graph middle after : Graph} {guard : Guard}

theorem Looked.refl (fits : guard.Fits graph) : Looked guard graph graph :=
  ⟨rfl, rfl, rfl, fun _ => rfl, fun _ => rfl, fun _ => rfl, fun _ => rfl, fun _ => rfl,
    fun _ has => has, fun _ _ => rfl, fun _ _ => rfl, fun _ _ _ => rfl, fun _ _ bound => bound,
    fun _ _ => rfl, fits.blank⟩

theorem Looked.trans (first : Looked guard graph middle) (second : Looked guard middle after) :
    Looked guard graph after where
  sizeBlocks := second.sizeBlocks.trans first.sizeBlocks
  entry := second.entry.trans first.entry
  current := second.current.trans first.current
  slot var := (second.slot var).trans (first.slot var)
  preds block := (second.preds block).trans (first.preds block)
  succs block := (second.succs block).trans (first.succs block)
  ending block := (second.ending block).trans (first.ending block)
  isSealed block := (second.isSealed block).trans (first.isSealed block)
  hasValue value has := second.hasValue value (first.hasValue value has)
  nature value has := (second.nature value (first.hasValue value has)).trans (first.nature value has)
  core value found := (second.core value found).trans (first.core value found)
  binding block var found := (second.binding block var found).trans (first.binding block var found)
  bound block var noted := second.bound block var (first.bound block var noted)
  incomplete block found := (second.incomplete block found).trans (first.incomplete block found)
  blank := second.blank

theorem Looked.fits (looked : Looked guard graph after) (fits : guard.Fits graph) : guard.Fits after where
  has value found := looked.hasValue value (fits.has value found)
  closed value found arg used := by
    rw [Value.args_of_core (looked.core value found)] at used
    exact fits.closed value found arg used
  noted block var value found bound := by
    rw [looked.binding block var found] at bound
    exact fits.noted block var value found bound
  blank := looked.blank

theorem Looked.hasBlock (looked : Looked guard graph after) (block : BlockId) :
    after.HasBlock block ↔ graph.HasBlock block := by
  rw [HasBlock, HasBlock, looked.sizeBlocks]

theorem Looked.opcode (looked : Looked guard graph after)
    (has : graph.HasValue value) : (after.value value).opcode = (graph.value value).opcode :=
  Value.opcode_of_nature (looked.nature value has)

theorem Looked.home (looked : Looked guard graph after)
    (has : graph.HasValue value) : (after.value value).block = (graph.value value).block :=
  Value.block_of_nature (looked.nature value has)

theorem IsBlank.congr (blank : graph.IsBlank block)
    (places : (after.block block).values = (graph.block block).values)
    (binding : ∀ var, after.binding block var = graph.binding block var) : after.IsBlank block :=
  ⟨places.trans blank.places, fun var => (binding var).trans (blank.binding var)⟩

theorem looked_inserts {operation : Operation} {left right : List ValueId}
    (inserts : Inserts graph block operation left right after) (fits : guard.Fits graph)
    (notEnding : operation.opcode.isEnding = false)
    (allowed : block ∉ guard.blank) : Looked guard graph after where
  sizeBlocks := inserts.size_blocks
  entry := inserts.entry
  current := inserts.current
  slot var := by rw [inserts.slots]
  preds := inserts.preds
  succs := inserts.same Block.succs fun _ _ _ => rfl
  ending other := by
    rw [inserts.ending_eq, if_neg (by simp [notEnding])]
  isSealed := inserts.isSealed
  hasValue value has := (inserts.hasValue value).2 (.inl has)
  nature value has := Value.nature_of_core (inserts.core_old has.ne_next)
  core value found := inserts.core_old (fits.has value found).ne_next
  binding other var _ := inserts.binding other var
  bound other var noted := by rwa [inserts.binding]
  incomplete other _ := inserts.incomplete other
  blank other found := by
    refine (fits.blank other found).congr ?_ (inserts.binding other)
    rw [inserts.places, if_neg]
    rintro rfl
    exact allowed found

theorem looked_addArg {arg : ValueId} (live : graph.IsLive phi) (liveArg : graph.IsLive arg)
    (fits : guard.Fits graph) (allowed : phi ∉ guard.values) :
    Looked guard graph (graph.addArg phi arg) where
  sizeBlocks := rfl
  entry := rfl
  current := rfl
  slot _ := rfl
  preds _ := rfl
  succs _ := rfl
  ending _ := rfl
  isSealed _ := rfl
  hasValue _ has := hasValue_addArg.2 has
  nature value _ := by
    rw [value_addArg live.1 liveArg.1]
    rfl
  core value found := by
    have differs : value ≠ phi := by
      rintro rfl
      exact allowed found
    rw [Value.core_eq, Value.core_eq, shell_addArg live liveArg, args_addArg_of_ne live liveArg differs]
  binding _ _ _ := rfl
  bound _ _ noted := noted
  incomplete _ _ := rfl
  blank block found := (fits.blank block found).congr rfl fun _ => rfl

theorem looked_of_retains (retains : Retains graph after) (fits : guard.Fits graph)
    (allowed : block ∉ guard.blank ∧ (block, var) ∉ guard.notes)
    (sizeBlocks : after.blocks.size = graph.blocks.size) (current : after.current = graph.current)
    (slots : after.slots = graph.slots)
    (isSealed : ∀ other, (after.block other).isSealed = (graph.block other).isSealed)
    (binding : ∀ other name, after.binding other name =
      if other = block ∧ name = var then some value else graph.binding other name)
    (incomplete : ∀ other ≠ block, (after.block other).incomplete = (graph.block other).incomplete) :
    Looked guard graph after where
  sizeBlocks := sizeBlocks
  entry := retains.entry
  current := current
  slot _ := by rw [slots]
  preds := retains.preds
  succs := retains.succs
  ending := retains.ending
  isSealed := isSealed
  hasValue other := (retains.hasValue other).2
  nature _ _ := by rw [retains.value]
  core _ _ := by rw [retains.value]
  binding other name found := by
    rw [binding, if_neg]
    rintro ⟨rfl, rfl⟩
    exact allowed.2 found
  bound other name noted := by
    rw [binding]
    split_ifs
    · rfl
    · exact noted
  incomplete other found := by
    refine incomplete other ?_
    rintro rfl
    exact allowed.2 (found var)
  blank other found := by
    have away : other ≠ block := by
      rintro rfl
      exact allowed.1 found
    refine (fits.blank other found).congr (retains.places other) fun name => ?_
    rw [binding, if_neg (by simp [away])]

theorem looked_bind (has : graph.HasBlock block)
    (fits : guard.Fits graph) (allowed : block ∉ guard.blank ∧ (block, var) ∉ guard.notes) :
    Looked guard graph (graph.bind block var value) :=
  looked_of_retains retains_bind fits allowed (by simp [bind, modifyBlock]) rfl rfl isSealed_bind
    (binding_bind has) fun other _ => incomplete_bind other

theorem looked_defer (has : graph.HasBlock block)
    (fits : guard.Fits graph) (allowed : block ∉ guard.blank ∧ (block, var) ∉ guard.notes) :
    Looked guard graph (graph.defer block var phi) :=
  looked_of_retains retains_defer fits allowed (by simp [defer, bind, modifyBlock]) rfl rfl
    isSealed_defer (binding_defer has) fun other away => by rw [block_defer has, if_neg away]

theorem looked_retires {same : ValueId} (retires : Retires graph phi same after)
    (fits : guard.Fits graph) (allowed : phi ∉ guard.values) : Looked guard graph after where
  sizeBlocks := retires.size_blocks
  entry := retires.entry
  current := retires.current
  slot := retires.slot_same
  preds := retires.preds
  succs := retires.succs
  ending := retires.ending
  isSealed := retires.isSealed
  hasValue value has := (retires.hasValue value).2 has
  nature value _ := retires.keeps Value.nature (fun _ _ _ _ _ => rfl) value
  core value found := by
    have differs : value ≠ phi := by
      rintro rfl
      exact allowed found
    have absent : phi ∉ (graph.value value).args := fun used =>
      allowed (fits.closed value found phi used)
    rw [retires.core_old differs, map_exchange_of_not_mem absent]
    rfl
  binding block var found := by
    rw [retires.binding]
    cases bound : graph.binding block var with
    | none => rfl
    | some value =>
      have differs : value ≠ phi := by
        rintro rfl
        exact allowed (fits.noted block var value found bound)
      simp [exchange, differs]
  bound block var noted := by rwa [retires.binding, Option.isSome_map]
  incomplete block _ := retires.incomplete block
  blank block found := by
    have blank := fits.blank block found
    refine ⟨?_, fun var => ?_⟩
    · rw [retires.places, blank.places, List.filter_nil]
    · rw [retires.binding, blank.binding, Option.map_none]

end Graph

theorem Lookup.looked (step : Lookup guard before after) (sound : before.Sound)
    (fits : guard.Fits before.graph) : Graph.Looked guard before.graph after.graph := by
  cases step with
  | insert inserts _ notEnding _ _ _ _ allowed =>
    exact Graph.looked_inserts inserts fits notEnding allowed
  | fill live filling _ _ allowed =>
    exact Graph.looked_addArg (Graph.Fills.pending sound.fills _ filling).1 live fits allowed
  | settle => exact Graph.Looked.refl fits
  | note has _ _ _ allowed => exact Graph.looked_bind has fits allowed
  | @defer graph pending sealing block var phi _ home _ _ _ _ allowed =>
    obtain ⟨live, -⟩ := Graph.Fills.pending sound.fills phi (.inr rfl)
    exact Graph.looked_defer (home ▸ sound.consistent.hasBlock live) fits allowed
  | retire retires _ _ _ allowed => exact Graph.looked_retires retires fits allowed

theorem Looks.looked (steps : Looks guard before after) (sound : before.Sound)
    (fits : guard.Fits before.graph) : Graph.Looked guard before.graph after.graph := by
  induction steps with
  | refl => exact .refl fits
  | tail earlier step ih =>
    exact ih.trans (step.looked (Looks.sound earlier sound) (ih.fits fits))

/-! ## Less guarded changes -/

structure Guard.Weaker (guard other : Guard) : Prop where
  values : guard.values ⊆ other.values
  blank : guard.blank ⊆ other.blank
  notes : guard.notes ⊆ other.notes

theorem Lookup.weaken {other : Guard} (weaker : guard.Weaker other)
    (step : Lookup other before after) : Lookup guard before after := by
  have blank {block : BlockId} (allowed : block ∉ other.blank) : block ∉ guard.blank :=
    fun found => allowed (weaker.blank found)
  have value {value : ValueId} (allowed : value ∉ other.values) : value ∉ guard.values :=
    fun found => allowed (weaker.values found)
  have note {block : BlockId} {var : VarId}
      (allowed : block ∉ other.blank ∧ (block, var) ∉ other.notes) :
      block ∉ guard.blank ∧ (block, var) ∉ guard.notes :=
    ⟨blank allowed.1, fun found => allowed.2 (weaker.notes found)⟩
  cases step with
  | insert inserts fits notEnding notEntry operands choices late allowed =>
    exact .insert inserts fits notEnding notEntry operands choices late (blank allowed)
  | fill live filling short dominates allowed =>
    exact .fill live filling short dominates (value allowed)
  | settle filled closed => exact .settle filled closed
  | note has live dominates enters allowed => exact .note has live dominates enters (note allowed)
  | defer fresh home empty named unsealed unbound allowed =>
    exact .defer fresh home empty named unsealed unbound (note allowed)
  | retire retires settled free choice allowed =>
    exact .retire retires settled free choice (value allowed)

theorem Looks.weaken {other : Guard} (weaker : guard.Weaker other)
    (steps : Looks other before after) : Looks guard before after := by
  induction steps with
  | refl => exact .refl
  | tail _ step ih => exact ih.tail (step.weaken weaker)

/-! ## What stands in the place of a value -/

namespace Graph

variable {graph middle after : Graph} {value next : ValueId}

theorem Replaces.resolve_of_live (replaces : graph.Replaces) {steps : Nat}
    (few : steps ≤ graph.values.size) (live : graph.IsLive (graph.resolveWithin steps value)) :
    graph.resolve value = graph.resolveWithin steps value := by
  have enough : graph.values.size = steps + (graph.values.size - steps) := by omega
  rw [resolve, enough, resolveWithin_add, replaces.resolveWithin_live live]

theorem Inserts.resolve {block : BlockId} {operation : Operation} {left right : List ValueId}
    (inserts : Inserts graph block operation left right after) (replaces : graph.Replaces)
    (has : graph.HasValue value) : after.resolve value = graph.resolve value := by
  obtain ⟨steps, few, leads, live⟩ := replaces.resolve_eq has
  have size : after.values.size = graph.values.size + 1 := by
    rw [inserts.eq, size_values_insertValue]
  have bound := @removedCount_le graph
  have survives : after.IsLive (after.resolveWithin steps value) := by
    rw [inserts.resolveWithin, ← leads]
    exact inserts.live_old live
  rw [(inserts.replaces replaces).resolve_of_live (by omega) survives, inserts.resolveWithin, leads]

theorem Keeps.resolve (keeps : Keeps graph after) : after.resolve value = graph.resolve value := by
  rw [Graph.resolve, Graph.resolve, keeps.values, keeps.resolveWithin]

theorem resolve_addArg {phi arg : ValueId} (live : graph.IsLive phi) (liveArg : graph.IsLive arg) :
    (graph.addArg phi arg).resolve value = graph.resolve value := by
  rw [resolve, resolve, size_values_addArg, resolveWithin_addArg live liveArg]

end Graph

theorem Lookup.resolve (step : Lookup guard before after) (sound : before.Sound)
    (has : before.graph.HasValue value) :
    after.graph.resolve value = after.graph.resolve (before.graph.resolve value) := by
  have live := sound.replaces.live_resolve has
  cases step with
  | insert inserts =>
    rw [inserts.resolve sound.replaces has, inserts.resolve sound.replaces live.1,
      sound.replaces.resolve_live live]
  | fill liveArg filling =>
    have livePhi := (Graph.Fills.pending sound.fills _ filling).1
    rw [Graph.resolve_addArg livePhi liveArg, Graph.resolve_addArg livePhi liveArg,
      sound.replaces.resolve_live live]
  | settle => rw [sound.replaces.resolve_live live]
  | note hasBlock =>
    rw [Graph.retains_bind.resolve, Graph.retains_bind.resolve, sound.replaces.resolve_live live]
  | @defer graph pending sealing block var phi _ home =>
    obtain ⟨livePhi, -⟩ := Graph.Fills.pending sound.fills phi (.inr rfl)
    have hasBlock : graph.HasBlock block := home ▸ sound.consistent.hasBlock livePhi
    rw [Graph.retains_defer.resolve, Graph.retains_defer.resolve, sound.replaces.resolve_live live]
  | retire retires =>
    rw [retires.resolve_eq has, retires.resolve_eq live.1, sound.replaces.resolve_live live]

theorem Looks.resolve (steps : Looks guard before after) (sound : before.Sound)
    (fits : guard.Fits before.graph) (has : before.graph.HasValue value) :
    after.graph.resolve value = after.graph.resolve (before.graph.resolve value) := by
  induction steps with
  | refl => rw [sound.replaces.resolve_live (sound.replaces.live_resolve has)]
  | tail earlier step ih =>
    have middle := Looks.sound earlier sound
    have hasStill := (Looks.looked earlier sound fits).hasValue
    have live := sound.replaces.live_resolve has
    rw [step.resolve middle (hasStill _ has), ih, ← step.resolve middle (hasStill _ live.1)]

theorem Graph.Looked.dominates_iff {graph after : Graph} {other : BlockId}
    (looked : Graph.Looked guard graph after) :
    after.Dominates other block ↔ graph.Dominates other block :=
  Graph.dominates_congr looked.entry looked.preds

theorem Lookup.dominates_resolve (step : Lookup guard before after) (sound : before.Sound)
    (fits : guard.Fits before.graph) (live : before.graph.IsLive value) :
    before.graph.Dominates (after.graph.value (after.graph.resolve value)).block
      (before.graph.value value).block := by
  have looked := step.looked sound fits
  have kept := sound.replaces.resolve_live live
  have stays (same : after.graph.resolve value = value) :
      before.graph.Dominates (after.graph.value (after.graph.resolve value)).block
        (before.graph.value value).block := by
    rw [same, looked.home live.1]
    exact Graph.dominates_self
  cases step with
  | insert inserts => exact stays ((inserts.resolve sound.replaces live.1).trans kept)
  | fill liveArg filling =>
    exact stays ((Graph.resolve_addArg (Graph.Fills.pending sound.fills _ filling).1 liveArg).trans kept)
  | settle => exact stays kept
  | note hasBlock => exact stays (Graph.retains_bind.resolve.trans kept)
  | @defer graph pending sealing block var phi _ home =>
    obtain ⟨livePhi, -⟩ := Graph.Fills.pending sound.fills phi (.inr rfl)
    have hasBlock : graph.HasBlock block := home ▸ sound.consistent.hasBlock livePhi
    exact stays (Graph.retains_defer.resolve.trans kept)
  | @retire graph after pending sealing phi same retires =>
    have replaced := retires.resolve_eq live.1
    rw [kept, Graph.exchange] at replaced
    by_cases isPhi : value = phi
    · rw [if_pos isPhi] at replaced
      change graph.Dominates (after.value (after.resolve value)).block (graph.value value).block
      rw [replaced, looked.home retires.liveSame.1, isPhi]
      exact retires.dominates _ Graph.dominates_self
    · exact stays (replaced.trans (if_neg isPhi))

theorem Looks.dominates_resolve (steps : Looks guard before after) (sound : before.Sound)
    (fits : guard.Fits before.graph) (live : before.graph.IsLive value) :
    before.graph.Dominates (after.graph.value (after.graph.resolve value)).block
      (before.graph.value value).block := by
  induction steps with
  | refl =>
    rw [sound.replaces.resolve_live live]
    exact Graph.dominates_self
  | @tail middle after earlier step ih =>
    have looked := Looks.looked earlier sound fits
    have soundThen := Looks.sound earlier sound
    have hasThen := looked.hasValue _ live.1
    have further := step.dominates_resolve soundThen (looked.fits fits)
      (soundThen.replaces.live_resolve hasThen)
    rw [← step.resolve soundThen hasThen, looked.dominates_iff] at further
    exact further.trans ih

theorem Lookup.binding (step : Lookup guard before after) (sound : before.Sound)
    (bound : before.graph.binding block var = some value) :
    after.graph.binding block var = some (after.graph.resolve value) := by
  have live := sound.consistent.bound block var value bound
  have kept := sound.replaces.resolve_live live
  cases step with
  | insert inserts =>
    rw [inserts.binding, inserts.resolve sound.replaces live.1, kept]
    exact bound
  | fill liveArg filling =>
    rw [Graph.resolve_addArg (Graph.Fills.pending sound.fills _ filling).1 liveArg, kept]
    exact bound
  | settle =>
    rw [kept]
    exact bound
  | @note graph pending sealing other name noted hasBlock _ _ enters =>
    rw [Graph.binding_bind hasBlock, Graph.retains_bind.resolve, kept]
    split_ifs with same
    · rw [same.1, same.2] at bound
      rcases enters with again | ⟨unbound, -⟩
      · exact again.symm.trans bound
      · exact absurd (unbound.symm.trans bound) (by simp)
    · exact bound
  | @defer graph pending sealing other name phi _ home _ _ _ unbound =>
    obtain ⟨livePhi, -⟩ := Graph.Fills.pending sound.fills phi (.inr rfl)
    have hasBlock : graph.HasBlock other := home ▸ sound.consistent.hasBlock livePhi
    rw [Graph.binding_defer hasBlock, Graph.retains_defer.resolve, kept, if_neg]
    · exact bound
    · rintro ⟨rfl, rfl⟩
      exact absurd (unbound.symm.trans bound) (by simp)
  | retire retires =>
    rw [retires.binding, retires.resolve_eq live.1, kept]
    exact congrArg _ bound

theorem Looks.binding (steps : Looks guard before after) (sound : before.Sound)
    (fits : guard.Fits before.graph) (bound : before.graph.binding block var = some value) :
    after.graph.binding block var = some (after.graph.resolve value) := by
  induction steps with
  | refl =>
    rw [sound.replaces.resolve_live (sound.consistent.bound block var value bound)]
    exact bound
  | tail earlier step ih =>
    have hasStill := (Looks.looked earlier sound fits).hasValue
    have live := sound.consistent.bound block var value bound
    rw [step.binding (Looks.sound earlier sound) ih,
      ← step.resolve (Looks.sound earlier sound) (hasStill _ live.1)]

/-- A sealed block with only one predecessor that has a note of a variable has the same as it. -/
def Graph.Follows (graph : Graph) (block pred : BlockId) (var : VarId) : Prop :=
  graph.binding block var = none ∨ graph.binding block var = graph.binding pred var

theorem Lookup.follows (step : Lookup guard before after) (sound : before.Sound)
    {pred : BlockId} (closed : (before.graph.block block).isSealed = true)
    (only : (before.graph.block block).preds = [pred]) (differs : pred ≠ block)
    (follows : before.graph.Follows block pred var) : after.graph.Follows block pred var := by
  unfold Graph.Follows at follows ⊢
  cases step with
  | insert inserts => rwa [inserts.binding, inserts.binding]
  | fill => exact follows
  | settle => exact follows
  | @note graph pending sealing other name value hasBlock _ _ enters =>
    rw [Graph.binding_bind hasBlock, Graph.binding_bind hasBlock]
    by_cases here : block = other ∧ var = name
    · obtain ⟨rfl, rfl⟩ := here
      rw [if_pos ⟨rfl, rfl⟩, if_neg fun same => differs same.1]
      right
      rcases enters with again | ⟨unbound, enters⟩
      · rcases follows with unbound | follows
        · exact absurd (unbound.symm.trans again) (by simp)
        · exact again.symm.trans follows
      · exact (enters pred only).symm
    · rw [if_neg here]
      split_ifs with there
      · -- the predecessor keeps its note, or gets its first one
        obtain ⟨rfl, rfl⟩ := there
        rcases follows with unbound | follows
        · exact .inl unbound
        · rcases enters with again | ⟨unbound, -⟩
          · exact .inr (follows.trans again)
          · exact .inl (follows.trans unbound)
      · exact follows
  | @defer graph pending sealing other name phi _ home _ _ unsealed unbound =>
    obtain ⟨livePhi, -⟩ := Graph.Fills.pending sound.fills phi (.inr rfl)
    have hasBlock : graph.HasBlock other := home ▸ sound.consistent.hasBlock livePhi
    have elsewhere : block ≠ other := by
      rintro rfl
      exact absurd (closed.symm.trans unsealed) (by decide)
    rw [Graph.binding_defer hasBlock, Graph.binding_defer hasBlock, if_neg fun same => elsewhere same.1]
    split_ifs with there
    · obtain ⟨rfl, rfl⟩ := there
      exact .inl (follows.elim id fun follows => follows.trans unbound)
    · exact follows
  | retire retires =>
    rw [retires.binding, retires.binding]
    exact follows.imp (fun none => by rw [none]; rfl) (congrArg _)

theorem Looks.follows (steps : Looks guard before after) (sound : before.Sound)
    (fits : guard.Fits before.graph) {pred : BlockId}
    (closed : (before.graph.block block).isSealed = true)
    (only : (before.graph.block block).preds = [pred]) (differs : pred ≠ block)
    (follows : before.graph.Follows block pred var) : after.graph.Follows block pred var := by
  induction steps with
  | refl => exact follows
  | tail earlier step ih =>
    have looked := Looks.looked earlier sound fits
    exact step.follows (Looks.sound earlier sound) ((looked.isSealed block).trans closed)
      ((looked.preds block).trans only) differs ih

end Shader
