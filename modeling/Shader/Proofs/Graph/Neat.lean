import Shader.Proofs.Graph.Step

/-! # Phis that are needed

A phi is needed if it has at least two choices. While phis are removed some are not looked at again yet,
and a phi that is being filled or waits has no choices; but nothing else is left with less than two. -/

namespace Shader

namespace Graph

/-- The phis with less than two choices that are neither being filled nor wait. -/
def Loose (pending : Set ValueId) (graph : Graph) : Set ValueId :=
  {phi | graph.IsLive phi ∧ (graph.value phi).opcode = .phi ∧ phi ∉ pending ∧ ¬ graph.Waits phi ∧
    (graph.choices phi).length < 2}

/-- The phis for variables, whether or not they were given up, are one for each block and variable, and
the block has a note of the variable. -/
structure Named (graph : Graph) : Prop where
  bound : ∀ phi var, (graph.value phi).opcode = .phi → (graph.value phi).payload = .var var →
    (graph.binding (graph.value phi).block var).isSome = true
  single : ∀ phi other var, (graph.value phi).opcode = .phi → (graph.value other).opcode = .phi →
    (graph.value phi).payload = .var var → (graph.value other).payload = .var var →
    (graph.value phi).block = (graph.value other).block → phi = other

end Graph

/-- No phi comes loose, and no block gets a second phi for a variable. -/
structure Neatens (before after : Draft) : Prop where
  loose : after.graph.Loose after.pending ⊆ before.graph.Loose before.pending
  named : before.graph.Named → after.graph.Named

variable {before middle after : Draft}

theorem Neatens.refl : Neatens before before := ⟨subset_rfl, id⟩

theorem Neatens.trans (first : Neatens before middle) (second : Neatens middle after) :
    Neatens before after :=
  ⟨second.loose.trans first.loose, fun named => second.named (first.named named)⟩

namespace Graph

variable {graph after : Graph} {pending further : Set ValueId} {sealing others : Set BlockId}
  {block : BlockId} {operation : Operation}

/-- A graph stays neat if its phis are what they were, apart from operands of phis that are being
filled, and blocks keep their notes. -/
theorem neatens_of_nature (nature : ∀ phi, (after.value phi).opcode = .phi →
      phi ∉ further ∨ (∃ var, (after.value phi).payload = .var var) →
      (after.value phi).nature = (graph.value phi).nature)
    (kept : ∀ phi, (after.value phi).opcode = .phi → phi ∉ further →
      (after.value phi).args = (graph.value phi).args ∧ (after.value phi).removed = (graph.value phi).removed)
    (waits : ∀ phi, (after.value phi).opcode = .phi → phi ∈ pending ∨ graph.Waits phi →
      phi ∈ further ∨ after.Waits phi)
    (bound : ∀ block var, (graph.binding block var).isSome = true → (after.binding block var).isSome = true) :
    Neatens ⟨graph, pending, sealing⟩ ⟨after, further, others⟩ := by
  have same (phi : ValueId) (isPhi : (after.value phi).opcode = .phi)
      (matters : phi ∉ further ∨ ∃ var, (after.value phi).payload = .var var) :
      (graph.value phi).opcode = .phi ∧ (after.value phi).payload = (graph.value phi).payload ∧
        (after.value phi).block = (graph.value phi).block := by
    have nature := nature phi isPhi matters
    exact ⟨(Value.opcode_of_nature nature).symm.trans isPhi, Value.payload_of_nature nature,
      Value.block_of_nature nature⟩
  constructor
  · rintro phi ⟨⟨-, live⟩, isPhi, settled, free, few⟩
    have wasPhi := (same phi isPhi (.inl settled)).1
    have has : graph.HasValue phi := hasValue_of_opcode (by rw [wasPhi]; decide)
    obtain ⟨args, removed⟩ := kept phi isPhi settled
    refine ⟨⟨has, removed.symm.trans live⟩, wasPhi, fun found => ?_, fun found => ?_, ?_⟩
    · exact (waits phi isPhi (.inl found)).elim settled free
    · exact (waits phi isPhi (.inr found)).elim settled free
    · rwa [choices, ← args]
  · intro named
    constructor
    · intro phi var isPhi payload
      obtain ⟨wasPhi, samePayload, home⟩ := same phi isPhi (.inr ⟨var, payload⟩)
      rw [home]
      exact bound _ var (named.bound phi var wasPhi (samePayload ▸ payload))
    · intro phi other var isPhi isOther payload payloadOther together
      obtain ⟨wasPhi, samePayload, home⟩ := same phi isPhi (.inr ⟨var, payload⟩)
      obtain ⟨wasOther, sameOther, homeOther⟩ := same other isOther (.inr ⟨var, payloadOther⟩)
      exact named.single phi other var wasPhi wasOther (samePayload ▸ payload)
        (sameOther ▸ payloadOther) (home.symm.trans (together.trans homeOther))

theorem neatens_of_values (values : after.values = graph.values)
    (incomplete : ∀ block, (after.block block).incomplete = (graph.block block).incomplete)
    (bound : ∀ block var, (graph.binding block var).isSome = true → (after.binding block var).isSome = true) :
    Neatens ⟨graph, pending, sealing⟩ ⟨after, pending, others⟩ := by
  have same (value : ValueId) : after.value value = graph.value value := by
    rw [Graph.value, Graph.value, values]
  refine neatens_of_nature (fun phi _ _ => by rw [same]) (fun phi _ _ => by rw [same]; exact ⟨rfl, rfl⟩)
    (fun phi _ waits => ?_) bound
  rwa [Waits, same, incomplete]

section Inserts

variable {left right : List ValueId} (inserts : Inserts graph block operation left right after)

include inserts

theorem Inserts.neatens (notPhi : operation.opcode ≠ .phi) :
    Neatens ⟨graph, pending, sealing⟩ ⟨after, pending, sealing⟩ := by
  have isOld (phi : ValueId) (isPhi : (after.value phi).opcode = .phi) : phi ≠ graph.values.next := by
    rintro rfl
    rw [inserts.value_new] at isPhi
    exact notPhi isPhi
  have core (phi : ValueId) (isPhi : (after.value phi).opcode = .phi) := inserts.core_old (isOld phi isPhi)
  refine neatens_of_nature (fun phi isPhi _ => Value.nature_of_core (core phi isPhi))
    (fun phi isPhi _ => ⟨Value.args_of_core (core phi isPhi), Value.removed_of_core (core phi isPhi)⟩)
    (fun phi isPhi waits => ?_) fun block var bound => by rwa [inserts.binding]
  rwa [Waits, inserts.blockOf_old (isOld phi isPhi), inserts.incomplete]

theorem Inserts.neatens_join (unnamed : ∀ var, operation.payload ≠ .var var) :
    Neatens ⟨graph, pending, sealing⟩ ⟨after, pending ∪ {graph.values.next}, sealing⟩ := by
  refine neatens_of_nature (fun phi _ matters => ?_) (fun phi _ settled => ?_) (fun phi _ waits => ?_)
    fun block var bound => by rwa [inserts.binding]
  · refine Value.nature_of_core (inserts.core_old ?_)
    rintro rfl
    rcases matters with settled | ⟨var, payload⟩
    · exact settled (.inr rfl)
    · rw [inserts.value_new] at payload
      exact unnamed var payload
  · have core := inserts.core_old fun isNew => settled (.inr isNew)
    exact ⟨Value.args_of_core core, Value.removed_of_core core⟩
  · by_cases isNew : phi = graph.values.next
    · exact .inl (.inr isNew)
    · refine waits.imp .inl fun waits => ?_
      rwa [Waits, inserts.blockOf_old isNew, inserts.incomplete]

/-- A block without a note of a variable gets a phi for it, if the phi waits or is filled next and the
block notes it. -/
theorem Inserts.neatens_phi {var : VarId} {last : Graph} (payload : operation.payload = .var var)
    (missing : graph.binding block var = none) (values : last.values = after.values)
    (unsettled : graph.values.next ∈ further ∨ last.Waits graph.values.next)
    (waits : ∀ phi, phi ≠ graph.values.next → phi ∈ pending ∨ graph.Waits phi →
      phi ∈ further ∨ last.Waits phi)
    (bound : ∀ block var, (graph.binding block var).isSome = true →
      (last.binding block var).isSome = true) (noted : (last.binding block var).isSome = true) :
    Neatens ⟨graph, pending, sealing⟩ ⟨last, further, others⟩ := by
  have reads (value : ValueId) : last.value value = after.value value := by
    rw [Graph.value, Graph.value, values]
  have new : last.value graph.values.next = { operation with block } := by
    rw [reads, inserts.value_new]
  have core (value : ValueId) (isOld : value ≠ graph.values.next) :
      (last.value value).core = (graph.value value).core := by
    rw [reads, inserts.core_old isOld]
  constructor
  · rintro phi ⟨live, isPhi, settled, free, few⟩
    have isOld : phi ≠ graph.values.next := by
      rintro rfl
      exact unsettled.elim settled free
    have same := core phi isOld
    have wasPhi := (Value.opcode_of_nature (Value.nature_of_core same)).symm.trans isPhi
    refine ⟨⟨hasValue_of_opcode (by rw [wasPhi]; decide), ?_⟩, wasPhi, fun found => ?_, fun found => ?_, ?_⟩
    · rw [← Value.removed_of_core same]
      exact live.2
    · exact (waits phi isOld (.inl found)).elim settled free
    · exact (waits phi isOld (.inr found)).elim settled free
    · rwa [choices, ← Value.args_of_core same]
  · intro named
    -- a phi for the variable in the block would have been noted
    have alone (phi : ValueId) (name : VarId) (isOld : phi ≠ graph.values.next)
        (isPhi : (last.value phi).opcode = .phi) (isNamed : (last.value phi).payload = .var name) :
        (graph.binding (last.value phi).block name).isSome = true := by
      have nature := Value.nature_of_core (core phi isOld)
      rw [Value.opcode_of_nature nature] at isPhi
      rw [Value.payload_of_nature nature] at isNamed
      rw [Value.block_of_nature nature]
      exact named.bound phi name isPhi isNamed
    have clash (phi : ValueId) (name : VarId) (isOld : phi ≠ graph.values.next)
        (isPhi : (last.value phi).opcode = .phi) (isNamed : (last.value phi).payload = .var name)
        (newNamed : (last.value graph.values.next).payload = .var name)
        (home : (last.value phi).block = (last.value graph.values.next).block) : False := by
      have found := alone phi name isOld isPhi isNamed
      rw [new] at newNamed home
      obtain rfl : var = name := Payload.var.inj (payload.symm.trans newNamed)
      rw [home, missing] at found
      cases found
    constructor
    · intro phi name isPhi isNamed
      by_cases isNew : phi = graph.values.next
      · subst isNew
        rw [new] at isNamed ⊢
        obtain rfl : var = name := Payload.var.inj (payload.symm.trans isNamed)
        exact noted
      · exact bound _ name (alone phi name isNew isPhi isNamed)
    · intro first second name isFirst isSecond named₁ named₂ together
      by_cases newFirst : first = graph.values.next
      · by_cases newSecond : second = graph.values.next
        · rw [newFirst, newSecond]
        · subst newFirst
          exact (clash second name newSecond isSecond named₂ named₁ together.symm).elim
      · by_cases newSecond : second = graph.values.next
        · subst newSecond
          exact (clash first name newFirst isFirst named₁ named₂ together).elim
        · have natureFirst := Value.nature_of_core (core first newFirst)
          have natureSecond := Value.nature_of_core (core second newSecond)
          rw [Value.opcode_of_nature natureFirst] at isFirst
          rw [Value.opcode_of_nature natureSecond] at isSecond
          rw [Value.payload_of_nature natureFirst] at named₁
          rw [Value.payload_of_nature natureSecond] at named₂
          rw [Value.block_of_nature natureFirst, Value.block_of_nature natureSecond] at together
          exact named.single first second name isFirst isSecond named₁ named₂ together

end Inserts

section NewPhi

variable {left right : List ValueId} {var : VarId}
  (inserts : Inserts graph block operation left right after) (payload : operation.payload = .var var)
  (missing : graph.binding block var = none)

include inserts payload missing

theorem Inserts.neatens_note : Neatens ⟨graph, pending, sealing⟩
    ⟨after.bind block var graph.values.next, pending ∪ {graph.values.next}, sealing⟩ := by
  have has := (inserts.hasBlock block).2 inserts.has
  refine inserts.neatens_phi payload missing rfl (.inl (.inr rfl)) (fun phi isOld waits => ?_)
    (fun other name bound => ?_) ?_
  · refine waits.imp .inl fun waits => ?_
    change ∃ name, (name, phi) ∈ ((after.bind block var _).block (after.value phi).block).incomplete
    rw [incomplete_bind, inserts.incomplete, inserts.blockOf_old isOld]
    exact waits
  · rw [binding_bind has]
    split_ifs
    · rfl
    · rwa [inserts.binding]
  · rw [binding_bind has, if_pos ⟨rfl, rfl⟩]
    rfl

theorem Inserts.neatens_defer : Neatens ⟨graph, pending, sealing⟩
    ⟨after.defer block var graph.values.next, pending, sealing⟩ := by
  have has := (inserts.hasBlock block).2 inserts.has
  refine inserts.neatens_phi payload missing rfl (.inr ⟨var, ?_⟩)
    (fun phi isOld waits => ?_) (fun other name bound => ?_) ?_
  · change (var, _) ∈ ((after.defer block var _).block (after.value _).block).incomplete
    rw [inserts.value_new, block_defer has, if_pos rfl]
    simp
  · refine waits.imp_right fun ⟨name, waits⟩ => ⟨name, ?_⟩
    change (name, phi) ∈ ((after.defer block var _).block (after.value phi).block).incomplete
    rw [inserts.blockOf_old isOld, block_defer has]
    rw [← inserts.incomplete] at waits
    split_ifs
    · exact List.mem_append_left _ waits
    · exact waits
  · rw [binding_defer has]
    split_ifs
    · rfl
    · rwa [inserts.binding]
  · rw [binding_defer has, if_pos ⟨rfl, rfl⟩]
    rfl

end NewPhi

theorem neatens_addArg {phi arg : ValueId} (livePhi : graph.IsLive phi) (live : graph.IsLive arg)
    (filling : phi ∈ pending) :
    Neatens ⟨graph, pending, sealing⟩ ⟨graph.addArg phi arg, pending, sealing⟩ := by
  refine neatens_of_nature (fun value _ _ => ?_) (fun value _ settled => ?_) (fun value _ waits => ?_)
    fun _ _ bound => bound
  · rw [value_addArg livePhi.1 live.1]
    rfl
  · have differs : value ≠ phi := by
      rintro rfl
      exact settled filling
    exact ⟨args_addArg_of_ne livePhi live differs, removed_addArg livePhi live value⟩
  · rw [Waits, blockOf_addArg livePhi live]
    exact waits

theorem neatens_bind {var : VarId} {value : ValueId} (has : graph.HasBlock block) :
    Neatens ⟨graph, pending, sealing⟩ ⟨graph.bind block var value, pending, sealing⟩ := by
  refine neatens_of_values rfl incomplete_bind fun other name bound => ?_
  rw [binding_bind has]
  split_ifs
  · rfl
  · exact bound

theorem neatens_release (has : graph.HasBlock block) : Neatens ⟨graph, ∅, sealing⟩ ⟨graph.release block,
      {phi | ∃ var, (var, phi) ∈ (graph.block block).incomplete}, others⟩ := by
  refine neatens_of_nature (fun _ _ _ => rfl) (fun _ _ _ => ⟨rfl, rfl⟩) (fun phi _ waits => ?_)
    fun other var bound => ?_
  · rcases waits with none | ⟨var, waits⟩
    · exact absurd none (Set.notMem_empty phi)
    · by_cases home : (graph.value phi).block = block
      · exact .inl ⟨var, home ▸ waits⟩
      · refine .inr ⟨var, ?_⟩
        change (var, phi) ∈ ((graph.release block).block (graph.value phi).block).incomplete
        rwa [block_release has, if_neg home]
  · rw [binding, block_release has]
    split_ifs <;> exact bound

theorem neatens_modifyBlock {change : Block → Block}
    (incomplete : ∀ node, (change node).incomplete = node.incomplete := by exact fun _ => rfl)
    (bindings : ∀ node, (change node).bindings = node.bindings := by exact fun _ => rfl) :
    Neatens ⟨graph, pending, sealing⟩ ⟨graph.modifyBlock block change, pending, others⟩ := by
  refine neatens_of_values rfl (fun other => field_modifyBlock _ block other incomplete)
    fun other var bound => ?_
  rwa [binding, field_modifyBlock Block.bindings block other bindings]

theorem neatens_newBlock (name : String) : Neatens ⟨graph, pending, sealing⟩
      ⟨{ graph with blocks := graph.blocks.append { name } }, pending, sealing⟩ := by
  refine neatens_of_values rfl (block_append_named name Block.incomplete rfl) fun other var bound => ?_
  rwa [binding, block_append_named name Block.bindings rfl]

theorem neatens_beside (values : after.values = graph.values) (blocks : after.blocks = graph.blocks) :
    Neatens ⟨graph, pending, sealing⟩ ⟨after, pending, sealing⟩ := by
  have same (block : BlockId) : after.block block = graph.block block := by
    rw [Graph.block, Graph.block, blocks]
  refine neatens_of_values values (fun block => by rw [same]) fun block var bound => ?_
  rwa [binding, same]

theorem Ends.neatens {source : BlockId} (ends : Ends graph source operation) :
    Neatens ⟨graph, pending, sealing⟩ ⟨graph.endBlock source operation, pending, sealing⟩ := by
  have joined : Neatens ⟨graph, pending, sealing⟩
      ⟨graph.joinTo source operation.payload.blocks, pending, sealing⟩ :=
    neatens_of_values ends.joins.keeps.values ends.joins.incomplete fun block var bound => by
      rwa [ends.joins.binding]
  refine joined.trans (ends.inserts.neatens fun isPhi => ?_)
  have isEnding := ends.isEnding
  rw [isPhi] at isEnding
  cases isEnding

end Graph

end Shader
