import Shader.Proofs.Graph.Sound

/-! # Giving phis up

A phi with only one choice is given up for it: the choice takes its place as an operand and as what
variables are bound to. -/

namespace Shader

namespace Graph

variable {graph after : Graph} {pending : Set ValueId} {sealing : Set BlockId} {phi same : ValueId}

/-- A graph is another one with a phi given up for a value that can stand in its place. -/
structure Retires (graph : Graph) (phi same : ValueId) (after : Graph) : Prop where
  eq : after = graph.retire phi same
  consistent : graph.Consistent
  replaces : graph.Replaces
  laidOut : graph.LaidOut
  live : graph.IsLive phi
  isPhi : (graph.value phi).opcode = .phi
  liveSame : graph.IsLive same
  differs : phi ≠ same
  dominates : ∀ block, graph.Dominates (graph.value phi).block block →
    graph.Dominates (graph.value same).block block
  /-- The value is not in the block of the phi, unless that is never reached. -/
  away : graph.Reaches (graph.value phi).block → (graph.value same).block ≠ (graph.value phi).block

namespace Retires

variable {value : ValueId}

variable (retires : Retires graph phi same after)

include retires

/-! ## The values -/

theorem spec : (∀ value, after.HasValue value ↔ graph.HasValue value) ∧
      (∀ value, value ≠ phi → (after.value value).core =
        { (graph.value value).core with
          args := (graph.value value).args.map (exchange phi same) }) ∧
      after.value phi =
        { (graph.value phi).shell with removed := true, replacedBy := some same } ∧
      after.EdgesAgree := by
  rw [retires.eq]
  exact retire_spec retires.consistent.edges retires.live.1 retires.liveSame.1 retires.differs

theorem hasValue (value : ValueId) : after.HasValue value ↔ graph.HasValue value := retires.spec.1 value

theorem core_old (differs : value ≠ phi) : (after.value value).core =
      { (graph.value value).core with
        args := (graph.value value).args.map (exchange phi same) } :=
  retires.spec.2.1 value differs

theorem value_phi :
    after.value phi = { (graph.value phi).shell with removed := true, replacedBy := some same } :=
  retires.spec.2.2.1

theorem keeps {α : Type} (field : Value → α) (ignores : ∀ (value : Value) args uses removed replacedBy,
      field { value with
        args := args, uses := uses, removed := removed, replacedBy := replacedBy } = field value)
    (value : ValueId) : field (after.value value) = field (graph.value value) := by
  have shellOf (value : Value) : field value.core = field value :=
    ignores value value.args [] value.removed value.replacedBy
  by_cases isPhi : value = phi
  · rw [isPhi, retires.value_phi]
    exact ignores (graph.value phi) [] [] true (some same)
  · rw [← shellOf, retires.core_old isPhi, ← shellOf (graph.value value)]
    exact ignores (graph.value value).core _ _ _ _

theorem opcode (value : ValueId) : (after.value value).opcode = (graph.value value).opcode :=
  retires.keeps (fun value => value.opcode) (fun _ _ _ _ _ => rfl) value

theorem blockOf (value : ValueId) : (after.value value).block = (graph.value value).block :=
  retires.keeps (fun value => value.block) (fun _ _ _ _ _ => rfl) value

theorem payload (value : ValueId) : (after.value value).payload = (graph.value value).payload :=
  retires.keeps (fun value => value.payload) (fun _ _ _ _ _ => rfl) value

theorem args_old (differs : value ≠ phi) :
    (after.value value).args = (graph.value value).args.map (exchange phi same) := by
  have kept := congrArg (fun value : Value => value.args) (retires.core_old differs)
  exact kept

theorem args_phi : (after.value phi).args = [] := by
  rw [retires.value_phi]
  rfl

theorem removed_old (differs : value ≠ phi) : (after.value value).removed = (graph.value value).removed := by
  have kept := congrArg (fun value : Value => value.removed) (retires.core_old differs)
  exact kept

theorem replacedBy_old (differs : value ≠ phi) :
    (after.value value).replacedBy = (graph.value value).replacedBy := by
  have kept := congrArg (fun value : Value => value.replacedBy) (retires.core_old differs)
  exact kept

theorem removed_phi : (after.value phi).removed = true := by
  rw [retires.value_phi]

theorem replacedBy_phi : (after.value phi).replacedBy = some same := by
  rw [retires.value_phi]

theorem isLive (value : ValueId) : after.IsLive value ↔ graph.IsLive value ∧ value ≠ phi := by
  by_cases isPhi : value = phi
  · simp [IsLive, isPhi, retires.removed_phi]
  · rw [IsLive, IsLive, retires.hasValue, retires.removed_old isPhi]
    simp [isPhi]

theorem live_exchange (live : graph.IsLive value) : after.IsLive (exchange phi same value) := by
  rw [retires.isLive]
  unfold exchange
  split_ifs with isPhi
  · exact ⟨retires.liveSame, retires.differs.symm⟩
  · exact ⟨live, isPhi⟩

theorem isPhi_eq : after.isPhi = graph.isPhi := by
  funext value
  rw [Graph.isPhi, Graph.isPhi, retires.opcode]

theorem isPlain_eq : after.isPlain = graph.isPlain := by
  funext value
  rw [isPlain, isPlain, retires.isPhi_eq, retires.opcode]

/-! ## The blocks -/

theorem block_eq (block : BlockId) : after.block block =
      { graph.block block with
        values := (graph.block block).values.filter (· != phi)
        bindings := (graph.block block).bindings.mapValues (exchange phi same) } := by
  rw [retires.eq]
  refine block_retire retires.consistent.edges retires.live.1 retires.liveSame.1 retires.differs
    (retires.consistent.hasBlock retires.live)
    (fun block => (retires.consistent.mem_values_iff retires.live).1) (fun block ending => ?_) block
  have isEnding := retires.laidOut.ending block phi ending
  rw [retires.isPhi] at isEnding
  exact Bool.false_ne_true isEnding

theorem frame : after =
      { graph with
        values := after.values
        blocks := after.blocks
        slots := graph.slots.mapValues (exchange phi same)
        isEditing := false } := by
  rw [retires.eq]
  conv_lhs => rw [retire_eq retires.consistent.edges retires.live.1 retires.liveSame.1 retires.differs]
  conv_rhs => rw [retire_eq retires.consistent.edges retires.live.1 retires.liveSame.1 retires.differs]

theorem entry : after.entry = graph.entry := by
  rw [retires.frame]

theorem current : after.current = graph.current := by
  rw [retires.frame]

theorem size_blocks : after.blocks.size = graph.blocks.size := by
  rw [retires.eq, retire_eq retires.consistent.edges retires.live.1 retires.liveSame.1 retires.differs]
  simp [Arena.map, Arena.size, Arena.modify]

theorem hasBlock (block : BlockId) : after.HasBlock block ↔ graph.HasBlock block := by
  rw [HasBlock, HasBlock, retires.size_blocks]

theorem preds (block : BlockId) : (after.block block).preds = (graph.block block).preds := by
  rw [retires.block_eq]

theorem succs (block : BlockId) : (after.block block).succs = (graph.block block).succs := by
  rw [retires.block_eq]

theorem ending (block : BlockId) : (after.block block).ending = (graph.block block).ending := by
  rw [retires.block_eq]

theorem isSealed (block : BlockId) : (after.block block).isSealed = (graph.block block).isSealed := by
  rw [retires.block_eq]

theorem incomplete (block : BlockId) : (after.block block).incomplete = (graph.block block).incomplete := by
  rw [retires.block_eq]

theorem places (block : BlockId) :
    (after.block block).values = (graph.block block).values.filter (· != phi) := by
  rw [retires.block_eq]

theorem binding (block : BlockId) (var : VarId) :
    after.binding block var = (graph.binding block var).map (exchange phi same) := by
  rw [Graph.binding, retires.block_eq]
  exact Table.find?_mapValues _ _ _

theorem slot (var : VarId) : after.slots.find? var = (graph.slots.find? var).map (exchange phi same) := by
  rw [retires.frame]
  exact Table.find?_mapValues _ _ _

theorem slot_same (var : VarId) : after.slots.find? var = graph.slots.find? var := by
  rw [retires.slot]
  cases found : graph.slots.find? var with
  | none => rfl
  | some value =>
    have differs : value ≠ phi := by
      rintro rfl
      have alloca := retires.laidOut.slot var value found
      rw [retires.isPhi] at alloca
      cases alloca
    simp [exchange, differs]

theorem reaches (block : BlockId) : after.Reaches block ↔ graph.Reaches block :=
  reaches_congr retires.entry retires.preds

theorem dominates_iff (other block : BlockId) : after.Dominates other block ↔ graph.Dominates other block :=
  dominates_congr retires.entry retires.preds

/-! ## What giving a phi up keeps -/

theorem consistent_after (unwaiting : ∀ block var, (var, phi) ∉ (graph.block block).incomplete) :
    after.Consistent where
  edges := retires.spec.2.2.2
  removed_args value gone := by
    by_cases isPhi : value = phi
    · rw [isPhi, retires.args_phi]
    · rw [retires.removed_old isPhi] at gone
      rw [retires.args_old isPhi, retires.consistent.removed_args value gone, List.map_nil]
  removed_uses value gone := by
    by_cases isPhi : value = phi
    · rw [isPhi, retires.value_phi]
      rfl
    · rw [retires.removed_old isPhi] at gone
      refine List.eq_nil_iff_forall_not_mem.2 fun user used => ?_
      have operand := retires.spec.2.2.2.mem_uses_iff.1 used
      have isUser : user ≠ phi := by
        rintro rfl
        rw [retires.args_phi] at operand
        exact List.not_mem_nil operand
      rw [retires.args_old isUser] at operand
      obtain ⟨arg, found, exchanged⟩ := List.mem_map.1 operand
      have live := retires.live_exchange (retires.consistent.live_arg found)
      rw [exchanged, retires.isLive] at live
      exact absurd live.1.2 (by simp [gone])
  placed value block live := by
    obtain ⟨live, isPhi⟩ := (retires.isLive value).1 live
    rw [retires.places, retires.blockOf, List.count_filter (by simpa using isPhi)]
    exact retires.consistent.placed value block live
  listed block value found := by
    rw [retires.places] at found
    obtain ⟨found, isPhi⟩ := List.mem_filter.1 found
    exact (retires.isLive value).2 ⟨retires.consistent.listed block value found, by simpa using isPhi⟩
  bound block var value found := by
    rw [retires.binding] at found
    obtain ⟨old, isBound, rfl⟩ := Option.map_eq_some_iff.1 found
    exact retires.live_exchange (retires.consistent.bound block var old isBound)
  slots var value found := by
    rw [retires.slot] at found
    obtain ⟨old, isBound, rfl⟩ := Option.map_eq_some_iff.1 found
    exact retires.live_exchange (retires.consistent.slots var old isBound)
  waiting block var value found := by
    rw [retires.incomplete] at found
    refine (retires.isLive value).2 ⟨retires.consistent.waiting block var value found, ?_⟩
    rintro rfl
    exact unwaiting block var found

theorem removedCount_after : after.removedCount = graph.removedCount + 1 := by
  have split : (Finset.range after.values.size).filter
      (fun index => (after.value ⟨index⟩).removed = true) =
      Insert.insert phi.index ((Finset.range graph.values.size).filter fun index =>
        (graph.value ⟨index⟩).removed = true) := by
    ext index
    have size : index < after.values.size ↔ index < graph.values.size := retires.hasValue ⟨index⟩
    simp only [Finset.mem_filter, Finset.mem_range, Finset.mem_insert, size]
    by_cases isPhi : index = phi.index
    · subst isPhi
      have inside : phi.index < graph.values.size := retires.live.1
      have gone : (after.value ⟨phi.index⟩).removed = true := retires.removed_phi
      simp [inside, gone]
    · have differs : (⟨index⟩ : ValueId) ≠ phi := fun equal => isPhi (congrArg Handle.index equal)
      simp [isPhi, retires.removed_old differs]
  have kept : (graph.value ⟨phi.index⟩).removed = false := retires.live.2
  rw [removedCount, split, Finset.card_insert_of_notMem (by simp [kept]), removedCount]

theorem resolveWithin_of_ne (steps : Nat) (value : ValueId)
    (leads : graph.resolveWithin steps value ≠ phi) :
    after.resolveWithin steps value = graph.resolveWithin steps value := by
  induction steps generalizing value with
  | zero => rfl
  | succ steps ih =>
    by_cases isPhi : value = phi
    · rw [isPhi, retires.replaces.resolveWithin_live retires.live] at leads
      exact absurd rfl leads
    · simp only [resolveWithin, retires.replacedBy_old isPhi] at leads ⊢
      cases next : (graph.value value).replacedBy with
      | none => rfl
      | some other =>
        rw [next] at leads
        exact ih other leads

theorem resolveWithin_same (steps : Nat) : after.resolveWithin steps same = same := by
  cases steps with
  | zero => rfl
  | succ steps =>
    simp [resolveWithin, retires.replacedBy_old retires.differs.symm,
      retires.replaces.kept same retires.liveSame]

theorem resolveWithin_of_eq (steps : Nat) (value : ValueId)
    (leads : graph.resolveWithin steps value = phi) :
    after.resolveWithin (steps + 1) value = same := by
  induction steps generalizing value with
  | zero =>
    have isPhi : value = phi := leads
    rw [isPhi]
    simp [resolveWithin, retires.replacedBy_phi]
  | succ steps ih =>
    by_cases isPhi : value = phi
    · rw [isPhi, resolveWithin, retires.replacedBy_phi]
      exact retires.resolveWithin_same _
    · rw [resolveWithin] at leads
      rw [resolveWithin, retires.replacedBy_old isPhi]
      cases next : (graph.value value).replacedBy with
      | none =>
        rw [next] at leads
        exact absurd leads isPhi
      | some other =>
        rw [next] at leads
        exact ih other leads

theorem replaces_after : after.Replaces where
  kept value live := by
    obtain ⟨live, isPhi⟩ := (retires.isLive value).1 live
    rw [retires.replacedBy_old isPhi]
    exact retires.replaces.kept value live
  survivor value has := by
    obtain ⟨steps, few, live⟩ := retires.replaces.survivor value ((retires.hasValue value).1 has)
    rw [retires.removedCount_after]
    by_cases leads : graph.resolveWithin steps value = phi
    · refine ⟨steps + 1, by omega, ?_⟩
      rw [retires.resolveWithin_of_eq steps value leads]
      exact (retires.isLive same).2 ⟨retires.liveSame, retires.differs.symm⟩
    · refine ⟨steps, by omega, ?_⟩
      rw [retires.resolveWithin_of_ne steps value leads]
      exact (retires.isLive _).2 ⟨live, leads⟩

theorem resolve_eq (has : graph.HasValue value) :
    after.resolve value = exchange phi same (graph.resolve value) := by
  obtain ⟨steps, few, leadsTo, live⟩ := retires.replaces.resolve_eq has
  have enough := @removedCount_le after
  rw [retires.removedCount_after] at enough
  have fixed (total : Nat) (much : graph.removedCount + 1 ≤ total) :
      after.resolveWithin total value = exchange phi same (graph.resolve value) := by
    unfold exchange
    split_ifs with isPhi
    · have cut : total = steps + 1 + (total - (steps + 1)) := by omega
      rw [cut, resolveWithin_add, retires.resolveWithin_of_eq steps value (leadsTo ▸ isPhi),
        retires.resolveWithin_same]
    · have cut : total = steps + (total - steps) := by omega
      have still : after.IsLive (graph.resolve value) := (retires.isLive _).2 ⟨live, isPhi⟩
      rw [cut, resolveWithin_add, retires.resolveWithin_of_ne steps value (leadsTo ▸ isPhi),
        ← leadsTo, retires.replaces_after.resolveWithin_live still]
  exact fixed _ enough

theorem bodyOf (block : BlockId) : after.bodyOf block = graph.bodyOf block := by
  rw [Graph.bodyOf, Graph.bodyOf, retires.isPlain_eq, retires.places, List.filter_filter]
  refine List.filter_congr fun value _ => ?_
  by_cases isPhi : value = phi
  · subst isPhi
    have plain : graph.isPlain value = false := by
      simp [isPlain, Graph.isPhi, retires.isPhi]
    simp [plain]
  · simp [isPhi]

theorem phisOf (block : BlockId) : after.phisOf block = (graph.phisOf block).filter (· != phi) := by
  rw [Graph.phisOf, Graph.phisOf, retires.isPhi_eq, retires.places, List.filter_filter, List.filter_filter]
  exact List.filter_congr fun value _ => Bool.and_comm _ _

theorem laidOut_after : after.LaidOut where
  parts block := by
    have absent : ∀ value ∈ graph.bodyOf block ++ (graph.block block).ending.toList,
        (value != phi) = true := by
      intro value found
      simp only [bne_iff_ne]
      rintro rfl
      rcases List.mem_append.1 found with found | found
      · have plain := (List.mem_filter.1 found).2
        simp [isPlain, Graph.isPhi, retires.isPhi] at plain
      · have isEnding := retires.laidOut.ending block value (by simpa using found)
        rw [retires.isPhi] at isEnding
        exact Bool.false_ne_true isEnding
    rw [retires.places, retires.phisOf, retires.bodyOf, retires.ending]
    conv_lhs => rw [retires.laidOut.parts block]
    rw [List.append_assoc, List.filter_append, List.filter_eq_self.2 absent, List.append_assoc]
  ending block value found := by
    rw [retires.ending] at found
    rw [retires.opcode]
    exact retires.laidOut.ending block value found
  slot var value found := by
    rw [retires.slot_same] at found
    rw [retires.opcode]
    exact retires.laidOut.slot var value found

theorem flows (before : graph.Flows) : after.Flows where
  hasEntry := by
    rw [retires.hasBlock, retires.entry]
    exact before.hasEntry
  hasCurrent := by
    rw [retires.hasBlock, retires.current]
    exact before.hasCurrent
  entry_sealed := by
    rw [retires.isSealed, retires.entry]
    exact before.entry_sealed
  entry_preds := by
    rw [retires.preds, retires.entry]
    exact before.entry_preds
  edges source target := by
    rw [retires.succs, retires.preds]
    exact before.edges source target
  preds_nodup block := by
    rw [retires.preds]
    exact before.preds_nodup block
  succs_nodup block := by
    rw [retires.succs]
    exact before.succs_nodup block
  succs block := by
    have targets : after.targetsOf block = graph.targetsOf block := by
      simp only [targetsOf, retires.ending, retires.payload]
    rw [retires.succs, targets]
    exact before.succs block
  ranks := by
    obtain ⟨rank, ranks⟩ := before.ranks
    have count : after.sealedCount = graph.sealedCount := by
      simp only [sealedCount, retires.size_blocks, retires.isSealed]
    refine ⟨rank, fun block => count ▸ ranks.le block, fun block pred closed only => ?_⟩
    rw [retires.isSealed] at closed
    rw [retires.preds] at only
    exact ranks.lt block pred closed only

theorem fills (before : graph.Fills pending sealing) (settled : phi ∉ pending) :
    after.Fills pending sealing where
  arity other live isPhi := by
    obtain ⟨live, differs⟩ := (retires.isLive other).1 live
    rw [retires.opcode] at isPhi
    simp only [Waits, IsFilled, retires.blockOf, retires.args_old differs, List.length_map,
      retires.incomplete, retires.isSealed, retires.preds]
    exact before.arity other live isPhi
  waits block var other found := by
    rw [retires.incomplete] at found
    obtain ⟨isPhi, home, args, unsealed, noted, named⟩ := before.waits block var other found
    have empty : (after.value other).args = [] := by
      by_cases isPhi : other = phi
      · rw [isPhi, retires.args_phi]
      · rw [retires.args_old isPhi, args, List.map_nil]
    rw [retires.opcode, retires.blockOf, retires.isSealed, retires.binding, Option.isSome_map,
      retires.payload]
    exact ⟨isPhi, home, empty, unsealed, noted, named⟩
  waits_nodup block := by
    rw [retires.incomplete]
    exact before.waits_nodup block
  pending other found := by
    obtain ⟨live, isPhi, free⟩ := before.pending other found
    have differs : other ≠ phi := by
      rintro rfl
      exact settled found
    refine ⟨(retires.isLive other).2 ⟨live, differs⟩, ?_, ?_⟩
    · rwa [retires.opcode]
    · rwa [Waits, retires.blockOf, retires.incomplete]
  notEntry other live isPhi := by
    rw [retires.opcode] at isPhi
    rw [retires.blockOf, retires.entry]
    exact before.notEntry other ((retires.isLive other).1 live).1 isPhi

theorem dominates_exchange {block : BlockId}
    (before : graph.Dominates (graph.value value).block block) :
    graph.Dominates (graph.value (exchange phi same value)).block block := by
  unfold exchange
  split_ifs with isPhi
  · exact retires.dominates block (isPhi ▸ before)
  · exact before

theorem strict (before : graph.Strict) : after.Strict where
  operand user arg plain used := by
    rw [retires.opcode] at plain
    have isUser : user ≠ phi := by
      rintro rfl
      exact plain retires.isPhi
    rw [retires.args_old isUser] at used
    obtain ⟨old, found, rfl⟩ := List.mem_map.1 used
    obtain ⟨dominates, inOrder⟩ := before.operand user old plain found
    simp only [retires.blockOf, retires.dominates_iff, retires.reaches, retires.places]
    refine ⟨retires.dominates_exchange dominates, fun reached home => ?_⟩
    by_cases isPhi : old = phi
    · -- the value would be in the block of the user, and so would the phi that it dominates
      subst isPhi
      rw [exchange, if_pos rfl] at home
      have reachedPhi : graph.Reaches (graph.value old).block := dominates.reaches reached
      have backward := retires.dominates _ dominates_self
      rw [home] at backward
      exact absurd (home.trans (Dominates.antisymm reachedPhi backward dominates)) (retires.away reachedPhi)
    · rw [exchange, if_neg isPhi] at home ⊢
      have kept : [old, user].filter (· != phi) = [old, user] := by
        simp [isPhi, isUser]
      rw [← kept]
      exact (inOrder reached home).filter _
  choice other isPhi position arg pred found source := by
    rw [retires.opcode] at isPhi
    rw [retires.blockOf, retires.preds] at source
    rw [retires.dominates_iff, retires.blockOf]
    by_cases differs : other = phi
    · rw [differs, retires.args_phi] at found
      simp at found
    · rw [retires.args_old differs, List.getElem?_map] at found
      obtain ⟨old, isOld, rfl⟩ := Option.map_eq_some_iff.1 found
      exact retires.dominates_exchange (before.choice other isPhi position old pred isOld source)
  bound block var value found := by
    rw [retires.binding] at found
    obtain ⟨old, isBound, rfl⟩ := Option.map_eq_some_iff.1 found
    rw [retires.dominates_iff, retires.blockOf]
    exact retires.dominates_exchange (before.bound block var old isBound)

end Retires

theorem Sound.retires (sound : graph.Sound pending sealing) (retires : Retires graph phi same after)
    (settled : phi ∉ pending) (free : ¬ graph.Waits phi) : after.Sound pending sealing where
  idle := by rw [retires.frame]
  consistent := retires.consistent_after fun block var found => by
    obtain ⟨-, home, -⟩ := sound.fills.waits block var phi found
    exact free ⟨var, home.symm ▸ found⟩
  replaces := retires.replaces_after
  laidOut := retires.laidOut_after
  flows := retires.flows sound.flows
  fills := retires.fills sound.fills settled
  strict := retires.strict sound.strict

end Graph

end Shader
