import Shader.Proofs.Graph.Sound

/-! # Filling phis

A phi gets its operands one after the other, and is filled when it has one for each predecessor. -/

namespace Shader

namespace Graph

variable {graph : Graph} {pending : Set ValueId} {sealing : Set BlockId} {phi arg : ValueId}

theorem Sound.settle (sound : graph.Sound (pending ∪ {phi}) sealing) (filled : graph.IsFilled phi)
    (closed : (graph.block (graph.value phi).block).isSealed = true ∨
      (graph.value phi).block ∈ sealing) : graph.Sound pending sealing where
  idle := sound.idle
  consistent := sound.consistent
  replaces := sound.replaces
  laidOut := sound.laidOut
  flows := sound.flows
  strict := sound.strict
  fills :=
    { waits := sound.fills.waits
      waits_nodup := sound.fills.waits_nodup
      notEntry := sound.fills.notEntry
      pending := fun other found => sound.fills.pending other (.inl found)
      arity := by
        intro other live isPhi
        rcases sound.fills.arity other live isPhi with (found | rfl) | known
        · exact .inl found
        · exact .inr (.inr ⟨filled, closed⟩)
        · exact .inr known }

theorem reaches_addArg (block : BlockId) : (graph.addArg phi arg).Reaches block ↔ graph.Reaches block :=
  reaches_congr rfl fun _ => rfl

theorem dominates_addArg (other block : BlockId) :
    (graph.addArg phi arg).Dominates other block ↔ graph.Dominates other block :=
  dominates_congr rfl fun _ => rfl

section AddArg

variable (live : graph.IsLive phi) (liveArg : graph.IsLive arg)

include live liveArg

theorem shell_addArg (value : ValueId) :
    ((graph.addArg phi arg).value value).shell = (graph.value value).shell := by
  rw [value_addArg live.1 liveArg.1]
  rfl

theorem args_addArg (value : ValueId) : ((graph.addArg phi arg).value value).args =
      (graph.value value).args ++ if value = phi then [arg] else [] := by
  rw [value_addArg live.1 liveArg.1]

theorem args_addArg_of_ne {value : ValueId} (differs : value ≠ phi) :
    ((graph.addArg phi arg).value value).args = (graph.value value).args := by
  rw [args_addArg live liveArg, if_neg differs, List.append_nil]

theorem opcode_addArg (value : ValueId) :
    ((graph.addArg phi arg).value value).opcode = (graph.value value).opcode := by
  rw [value_addArg live.1 liveArg.1]

theorem blockOf_addArg (value : ValueId) :
    ((graph.addArg phi arg).value value).block = (graph.value value).block := by
  rw [value_addArg live.1 liveArg.1]

theorem payload_addArg (value : ValueId) :
    ((graph.addArg phi arg).value value).payload = (graph.value value).payload := by
  rw [value_addArg live.1 liveArg.1]

theorem removed_addArg (value : ValueId) :
    ((graph.addArg phi arg).value value).removed = (graph.value value).removed := by
  rw [value_addArg live.1 liveArg.1]

theorem isLive_addArg (value : ValueId) : (graph.addArg phi arg).IsLive value ↔ graph.IsLive value := by
  rw [IsLive, IsLive, hasValue_addArg, removed_addArg live liveArg]

theorem isPhi_addArg : (graph.addArg phi arg).isPhi = graph.isPhi := by
  funext value
  rw [isPhi, isPhi, opcode_addArg live liveArg]

theorem isPlain_addArg : (graph.addArg phi arg).isPlain = graph.isPlain := by
  funext value
  rw [isPlain, isPlain, isPhi_addArg live liveArg, opcode_addArg live liveArg]

theorem consistent_addArg (before : graph.Consistent) : (graph.addArg phi arg).Consistent where
  edges user value := by
    have agree := before.edges user value
    rw [value_addArg live.1 liveArg.1, value_addArg live.1 liveArg.1]
    simp only [List.count_append, agree]
    by_cases isUser : user = phi <;> by_cases isArg : value = arg <;>
      simp [isUser, isArg, Ne.symm]
  removed_args value removed := by
    rw [removed_addArg live liveArg] at removed
    have differs : value ≠ phi := by
      rintro rfl
      exact absurd removed (by simp [live.2])
    rw [args_addArg_of_ne live liveArg differs]
    exact before.removed_args value removed
  removed_uses value removed := by
    rw [removed_addArg live liveArg] at removed
    have differs : value ≠ arg := by
      rintro rfl
      exact absurd removed (by simp [liveArg.2])
    rw [value_addArg live.1 liveArg.1]
    simp [differs, before.removed_uses value removed]
  placed value block isLive := by
    rw [blockOf_addArg live liveArg]
    exact before.placed value block ((isLive_addArg live liveArg value).1 isLive)
  listed block value found := (isLive_addArg live liveArg value).2 (before.listed block value found)
  bound block var value found := (isLive_addArg live liveArg value).2 (before.bound block var value found)
  slots var value found := (isLive_addArg live liveArg value).2 (before.slots var value found)
  waiting block var value found := (isLive_addArg live liveArg value).2 (before.waiting block var value found)

theorem resolveWithin_addArg (steps : Nat) (value : ValueId) :
    (graph.addArg phi arg).resolveWithin steps value = graph.resolveWithin steps value := by
  induction steps generalizing value with
  | zero => rfl
  | succ steps ih =>
    have same : ((graph.addArg phi arg).value value).replacedBy = (graph.value value).replacedBy := by
      rw [value_addArg live.1 liveArg.1]
    simp only [resolveWithin, same, ih]

theorem replaces_addArg (before : graph.Replaces) : (graph.addArg phi arg).Replaces where
  kept value isLive := by
    have kept := before.kept value ((isLive_addArg live liveArg value).1 isLive)
    rwa [value_addArg live.1 liveArg.1]
  survivor value has := by
    obtain ⟨steps, few, survives⟩ := before.survivor value (hasValue_addArg.1 has)
    refine ⟨steps, ?_, ?_⟩
    · simpa only [removedCount, size_values_addArg, removed_addArg live liveArg] using few
    · rwa [resolveWithin_addArg live liveArg, isLive_addArg live liveArg]

theorem laidOut_addArg (before : graph.LaidOut) : (graph.addArg phi arg).LaidOut where
  parts block := by
    have parts := before.parts block
    rw [phisOf, bodyOf, isPhi_addArg live liveArg, isPlain_addArg live liveArg]
    exact parts
  ending block value found := by
    rw [opcode_addArg live liveArg]
    exact before.ending block value found
  slot var value found := by
    rw [opcode_addArg live liveArg]
    exact before.slot var value found

theorem flows_addArg (before : graph.Flows) : (graph.addArg phi arg).Flows :=
  { before with
    succs := by
      intro block
      have succs := before.succs block
      simp only [targetsOf, block_addArg, payload_addArg live liveArg]
      exact succs
    ranks := by
      obtain ⟨rank, ranks⟩ := before.ranks
      exact ⟨rank, ranks.le, ranks.lt⟩ }

theorem fills_addArg (before : graph.Fills pending sealing) (found : phi ∈ pending) :
    (graph.addArg phi arg).Fills pending sealing where
  arity other isLive isPhi := by
    rw [opcode_addArg live liveArg] at isPhi
    by_cases isFilled : other = phi
    · exact .inl (isFilled ▸ found)
    · have known := before.arity other ((isLive_addArg live liveArg other).1 isLive) isPhi
      simpa only [Waits, IsFilled, blockOf_addArg live liveArg, args_addArg_of_ne live liveArg isFilled,
        block_addArg] using known
  waits block var other waits := by
    obtain ⟨isPhi, home, args, rest⟩ := before.waits block var other waits
    have differs : other ≠ phi := by
      rintro rfl
      exact (before.pending other found).2.2 ⟨var, home.symm ▸ waits⟩
    rw [opcode_addArg live liveArg, blockOf_addArg live liveArg,
      args_addArg_of_ne live liveArg differs, payload_addArg live liveArg]
    exact ⟨isPhi, home, args, rest⟩
  waits_nodup := before.waits_nodup
  pending other found := by
    rw [isLive_addArg live liveArg, opcode_addArg live liveArg, Waits, blockOf_addArg live liveArg]
    exact before.pending other found
  notEntry other isLive isPhi := by
    rw [opcode_addArg live liveArg] at isPhi
    rw [blockOf_addArg live liveArg]
    exact before.notEntry other ((isLive_addArg live liveArg other).1 isLive) isPhi

theorem strict_addArg (before : graph.Strict) (isPhi : (graph.value phi).opcode = .phi) (dominates : ∀ pred,
      (graph.block (graph.value phi).block).preds[(graph.value phi).args.length]? = some pred →
        graph.Dominates (graph.value arg).block pred) : (graph.addArg phi arg).Strict where
  operand user value plain used := by
    rw [opcode_addArg live liveArg] at plain
    have differs : user ≠ phi := by
      rintro rfl
      exact plain isPhi
    rw [args_addArg_of_ne live liveArg differs] at used
    simp only [blockOf_addArg live liveArg, dominates_addArg, reaches_addArg]
    exact before.operand user value plain used
  choice other otherPhi position value pred found source := by
    rw [opcode_addArg live liveArg] at otherPhi
    rw [blockOf_addArg live liveArg] at source
    rw [dominates_addArg, blockOf_addArg live liveArg]
    by_cases isFilled : other = phi
    · subst isFilled
      rw [args_addArg live liveArg, if_pos rfl, List.getElem?_append] at found
      split_ifs at found with inside
      · exact before.choice other otherPhi position value pred found source
      · obtain ⟨last, rfl⟩ := List.getElem?_eq_some_iff.1 found
        have isLast : position = (graph.value other).args.length := by
          simp only [List.length_singleton] at last
          omega
        rw [isLast] at source
        simpa using dominates pred source
    · rw [args_addArg_of_ne live liveArg isFilled] at found
      exact before.choice other otherPhi position value pred found source
  bound block var value found := by
    rw [dominates_addArg, blockOf_addArg live liveArg]
    exact before.bound block var value found

omit live in
theorem Sound.addArg (sound : graph.Sound pending sealing) (found : phi ∈ pending) (dominates : ∀ pred,
      (graph.block (graph.value phi).block).preds[(graph.value phi).args.length]? = some pred →
        graph.Dominates (graph.value arg).block pred) :
    (graph.addArg phi arg).Sound pending sealing := by
  obtain ⟨live, isPhi, -⟩ := sound.fills.pending phi found
  exact ⟨sound.idle, consistent_addArg live liveArg sound.consistent,
    replaces_addArg live liveArg sound.replaces, laidOut_addArg live liveArg sound.laidOut,
    flows_addArg live liveArg sound.flows, fills_addArg live liveArg sound.fills found,
    strict_addArg live liveArg sound.strict isPhi dominates⟩

end AddArg

end Graph

end Shader
