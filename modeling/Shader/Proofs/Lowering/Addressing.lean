import Shader.Proofs.Lowering.ControlFlow
import Shader.Proofs.Module.Arrangement

/-! # Addresses in lowered functions

Lowering makes the address of a part right in front of the access to it. So the graph of a function is
arranged for being written. -/

namespace Shader

namespace Graph

variable {graph : Graph} {user pointer : ValueId} {function : FunctionId}

theorem ordered_start : (start function).Ordered := by
  intro block
  rw [bodyOf, values_start]
  exact .nil

theorem Ordered.sublist (ordered : graph.Ordered) {block : BlockId} {first second : ValueId}
    (hasFirst : first ∈ graph.bodyOf block) (hasSecond : second ∈ graph.bodyOf block)
    (earlier : first.index < second.index) :
    [first, second].Sublist (graph.block block).values := by
  have inOrder := ordered block
  have inside : [first, second].Sublist (graph.bodyOf block) := by
    obtain ⟨front, back, split⟩ := List.append_of_mem hasFirst
    rw [split, List.pairwise_append, List.pairwise_cons] at inOrder
    rw [split] at hasSecond ⊢
    refine List.Sublist.trans ?_ (List.sublist_append_right front _)
    refine List.Sublist.cons_cons first (List.singleton_sublist.2 ?_)
    rcases List.mem_append.1 hasSecond with found | found
    · -- what stands in front was made before
      have later := inOrder.2.2 second found first List.mem_cons_self
      omega
    · rcases List.mem_cons.1 found with rfl | found
      · omega
      · exact found
  exact inside.trans List.filter_sublist

theorem Finished.addresses (finished : graph.Finished) (ordered : graph.Ordered)
    (paired : graph.Paired) (used : pointer ∈ (graph.value user).args)
    (isPart : (graph.value pointer).opcode = .elementPtr) : graph.Addresses user pointer := by
  have consistent := finished.sound.consistent
  have accesses := (paired.users user pointer used).resolve_left fun whole => whole.2.1 isPart
  have body {value : ValueId} (live : graph.IsLive value) (plain : graph.isPlain value = true) :
      value ∈ graph.bodyOf (graph.value value).block := by
    refine List.mem_filter.2 ⟨List.count_pos_iff.1 ?_, plain⟩
    rw [consistent.placed value _ live, if_pos rfl]
    exact Nat.zero_lt_one
  have plainUser : graph.isPlain user = true := by
    rcases accesses.access with ⟨isLoad, -⟩ | ⟨isStore, -⟩
    · simp [isPlain, isPhi, isLoad, Opcode.isEnding]
    · simp [isPlain, isPhi, isStore, Opcode.isEnding]
  have plainPointer : graph.isPlain pointer = true := by
    simp [isPlain, isPhi, isPart, Opcode.isEnding]
  refine ⟨?_, ?_⟩
  · refine accesses.access.imp_right ?_
    rintro ⟨isStore, content, args, whole⟩
    exact ⟨isStore, content, args, whole.2.1⟩
  · refine ordered.sublist (body (consistent.live_arg used) plainPointer) ?_ accesses.earlier
    rw [accesses.home]
    exact body (consistent.live_user used) plainUser

end Graph

/-- The graph of a function of a parsed source is arranged for being written, and only has live values in
its blocks. -/
theorem lower_arranged {source : String} {program : Program} {function : FunctionId} {graph : Graph}
    (parsed : parse source = .ok program) (defined : function ∈ program.definedFunctions)
    (lowered : lower program function = .ok graph) :
    graph.Arranged ∧ ∀ block, ∀ value ∈ (graph.block block).values, graph.IsLive value := by
  have proceeds := proceeds_of_lower parsed defined lowered
  have finished := proceeds.finished
  obtain ⟨-, paired, underway⟩ := lower_fits (sane_of_parse parsed) lowered
  have wellFormed := finished.wellFormed underway
  have consistent := finished.sound.consistent
  have entry : graph.entry = ⟨0⟩ := (proceeds.moves.stepped Graph.ready_start).entry
  have ordered : graph.Ordered := Steps.ordered proceeds.moves.steps Graph.sound_start Graph.ordered_start
  have home (block : BlockId) (value : ValueId) (found : value ∈ (graph.block block).values) :
      (graph.value value).block = block ∧ (graph.block block).values.count value = 1 := by
    have live := consistent.listed block value found
    have placed := consistent.placed value block live
    have positive := List.count_pos_iff.2 found
    split_ifs at placed with isHome
    · exact ⟨isHome.symm, placed⟩
    · omega
  refine ⟨⟨⟨?_, ?_, ?_⟩, entry, wellFormed.entry.1, consistent.tidy, fun block value found =>
    (home block value found).1, fun block => ?_, ?_, ?_⟩, consistent.listed⟩
  · intro user arg used
    rcases paired.users user arg used with whole | accesses
    · exact Opcode.hasResult_of_isOperand (paired.isOperand whole)
    · rw [accesses.isPart]
      rfl
  · exact fun user arg used isPart => finished.addresses ordered paired used isPart
  · exact fun value => (paired.proper value).mono fun _ => trivial
  · refine List.nodup_iff_count_le_one.2 fun value => ?_
    by_cases found : value ∈ (graph.block block).values
    · exact (home block value found).2.le
    · rw [List.count_eq_zero.2 found]
      exact Nat.zero_le 1
  · intro block has
    obtain ⟨phis, plain, ending, parts, isLast, arePhis, arePlain, isEnding, -⟩ :=
      wellFormed.laidOut block has
    refine ⟨phis, plain, ending, parts, isLast, arePhis, fun value found => ?_, isEnding⟩
    simpa [Graph.isPlain, Graph.isPhi] using arePlain value found
  · intro value found isPhi
    exact finished.sound.fills.notEntry value (consistent.listed _ value found) isPhi (home _ value found).1

end Shader
