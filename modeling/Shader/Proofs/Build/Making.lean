import Shader.Proofs.Build.Outcome
import Shader.Proofs.Graph.Lookup

/-! # Making values

The steps that make a value do exactly what `Graph.insertValue` describes. -/

namespace Shader

theorem takeWhile_append_of_split {α : Type} {test : α → Bool} (front back : List α)
    (passes : ∀ item ∈ front, test item = true) (fails : ∀ item ∈ back, test item = false) :
    (front ++ back).takeWhile test = front ∧ (front ++ back).dropWhile test = back := by
  rw [List.takeWhile_append_of_pos passes, List.dropWhile_append_of_pos passes]
  cases back with
  | nil => simp
  | cons item rest => simp [fails item List.mem_cons_self]

namespace Graph

variable {graph : Graph} {block : BlockId} {operation : Operation}

theorem modifyBlock_const (has : graph.HasBlock block) (change : Block → Block) :
    graph.modifyBlock block (fun _ => change (graph.block block)) = graph.modifyBlock block change := by
  have inside : block.index < graph.blocks.items.size := has
  have reads : graph.block block = graph.blocks.items[block.index] := by
    simp [Graph.block, Arena.get, Arena.get?, inside]
  have items : graph.blocks.items.modify block.index (fun _ => change (graph.block block)) =
      graph.blocks.items.modify block.index change := by
    refine Array.ext (by simp) fun index _ bound => ?_
    rw [Array.getElem_modify, Array.getElem_modify]
    split_ifs with same
    · subst same
      rw [reads]
    · rfl
  simp only [modifyBlock, Arena.modify, items]

theorem span_phisOf (laidOut : graph.LaidOut) {test : ValueId → Bool}
    (same : ∀ value ∈ (graph.block block).values, test value = graph.isPhi value) :
    (graph.block block).values.takeWhile test = graph.phisOf block ∧
      (graph.block block).values.dropWhile test =
        graph.bodyOf block ++ (graph.block block).ending.toList := by
  have parts := laidOut.parts block
  rw [List.append_assoc] at parts
  rw [parts] at same
  rw [parts]
  refine takeWhile_append_of_split _ _ (fun value found => ?_) fun value found => ?_
  · rw [same value (List.mem_append_left _ found)]
    exact (List.mem_filter.1 found).2
  · rw [same value (List.mem_append_right _ found)]
    rcases List.mem_append.1 found with found | found
    · have plain := (List.mem_filter.1 found).2
      simp only [isPlain, Bool.and_eq_true, Bool.not_eq_true'] at plain
      exact plain.1
    · exact laidOut.isPhi_ending (by simpa using found)

theorem insertBefore_ending (consistent : graph.Consistent) (laidOut : graph.LaidOut)
    {ending value : ValueId} (found : (graph.block block).ending = some ending) :
    insertBefore ending value (graph.block block).values =
      graph.phisOf block ++ graph.bodyOf block ++ value :: [ending] := by
  have parts := laidOut.parts block
  rw [found, Option.toList_some] at parts
  have distinct := @Consistent.values_nodup graph block consistent
  rw [parts, List.nodup_append] at distinct
  have differs : ∀ item ∈ graph.phisOf block ++ graph.bodyOf block, (item != ending) = true := by
    intro item found
    simpa using distinct.2.2 item found ending
  obtain ⟨front, back⟩ := takeWhile_append_of_split _ [ending] differs (by simp)
  rw [Shader.insertBefore, parts, front, back]

theorem place_allocated (consistent : graph.Consistent) (laidOut : graph.LaidOut)
    (live : ∀ arg ∈ operation.args, graph.IsLive arg)
    (isOpen : operation.opcode.isEnding = true → (graph.block block).ending = none) :
    ∃ left right, graph.Fits block operation.opcode left right ∧
      ((graph.allocate block operation).2.block block).place (graph.allocate block operation).2.isPhi
        graph.values.next operation.opcode =
        .ok { graph.block block with
          values := left ++ graph.values.next :: right
          ending :=
            if operation.opcode.isEnding then some graph.values.next
            else (graph.block block).ending } := by
  have sameBlock : (graph.allocate block operation).2.block block = graph.block block := by
    rw [allocate_eq]
    rfl
  have samePhi : ∀ value ∈ (graph.block block).values,
      (graph.allocate block operation).2.isPhi value = graph.isPhi value := by
    intro value found
    have differs := (consistent.listed block value found).1.ne_next
    rw [isPhi, isPhi, value_allocate _ _ fun arg found => (live arg found).1, if_neg differs]
  rw [sameBlock, Block.place]
  by_cases isPhi : operation.opcode = .phi
  · refine ⟨_, _, .phi isPhi, ?_⟩
    obtain ⟨front, back⟩ := span_phisOf laidOut samePhi
    rw [if_pos isPhi, front, back, isPhi]
    rfl
  · rw [if_neg isPhi]
    by_cases isEnding : operation.opcode.isEnding = true
    · refine ⟨_, _, .ending isEnding (isOpen isEnding), ?_⟩
      have parts := laidOut.parts block
      rw [isOpen isEnding, Option.toList_none, List.append_nil] at parts
      rw [if_pos isEnding, isOpen isEnding, if_neg (by simp), if_pos isEnding, ← parts]
    · refine ⟨_, _, .plain isPhi (by simpa using isEnding), ?_⟩
      rw [if_neg isEnding, if_neg isEnding]
      cases found : (graph.block block).ending with
      | none =>
        have parts := laidOut.parts block
        rw [found, Option.toList_none, List.append_nil] at parts
        simp only [← parts, Option.toList_none]
      | some ending =>
        simp only [insertBefore_ending consistent laidOut found, Option.toList_some]

theorem Fits.mem_left {opcode : Opcode} {left right : List ValueId} {value : ValueId}
    (fits : graph.Fits block opcode left right) (laidOut : graph.LaidOut) (notPhi : opcode ≠ .phi)
    (isOpen : (graph.block block).ending = none) (placed : value ∈ (graph.block block).values) :
    value ∈ left := by
  rw [laidOut.parts, isOpen, Option.toList_none, List.append_nil] at placed
  cases fits with
  | phi isPhi => exact absurd isPhi notPhi
  | plain => exact placed
  | ending => exact placed

end Graph

def Watch.Tolerant (watch : Watch) : Prop :=
  ∀ graph : Graph, graph.Consistent → watch graph = true

namespace Build

open Shader.Graph

variable {graph : Graph} {watch : Watch} {block : BlockId} {operation : Operation}

theorem makeValue_runs (idle : graph.isEditing = false) (consistent : graph.Consistent)
    (laidOut : graph.LaidOut) (has : graph.HasBlock block)
    (live : ∀ arg ∈ operation.args, graph.IsLive arg)
    (isOpen : operation.opcode.isEnding = true → (graph.block block).ending = none) :
    ∃ left right, graph.Fits block operation.opcode left right ∧
      Inserts graph block operation left right (graph.insertValue block operation left right) ∧
      ∀ post : ValueId → Graph → Prop, watch (graph.insertValue block operation left right) = true →
        post graph.values.next (graph.insertValue block operation left right) →
        Yields watch (makeValue block operation) graph post := by
  obtain ⟨left, right, fits, placed⟩ := place_allocated consistent laidOut live isOpen
  refine ⟨left, right, fits, ⟨rfl, has, live, fits.split laidOut⟩, fun post accepted holds => ?_⟩
  have hasStill : (graph.allocate block operation).2.HasBlock block := by
    rw [allocate_eq]
    exact has
  have sameBlock : (graph.allocate block operation).2.block block = graph.block block := by
    rw [allocate_eq]
    rfl
  have inserted := modifyBlock_const hasStill fun node =>
    { node with
      values := left ++ graph.values.next :: right
      ending := if operation.opcode.isEnding then some graph.values.next else node.ending }
  rw [sameBlock] at inserted
  have runs : (place block graph.values.next operation.opcode).under watch
      (graph.allocate block operation).2 = .ok () (graph.insertValue block operation left right) := by
    rw [place, under_bind_ok under_get, under_bind_ok (under_accept placed), under_modify]
    exact congrArg (EStateM.Result.ok ()) inserted
  refine yields_watched (yields_get_bind ?_)
  refine yields_bind_of_eq (under_require (by simp [idle])) ?_
  refine yields_bind_of_eq (under_modifyGet _) ?_
  exact yields_bind_of_eq runs (yields_pure ⟨accepted, holds⟩)

variable {guard : Guard} {pending : Set ValueId} {sealing : Set BlockId}

theorem makeValue_plain (tolerant : watch.Tolerant)
    (sound : graph.Sound pending sealing) (has : graph.HasBlock block)
    (notPhi : operation.opcode ≠ .phi) (notEnding : operation.opcode.isEnding = false)
    (operands : ∀ arg ∈ operation.args, graph.IsLive arg ∧ graph.Dominates (graph.value arg).block block)
    (late : (graph.block block).ending ≠ none → operation.opcode = .undef ∧ operation.args = [])
    (allowed : block ∉ guard.blank) :
    Yields watch (makeValue block operation) graph fun value after =>
      value = graph.values.next ∧ Inserts graph block operation (graph.phisOf block ++ graph.bodyOf block)
          (graph.block block).ending.toList after ∧
        Lookup guard ⟨graph, pending, sealing⟩ ⟨after, pending, sealing⟩ := by
  obtain ⟨left, right, fits, inserts, runs⟩ := @makeValue_runs graph watch block operation sound.idle
    sound.consistent sound.laidOut has (fun arg found => (operands arg found).1)
    (fun isEnding => absurd isEnding (by simp [notEnding]))
  generalize graph.insertValue block operation left right = after at *
  have inFront : operation.opcode ≠ .phi → ∀ arg ∈ operation.args,
      graph.Dominates (graph.value arg).block block ∧
        (graph.Reaches block → (graph.value arg).block = block → arg ∈ left) := by
    intro _ arg found
    obtain ⟨live, dominates⟩ := operands arg found
    refine ⟨dominates, fun _ home => ?_⟩
    have isOpen : (graph.block block).ending = none := by
      by_contra ended
      rw [(late ended).2] at found
      exact List.not_mem_nil found
    exact fits.mem_left sound.laidOut notPhi isOpen ((sound.consistent.mem_values_iff live).2 home.symm)
  have looks : Lookup guard ⟨graph, pending, sealing⟩
      ⟨after, pending ∪ {value | value = graph.values.next ∧ operation.opcode = .phi}, sealing⟩ :=
    .insert inserts fits notEnding (fun isPhi => absurd isPhi notPhi) inFront
      (fun isPhi => absurd isPhi notPhi)
      (fun ended => .inr (late ended).1) allowed
  simp only [notPhi, and_false, Set.ofPred_false, Set.union_empty] at looks
  refine runs _ (tolerant _ (inserts.consistent sound.consistent)) ⟨rfl, ?_, looks⟩
  cases fits with
  | phi isPhi => exact absurd isPhi notPhi
  | plain => exact inserts
  | ending isEnding => exact absurd isEnding (by simp [notEnding])

theorem makeValue_phi (tolerant : watch.Tolerant)
    (sound : graph.Sound pending sealing) (has : graph.HasBlock block)
    (isPhi : operation.opcode = .phi) (live : ∀ arg ∈ operation.args, graph.IsLive arg)
    (choices : ∀ (position : Nat) arg pred, operation.args[position]? = some arg →
      (graph.block block).preds[position]? = some pred → graph.Dominates (graph.value arg).block pred)
    (notEntry : block ≠ graph.entry) (allowed : block ∉ guard.blank) :
    Yields watch (makeValue block operation) graph fun value after =>
      value = graph.values.next ∧ Inserts graph block operation (graph.phisOf block)
          (graph.bodyOf block ++ (graph.block block).ending.toList) after ∧
        Lookup guard ⟨graph, pending, sealing⟩
          ⟨after, pending ∪ {graph.values.next}, sealing⟩ := by
  have notEnding : operation.opcode.isEnding = false := by
    rw [isPhi]
    rfl
  obtain ⟨left, right, fits, inserts, runs⟩ := @makeValue_runs graph watch block operation sound.idle
    sound.consistent sound.laidOut has live (fun isEnding => absurd isEnding (by simp [notEnding]))
  generalize graph.insertValue block operation left right = after at *
  have looks : Lookup guard ⟨graph, pending, sealing⟩
      ⟨after, pending ∪ {value | value = graph.values.next ∧ operation.opcode = .phi}, sealing⟩ :=
    .insert inserts fits notEnding (fun _ => notEntry) (fun notPhi => absurd isPhi notPhi)
      (fun _ => choices) (fun _ => .inl isPhi) allowed
  simp only [isPhi, and_true, Set.ofPred_eq_eq_singleton] at looks
  refine runs _ (tolerant _ (inserts.consistent sound.consistent)) ⟨rfl, ?_, looks⟩
  cases fits with
  | phi => exact inserts
  | plain notPhi => exact absurd isPhi notPhi
  | ending isEnding => exact absurd isEnding (by simp [notEnding])

end Build

end Shader
