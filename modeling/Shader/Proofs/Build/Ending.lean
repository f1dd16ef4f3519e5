import Shader.Proofs.Build.Making
import Shader.Proofs.Graph.Step

/-! # Making endings

The steps that end a block first join it to the blocks that it goes on with and then make the ending.
Together they do exactly what `Graph.endBlock` describes. -/

namespace Shader

namespace Build

open Shader.Graph

variable {graph : Graph} {watch : Watch} {source : BlockId} {operation : Operation}

theorem makeEnding_yields (tolerant : watch.Tolerant)
    (sound : graph.Sound ∅ ∅) (ends : Ends graph source operation) :
    Yields watch (makeValue source operation) (graph.joinTo source operation.payload.blocks)
      fun value after => value = graph.values.next ∧ after = graph.endBlock source operation := by
  have keeps := ends.joins.keeps
  have isOpen : ((graph.joinTo source operation.payload.blocks).block source).ending = none :=
    (keeps.ending source).trans ends.joins.isOpen
  have next : (graph.joinTo source operation.payload.blocks).values.next = graph.values.next := by
    rw [keeps.values]
  obtain ⟨left, right, fits, -, runs⟩ := @makeValue_runs _ watch source operation
    (keeps.idle.trans sound.idle) (ends.joins.consistent sound) (ends.joins.laidOut sound)
    (keeps.hasBlock source ends.joins.hasSource) ends.inserts.live fun _ => isOpen
  have place : left = (graph.block source).values ∧ right = [] := by
    have parts := (ends.joins.laidOut sound).parts source
    rw [isOpen, Option.toList_none, List.append_nil, keeps.places] at parts
    cases fits with
    | phi isPhi => exact absurd isPhi ends.notPhi
    | plain _ notEnding => exact absurd (ends.isEnding.symm.trans notEnding) (by decide)
    | ending => exact ⟨parts.symm, rfl⟩
  rw [place.1, place.2] at runs
  refine runs _ (tolerant _ ?_) ⟨next, rfl⟩
  exact Graph.Sound.consistent (sound.ends ends)

theorem under_addEdge {target : BlockId} (unsealed : (graph.block target).isSealed = false) :
    (addEdge source target).under watch graph = .ok () (graph.addEdge source target) := by
  have allowed : (require (!(graph.block target).isSealed)
      (.predecessorAfterSeal (graph.block target).name)).under watch graph = .ok () graph :=
    under_require (by simp [unsealed])
  exact under_bind_ok allowed

theorem jump_yields (tolerant : watch.Tolerant)
    (sound : graph.Sound ∅ ∅) {target : BlockId}
    (ends : Ends graph source { opcode := .jump, payload := .target target }) :
    Yields watch (jump source target) graph fun _ after =>
      after = graph.endBlock source { opcode := .jump, payload := .target target } := by
  refine yields_bind_of_eq (under_addEdge (ends.joins.unsealed target List.mem_cons_self)) ?_
  exact Yields.mono (makeEnding_yields tolerant sound ends) fun _ _ made => made.2

theorem condJump_yields (tolerant : watch.Tolerant)
    (sound : graph.Sound ∅ ∅) {condition : ValueId} {onTrue onFalse : BlockId}
    (ends : Ends graph source
      { opcode := .condJump, args := [condition], payload := .targets onTrue onFalse }) :
    Yields watch (condJump source condition onTrue onFalse) graph fun _ after =>
      after = graph.endBlock source
        { opcode := .condJump, args := [condition], payload := .targets onTrue onFalse } := by
  have hasTrue := ends.joins.hasTargets onTrue List.mem_cons_self
  have unsealedTrue := ends.joins.unsealed onTrue List.mem_cons_self
  have unsealedFalse := ends.joins.unsealed onFalse (List.mem_cons_of_mem _ List.mem_cons_self)
  have still : ((graph.addEdge source onTrue).block onFalse).isSealed = false := by
    rw [block_addEdge ends.joins.hasSource hasTrue]
    exact unsealedFalse
  refine yields_bind_of_eq (under_addEdge unsealedTrue) (yields_bind_of_eq (under_addEdge still) ?_)
  exact Yields.mono (makeEnding_yields tolerant sound ends) fun _ _ made => made.2

theorem leave_yields (tolerant : watch.Tolerant)
    (sound : graph.Sound ∅ ∅) (ends : Ends graph source operation)
    (leaves : operation.payload.blocks = []) :
    Yields watch (makeValue source operation) graph fun _ after =>
      after = graph.endBlock source operation := by
  have made := makeEnding_yields tolerant sound ends
  rw [leaves] at made
  exact Yields.mono made fun _ _ made => made.2

end Build

end Shader
