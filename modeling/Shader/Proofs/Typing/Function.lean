import Shader.Proofs.Lowering.Function
import Shader.Proofs.Typing.Statement

/-! # Types in lowered functions

The graph of a function is typed, and every block of it has its ending. -/

namespace Shader

namespace Graph

theorem underway_start {program : Program} (function : FunctionId) :
    (start function).Underway program (∅ ∪ {(start function).current}) := by
  refine ⟨⟨?_, ?_, ?_, ?_, ?_, ?_⟩, ?_⟩
  · intro value
    rw [value_start]
    trivial
  · intro block var value found
    rw [binding_start] at found
    cases found
  · intro block var phi found
    rw [incomplete_start] at found
    exact absurd found List.not_mem_nil
  · intro var slot found
    cases found
  · intro value next found
    rw [value_start] at found
    cases found
  · intro block value found
    rw [ending_start] at found
    cases found
  · rintro ⟨index⟩ has _
    have few : index < 1 := has
    obtain rfl : index = 0 := by omega
    exact .inr rfl

theorem paired_start {function : FunctionId} : (start function).Paired where
  users user arg used := by
    rw [value_start] at used
    exact absurd used List.not_mem_nil
  results value := by
    rw [value_start]
    rfl
  entry := rfl
  proper value := by
    rw [value_start]
    exact Operation.Proper.of_plain rfl

end Graph

namespace Build

open Shader.Graph

variable {program : Program} {graph : Graph} {waiting : Set BlockId} {function : FunctionId}

theorem arguments_makes : MakesStmt program function (arguments program (program.function function)) := by
  intro waiting graph isFunction underway
  refine Gives.mono (gives_forM (fun rest after => graph.Grows after ∧
    (graph.Paired → after.Paired) ∧ after.Underway program (waiting ∪ {after.current}) ∧
    ∀ item ∈ rest, item ∈ (program.function function).arguments.zipIdx) ⟨.refl, id, underway, ?_⟩ ?_) ?_
  · exact fun item found => found
  · rintro ⟨argument, index⟩ rest middle ⟨grows, paired, underway, inside⟩
    have isArgument : (program.function function).arguments[index]? = some argument :=
      List.mk_mem_zipIdx_iff_getElem?.1 (inside _ List.mem_cons_self)
    have accepts : middle.Accepts program
        { opcode := .functionArg
          payload := .argument index
          type := some (program.var argument).type } := by
      refine ⟨index, argument, rfl, ?_, rfl⟩
      rw [grows.function, isFunction]
      exact isArgument
    refine gives_get_bind (Gives.bind (gives_makeValue (by simp)) ?_)
    rintro _ made ⟨rfl, adds⟩
    have remains := adds.remains underway.typed ⟨.inl (by simp), rfl, fun _ => rfl, nofun, nofun⟩ accepts rfl
    refine Gives.mono (writeVar_typed remains.typed (adds.carries rfl rfl)) fun _ after noted => ?_
    have both := remains.trans noted
    refine ⟨grows.trans both.toGrows, both.paired ∘ paired, ?_, fun item found =>
      inside item (List.mem_cons_of_mem _ found)⟩
    rw [both.current]
    exact underway.remains both
  · rintro _ after ⟨grows, paired, underway, -⟩
    exact ⟨grows, paired, underway, trivial⟩

theorem finishBody_gives {node : Function}
    (underway : graph.Underway program (waiting ∪ {graph.current})) :
    Gives (finishBody node) graph fun _ after => graph.Grows after ∧ (graph.Paired → after.Paired) ∧
      after.Underway program waiting := by
  have ends (operation : Operation) (takes : graph.Takes graph.current operation)
      (accepts : graph.Accepts program operation) (isEnding : operation.opcode.isEnding = true) :
      Gives (do let _ ← makeValue graph.current operation) graph fun _ after =>
        graph.Grows after ∧ (graph.Paired → after.Paired) ∧ after.Underway program waiting := by
    refine Gives.bind (advances_ending (advances_refl underway) takes accepts isEnding) ?_
    intro _ after advances
    exact gives_pure ⟨advances.grows, advances.paired, advances.underway⟩
  refine gives_get_bind ?_
  dsimp only
  split_ifs with terminated
  · exact gives_pure ⟨.refl, id, underway.terminated terminated⟩
  · exact ends { opcode := .unreachable } ⟨.inl (by simp), rfl, .of_plain rfl⟩ rfl rfl
  · exact ends { opcode := .returnVoid } ⟨.inl (by simp), rfl, .of_plain rfl⟩ rfl rfl
  · exact gives_refuse

end Build

section Lowered

variable {program : Program} {function : FunctionId} {graph : Graph} (sane : program.Sane)
  (lowers : lower program function = .ok graph)

include sane lowers

theorem lower_gives : ∃ body, (program.function function).body = some body ∧
      Build.Enlarges (Build.body program (program.function function) body) (.start function) () graph ∧
        graph.Paired ∧ graph.Underway program ∅ := by
  unfold lower lowerUnder at lowers
  dsimp only at lowers
  split at lowers
  · cases lowers
  · rename_i body isBody
    have hasBody := sane.body function body isBody
    have builds : Build.Gives (Build.body program (program.function function) body) (.start function)
        fun _ after => after.Paired ∧ after.Underway program ∅ := by
      refine Build.Gives.bind (Build.arguments_makes ∅ _ rfl (Graph.underway_start function)) ?_
      rintro _ begun ⟨grows, first, underway, -⟩
      refine Build.Gives.bind (Build.stmt_typed sane hasBody.has hasBody.results ∅ begun
        grows.function underway) ?_
      rintro _ filled ⟨-, second, underway, -⟩
      refine Build.Gives.mono (Build.finishBody_gives underway) ?_
      rintro _ after ⟨-, third, underway⟩
      exact ⟨third (second (first Graph.paired_start)), underway⟩
    split at lowers
    · rename_i runs
      cases lowers
      exact ⟨body, isBody, builds _ _ runs⟩
    · cases lowers

/-- The graph of a function of a sane program is typed, addresses of parts are used only by their
accesses, and no block waits for an ending. -/
theorem lower_fits : graph.function = function ∧ graph.Paired ∧ graph.Underway program ∅ := by
  obtain ⟨-, -, ⟨grows, -⟩, fits⟩ := lower_gives sane lowers
  exact ⟨grows.function, fits⟩

theorem lowerUnder_of_lower {watch : Watch} (looksBack : watch.LooksBack)
    (accepted : watch graph = true) : lowerUnder watch program function = .ok graph := by
  obtain ⟨body, isBody, ⟨-, watched⟩, -⟩ := lower_gives sane lowers
  unfold lowerUnder
  simp only [isBody, watched watch looksBack accepted]

theorem lower_underway : graph.function = function ∧ graph.Underway program ∅ := by
  obtain ⟨isFunction, -, underway⟩ := lower_fits sane lowers
  exact ⟨isFunction, underway⟩

end Lowered

end Shader
