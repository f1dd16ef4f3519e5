import Shader.Proofs.Lowering.Frame

/-! # Actions in the current block

What lowering does in the current block, one action at a time: a value is made, a variable is read or
written. -/

namespace Shader

open Relation (ReflTransGen)

namespace Graph

variable {straight : Prop} {slots : Set VarId} {graph middle after : Graph}
  {value : ValueId}

structure Evaluates (straight : Prop) (graph : Graph) (value : ValueId)
    (after : Graph) : Prop where
  proceeds : Proceeds straight Set.univ graph after
  isOpen : after.IsOpen
  held : after.Held after.current value

theorem Evaluates.behind (evaluates : Evaluates straight middle value after)
    (first : Proceeds straight Set.univ graph middle) (ready : graph.Ready) :
    Evaluates straight graph value after :=
  ⟨first.trans evaluates.proceeds ready subset_rfl, evaluates.isOpen, evaluates.held⟩

theorem Evaluates.ready (evaluates : Evaluates straight graph value after)
    (ready : graph.Ready) : after.Ready :=
  evaluates.proceeds.ready ready

theorem proceeds_of_looks (ready : graph.Ready)
    (looks : Looks (graph.frame straight slots ∅) ⟨graph, ∅, ∅⟩ ⟨after, ∅, ∅⟩)
    (neatens : Neatens ⟨graph, ∅, ∅⟩ ⟨after, ∅, ∅⟩) :
    Proceeds straight slots graph after := by
  have looked : Looked (graph.frame straight slots ∅) graph after := Looks.looked looks ready.sound ready.fits
  refine ⟨⟨looks.steps, neatens⟩, ?_, fun block has => .inl ((looked.hasBlock block).1 has)⟩
  rw [looked.current]
  exact dominates_self

theorem isOpen_of_looks (ready : graph.Ready) (isOpen : graph.IsOpen)
    (looks : Looks (graph.frame straight slots ∅) ⟨graph, ∅, ∅⟩ ⟨after, ∅, ∅⟩) :
    after.IsOpen := by
  have looked : Looked (graph.frame straight slots ∅) graph after := Looks.looked looks ready.sound ready.fits
  rw [IsOpen, looked.current, looked.ending]
  exact isOpen

theorem current_allowed : graph.current ∉ (graph.frame straight slots ∅).blank := fun found => found.2.2.1 rfl

end Graph

namespace Build

open Shader.Graph

variable {graph : Graph} {watch : Watch}
  {operation : Operation} {var : VarId} {value : ValueId}

theorem made_yields (straight : Prop) (tolerant : watch.Tolerant)
    (ready : graph.Ready) (isOpen : graph.IsOpen) (notPhi : operation.opcode ≠ .phi)
    (notEnding : operation.opcode.isEnding = false)
    (operands : ∀ arg ∈ operation.args, graph.Held graph.current arg) :
    Yields watch (emit operation) graph fun value after =>
      Evaluates straight graph value after ∧ (after.value value).opcode = operation.opcode := by
  have allowed : graph.current ∉ (graph.frame straight Set.univ ∅).blank := current_allowed
  refine yields_get_bind (Yields.mono (makeValue_plain tolerant ready.sound
    ready.sound.flows.hasCurrent notPhi notEnding
    (fun arg found => ⟨(operands arg found).live, (operands arg found).dominates⟩)
    (fun ended => absurd isOpen ended) allowed) ?_)
  rintro value after ⟨isNext, inserts, step⟩
  have looks : Looks (graph.frame straight Set.univ ∅) ⟨graph, ∅, ∅⟩ ⟨after, ∅, ∅⟩ := .single step
  refine ⟨⟨proceeds_of_looks ready looks (inserts.neatens notPhi), isOpen_of_looks ready isOpen looks,
    ?_, ?_⟩, ?_⟩
  · rw [isNext]
    exact inserts.live_new
  · rw [isNext, inserts.value_new, inserts.current]
    exact dominates_self
  · rw [isNext, inserts.value_new]

theorem emit_yields (straight : Prop) (tolerant : watch.Tolerant) (ready : graph.Ready)
    (isOpen : graph.IsOpen) (notPhi : operation.opcode ≠ .phi)
    (notEnding : operation.opcode.isEnding = false)
    (operands : ∀ arg ∈ operation.args, graph.Held graph.current arg) :
    Yields watch (emit operation) graph (Evaluates straight graph) :=
  Yields.mono (made_yields straight tolerant ready isOpen notPhi notEnding operands) fun _ _ made => made.1

theorem fetch_yields (straight : Prop) (tolerant : watch.Tolerant) (program : Program) (ready : graph.Ready)
    (isOpen : graph.IsOpen) :
    Yields watch (do readVar program (← get).current var) graph fun value after =>
      Evaluates straight graph value after := by
  refine yields_get_bind (Yields.mono (readVar_yields tolerant program ready.sound
    ready.sound.flows.hasCurrent) ?_)
  rintro value after ⟨looks, bound, neatens⟩
  have weaker : (graph.frame straight Set.univ ∅).Weaker (graph.readGuard graph.current var) :=
    { values := subset_rfl
      blank := fun block found => ⟨found.2.1, found.2.2.1⟩
      notes := Set.empty_subset _ }
  have framed := looks.weaken weaker
  have looked : Looked (graph.readGuard graph.current var) graph after :=
    Looks.looked looks ready.sound (ready.sound.readGuard_fits _ _)
  have sound : after.Sound ∅ ∅ := Looks.sound looks ready.sound
  refine ⟨proceeds_of_looks ready framed neatens, isOpen_of_looks ready isOpen framed,
    sound.consistent.bound _ var value bound, ?_⟩
  rw [looked.current]
  exact sound.strict.bound _ var value bound

theorem assign_yields (straight : Prop) (ready : graph.Ready) (isOpen : graph.IsOpen)
    (held : graph.Held graph.current value) :
    Yields watch (do writeVar (← get).current var value) graph fun _ after =>
      Proceeds straight Set.univ graph after ∧ after.IsOpen := by
  have has := ready.sound.flows.hasCurrent
  have step : Step (graph.frame straight Set.univ ∅) ⟨graph, ∅, ∅⟩
      ⟨graph.bind graph.current var value, ∅, ∅⟩ :=
    .write has isOpen held.live held.dominates ⟨current_allowed, Set.notMem_empty _⟩
  refine yields_get_bind (yields_modify ⟨⟨.single step (neatens_bind has), dominates_self,
    fun block hasBlock => ?_⟩, ?_⟩)
  · exact .inl (hasBlock_modifyBlock.1 hasBlock)
  · exact (retains_bind.ending graph.current).trans isOpen

end Build

end Shader
