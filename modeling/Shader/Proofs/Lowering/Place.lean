import Shader.Proofs.Lowering.Construct
import Shader.Proofs.Program.Shape

/-! # Places and arithmetic

Reading and changing locations, and the operators that work on values. A location in memory is an address
with a path into it; the location of a renamed variable is the value that it has. -/

namespace Shader

def Place.values (place : Place) : List ValueId :=
  match place.root with
  | .renamed _ value => value :: place.path
  | .memory pointer => pointer :: place.path

theorem Place.values_extend (place : Place) (step : ValueId) :
    (place.extend step).values = place.values ++ [step] := by
  obtain ⟨root, path⟩ := place
  cases root <;> rfl

namespace Graph

variable {program : Program} {straight : Prop} {slots scope more : Set VarId} {free : Set BlockId}
  {graph middle after : Graph} {block origin : BlockId} {place : Place} {value : ValueId}

/-! ## Addresses of variables -/

/-- The variables in scope that are in memory have addresses that can be used at the end of a block. -/
def Available (program : Program) (graph : Graph) (block : BlockId) (scope : Set VarId) : Prop :=
  ∀ var ∈ scope, isRenamed program var = false →
    ∃ slot, graph.slots.find? var = some slot ∧ graph.Held block slot

theorem Available.behind (available : graph.Available program origin scope)
    (dominates : graph.Dominates origin block) : graph.Available program block scope :=
  fun var found inMemory => (available var found inMemory).imp fun _ held => held.imp_right (·.behind dominates)

theorem Available.moves (available : graph.Available program block scope)
    (moves : Moves straight slots free graph after) (ready : graph.Ready)
    (fewer : scope ⊆ slots) (has : graph.HasBlock block) (fixed : block ∉ free)
    (blank : ∀ target ∈ free, graph.IsBlank target) : after.Available program block scope := by
  intro var found inMemory
  obtain ⟨slot, isSlot, held⟩ := available var found inMemory
  refine ⟨slot, ?_, held.moves moves ready has fixed blank⟩
  rw [(moves.stepped ready).slot var (fewer found), isSlot]

theorem Available.proceeds (available : graph.Available program graph.current scope)
    (proceeds : Proceeds straight slots graph after) (ready : graph.Ready)
    (fewer : scope ⊆ slots) : after.Available program after.current scope :=
  (available.moves proceeds.moves ready fewer ready.sound.flows.hasCurrent (Set.notMem_empty _)
    fun _ found => absurd found (Set.notMem_empty _)).behind proceeds.dominates

/-! ## Locations -/

def IsUsable (graph : Graph) (place : Place) : Prop :=
  ∀ value ∈ place.values, graph.Held graph.current value

theorem IsUsable.proceeds (usable : graph.IsUsable place)
    (proceeds : Proceeds straight slots graph after) (ready : graph.Ready) : after.IsUsable place :=
  fun value found => (usable value found).proceeds proceeds ready

structure Locates (straight : Prop) (graph : Graph) (place : Place) (after : Graph) : Prop where
  proceeds : Proceeds straight Set.univ graph after
  isOpen : after.IsOpen
  usable : after.IsUsable place

theorem Evaluates.refl (isOpen : graph.IsOpen) (held : graph.Held graph.current value) :
    Evaluates straight graph value graph :=
  ⟨.refl, isOpen, held⟩

end Graph

namespace Build

open Shader.Graph

variable {program : Program} {graph : Graph} {watch : Watch} {place : Place}
  {value left right pointer : ValueId} {type target : TypeId} {var : VarId} {scope : Set VarId}
  {path : List ValueId}

section

variable (straight : Prop) (tolerant : watch.Tolerant) (ready : graph.Ready) (isOpen : graph.IsOpen)

include tolerant ready isOpen

theorem literal_yields (literal : Literal) :
    Yields watch (Build.literal literal type) graph (Evaluates straight graph) :=
  emit_yields straight tolerant ready isOpen (by simp) rfl (by simp)

theorem elementPointer_yields (held : ∀ value ∈ pointer :: path, graph.Held graph.current value) :
    Yields watch (elementPointer pointer path type) graph (Evaluates straight graph) := by
  unfold elementPointer
  split
  · exact yields_pure (.refl isOpen (held pointer List.mem_cons_self))
  · exact emit_yields straight tolerant ready isOpen (by simp) rfl held

theorem loadPlace_yields (usable : graph.IsUsable place) :
    Yields watch (loadPlace place type) graph (Evaluates straight graph) := by
  obtain ⟨root, path⟩ := place
  cases root with
  | renamed var whole =>
    cases path with
    | nil => exact yields_pure (.refl isOpen (usable whole List.mem_cons_self))
    | cons step rest => exact emit_yields straight tolerant ready isOpen (by simp) rfl usable
  | memory pointer =>
    refine Yields.bind (elementPointer_yields straight tolerant ready isOpen usable) ?_
    intro element middle first
    exact Yields.mono (emit_yields straight tolerant (first.ready ready) first.isOpen (by simp) rfl
      (by simpa using first.held)) fun _ _ made => made.behind first.proceeds ready

theorem storePlace_yields (usable : graph.IsUsable place) (held : graph.Held graph.current value) :
    Yields watch (storePlace place value type) graph fun _ after =>
      Proceeds straight Set.univ graph after ∧ after.IsOpen := by
  obtain ⟨root, path⟩ := place
  cases root with
  | renamed var whole =>
    cases path with
    | nil => exact assign_yields straight ready isOpen held
    | cons step rest =>
      have heldAll (arg : ValueId) (used : arg ∈ whole :: value :: step :: rest) :
          graph.Held graph.current arg := by
        rcases List.mem_cons.1 used with rfl | used
        · exact usable arg List.mem_cons_self
        · rcases List.mem_cons.1 used with rfl | used
          · exact held
          · exact usable arg (List.mem_cons_of_mem _ used)
      refine yields_get_bind (Yields.bind (emit_yields straight tolerant ready isOpen (by simp) rfl heldAll) ?_)
      intro changed middle first
      refine Yields.mono (assign_yields straight (first.ready ready) first.isOpen first.held) ?_
      rintro - after ⟨proceeds, still⟩
      exact ⟨first.proceeds.trans proceeds ready subset_rfl, still⟩
  | memory pointer =>
    refine Yields.bind (elementPointer_yields straight tolerant ready isOpen usable) ?_
    intro element middle first
    have still := held.proceeds first.proceeds ready
    refine Yields.bind (emit_yields straight tolerant (first.ready ready) first.isOpen (by simp) rfl
      (by simpa using ⟨first.held, still⟩)) ?_
    intro stored after second
    exact yields_pure ⟨first.proceeds.trans second.proceeds ready subset_rfl, second.isOpen⟩

/-! ## Operators -/

theorem asVector_yields (held : graph.Held graph.current value) :
    Yields watch (asVector program value target) graph (Evaluates straight graph) := by
  refine yields_get_bind ?_
  dsimp only
  split
  · exact yields_pure (.refl isOpen held)
  · exact emit_yields straight tolerant ready isOpen (by simp) rfl (by simpa using held)

theorem arithmetic_ensures {op : BinaryOp} (computes : op.opcode?.isSome = true)
    (heldLeft : graph.Held graph.current left)
    (heldRight : graph.Held graph.current right) :
    Ensures watch (arithmetic program op left right type) graph (Evaluates straight graph) := by
  unfold arithmetic
  cases found : op.opcode? with
  | none => simp [found] at computes
  | some opcode =>
    have plain : opcode ≠ .phi ∧ opcode.isEnding = false := by
      cases op <;> cases found <;> exact ⟨by decide, rfl⟩
    -- the right operand is widened to the type of the left one
    have finish (widened : ValueId) (middle : Graph) (first : Evaluates straight graph widened middle) :
        Yields watch (emit { opcode, args := [left, widened], type := some type }) middle
          (Evaluates straight graph) :=
      Yields.mono (emit_yields straight tolerant (first.ready ready) first.isOpen plain.1 plain.2
        (by simpa using ⟨heldLeft.proceeds first.proceeds ready, first.held⟩))
        fun _ _ second => second.behind first.proceeds ready
    refine ensures_get_bind (Yields.ensures ?_)
    cases isType : (graph.value left).type with
    | none => exact finish right graph (.refl isOpen heldRight)
    | some target =>
      dsimp only
      split
      · exact finish right graph (.refl isOpen heldRight)
      · exact Yields.bind (asVector_yields straight tolerant ready isOpen heldRight) finish

/-! ## Locations of variables -/

theorem variablePlace_ensures (span : Span) (available : graph.Available program graph.current scope)
    (inScope : var ∈ scope ∨ (program.var var).kind = .global) :
    Ensures watch (variablePlace program var span) graph (Locates straight graph) := by
  unfold variablePlace
  dsimp only
  split
  next =>
    refine Yields.ensures (Yields.bind (emit_yields straight tolerant ready isOpen (by simp) rfl (by simp)) ?_)
    intro pointer after first
    refine yields_pure ⟨first.proceeds, first.isOpen, fun value found => ?_⟩
    rw [List.mem_singleton.1 found]
    exact first.held
  next notGlobal =>
    split
    next =>
      refine Yields.ensures (yields_get_bind ?_)
      obtain ⟨value, after, runs, first⟩ :=
        @fetch_yields graph watch var straight tolerant program ready isOpen
      refine yields_bind_of_eq runs (yields_pure ⟨first.proceeds, first.isOpen, fun other found => ?_⟩)
      rw [List.mem_singleton.1 found]
      exact first.held
    next notRenamed =>
      refine ensures_get_bind ?_
      obtain ⟨pointer, found, held⟩ :=
        available var (inScope.resolve_right notGlobal) (by simpa using notRenamed)
      rw [slot?, found]
      refine ensures_pure ⟨.refl, isOpen, fun other isPart => ?_⟩
      rwa [List.mem_singleton.1 isPart]

theorem stepPlace_yields (op : UnaryOp) (usable : graph.IsUsable place) :
    Yields watch (stepPlace program op place type) graph (Evaluates straight graph) := by
  refine Yields.bind (loadPlace_yields straight tolerant ready isOpen usable) ?_
  intro old first loads
  have readyFirst := loads.ready ready
  refine Yields.bind (literal_yields straight tolerant readyFirst loads.isOpen (program.one type)) ?_
  intro one second ones
  have readySecond := ones.ready readyFirst
  have heldOld := loads.held.proceeds ones.proceeds readyFirst
  refine Yields.bind (emit_yields straight tolerant readySecond ones.isOpen (by split <;> simp)
    (by split <;> rfl) (by simpa using ⟨heldOld, ones.held⟩)) ?_
  intro new third steps
  have readyThird := steps.ready readySecond
  have usableThird := ((usable.proceeds loads.proceeds ready).proceeds ones.proceeds
    readyFirst).proceeds steps.proceeds readySecond
  refine Yields.bind (storePlace_yields straight tolerant readyThird steps.isOpen usableThird steps.held) ?_
  rintro - after ⟨stores, still⟩
  have heldThird := heldOld.proceeds steps.proceeds readySecond
  have result : third.Held third.current (if op.isTrailing then old else new) := by
    split
    · exact heldThird
    · exact steps.held
  have whole := (loads.proceeds.trans ones.proceeds ready subset_rfl).trans
    (steps.proceeds.trans stores readySecond subset_rfl) ready subset_rfl
  exact yields_pure ⟨whole, still, result.proceeds stores readyThird⟩

end

end Build

end Shader
