import Shader.Graph.Lowering
import Shader.Proofs.Build.Ending
import Shader.Proofs.Variables.Sealing

/-! # Lowering within a frame

Lowering a part of a function adds to the graph and leaves alone what is there: values keep their
operands, blocks that are not filled yet stay blank, and only blocks that the part makes get
predecessors. A value that is held meanwhile can be used afterwards. -/

namespace Shader

open Relation (ReflTransGen)

namespace Graph

variable {straight : Prop} {slots more : Set VarId}
  {free other all : Set BlockId} {graph middle after : Graph} {value : ValueId}
  {block origin : BlockId}

/-- What lowering a part leaves alone, but for some blocks that can be filled, be sealed and get
predecessors. A straight part makes no blocks. -/
def frame (graph : Graph) (straight : Prop) (slots : Set VarId) (free : Set BlockId) : Guard where
  values := {value | graph.HasValue value}
  blank := {block | graph.HasBlock block ∧ graph.IsBlank block ∧ block ≠ graph.current ∧ block ∉ free}
  blocks := {block | graph.HasBlock block ∧ block ∉ free}
  slots := slots
  straight := straight

structure Ready (graph : Graph) : Prop where
  sound : graph.Sound ∅ ∅

theorem Ready.fits (ready : graph.Ready) : (graph.frame straight slots free).Fits graph where
  has _ found := found
  closed _ _ _ used := (ready.sound.consistent.live_arg used).1
  noted block var value _ bound := (ready.sound.consistent.bound block var value bound).1
  blank _ found := found.2.1

/-- Any number of changes within a frame, behind which no phi has come loose. -/
structure Moves (straight : Prop) (slots : Set VarId) (free : Set BlockId)
    (graph after : Graph) : Prop where
  steps : Steps (graph.frame straight slots free) ⟨graph, ∅, ∅⟩ ⟨after, ∅, ∅⟩
  neatens : Neatens ⟨graph, ∅, ∅⟩ ⟨after, ∅, ∅⟩

theorem Moves.refl : Moves straight slots free graph graph := ⟨.refl, .refl⟩

theorem Moves.single
    (step : Step (graph.frame straight slots free) ⟨graph, ∅, ∅⟩ ⟨after, ∅, ∅⟩)
    (neatens : Neatens ⟨graph, ∅, ∅⟩ ⟨after, ∅, ∅⟩) : Moves straight slots free graph after :=
  ⟨.single step, neatens⟩

theorem Moves.stepped (moves : Moves straight slots free graph after)
    (ready : graph.Ready) :
    Stepped (graph.frame straight slots free) graph after :=
  Steps.stepped moves.steps ready.sound ready.fits

theorem Moves.ready (moves : Moves straight slots free graph after) (ready : graph.Ready) : after.Ready :=
  ⟨Steps.sound moves.steps ready.sound⟩

theorem Moves.current_ne (moves : Moves straight slots free graph after)
    (ready : graph.Ready) (has : graph.HasBlock block) (fixed : block ∉ free)
    (apart : block ≠ graph.current) : block ≠ after.current := by
  rintro rfl
  rcases (moves.stepped ready).current with same | outside
  · exact apart same
  · exact outside ⟨has, fixed⟩

theorem Moves.mono {bent : Prop} (moves : Moves straight more free graph after)
    (less : bent → straight) (fewer : slots ⊆ more) : Moves bent slots free graph after := by
  have below : (graph.frame bent slots free).Below (graph.frame straight more free) :=
    ⟨⟨subset_rfl, subset_rfl, subset_rfl⟩, subset_rfl, fewer, less⟩
  exact ⟨moves.steps.weaken below, moves.neatens⟩

theorem Moves.append (first : Moves straight slots free graph middle)
    (second : Moves straight more other middle after) (ready : graph.Ready)
    (fewer : slots ⊆ more) (kept : free ⊆ all)
    (new : ∀ block ∈ other, block ∈ all ∨ ¬ graph.HasBlock block) :
    Moves straight slots all graph after := by
  have stepped := first.stepped ready
  have weaker : (graph.frame straight slots all).Below (graph.frame straight slots free) :=
    { values := subset_rfl
      blank := fun block found =>
        ⟨found.1, found.2.1, found.2.2.1, fun isFree => found.2.2.2 (kept isFree)⟩
      notes := subset_rfl
      blocks := fun block found => ⟨found.1, fun isFree => found.2 (kept isFree)⟩
      slots := subset_rfl
      straight := id }
  have below : (graph.frame straight slots all).Below (middle.frame straight more other) :=
    { values := fun value has => stepped.hasValue value has
      blank := fun block found => by
        have fixed : block ∉ free := fun isFree => found.2.2.2 (kept isFree)
        refine ⟨stepped.hasBlock block found.1, stepped.blank block ⟨found.1, found.2.1, found.2.2.1, fixed⟩,
          first.current_ne ready found.1 fixed found.2.2.1, fun isFree => ?_⟩
        exact (new block isFree).elim found.2.2.2 (· found.1)
      notes := subset_rfl
      blocks := fun block found =>
        ⟨stepped.hasBlock block found.1, fun isFree => (new block isFree).elim found.2 (· found.1)⟩
      slots := fewer
      straight := id }
  exact ⟨(first.steps.weaken weaker).trans (second.steps.weaken below), first.neatens.trans second.neatens⟩

theorem Moves.stays (moves : Moves straight slots free graph after) (ready : graph.Ready)
    (isStraight : straight) :
    after.current = graph.current ∧ ∀ block, after.HasBlock block → graph.HasBlock block :=
  have fits : (graph.frame straight slots free).Fits graph := ready.fits
  Steps.straight moves.steps isStraight ready.sound fits

theorem Moves.dominates_iff (moves : Moves straight slots free graph after)
    (ready : graph.Ready) (has : graph.HasBlock block) (fixed : block ∉ free)
    (blank : ∀ target ∈ free, graph.IsBlank target) :
    after.Dominates origin block ↔ graph.Dominates origin block := by
  have stepped := moves.stepped ready
  refine not_congr (avoids_congr (fun block => graph.HasBlock block ∧ block ∉ free) stepped.entry
    (fun block inside => stepped.preds block inside) (fun block inside pred edge => ?_)
    ⟨has, fixed⟩)
  -- a blank block is no predecessor, so no free block is on a way
  exact ⟨ready.sound.hasBlock_pred edge, fun isFree => ready.sound.not_blank_of_pred edge (blank pred isFree)⟩

/-! ## What lowering a part does -/

def IsOpen (graph : Graph) : Prop :=
  (graph.block graph.current).ending = none

structure Held (graph : Graph) (block : BlockId) (value : ValueId) : Prop where
  live : graph.IsLive value
  dominates : graph.Dominates (graph.value value).block block

theorem Held.behind (held : graph.Held origin value) (dominates : graph.Dominates origin block) :
    graph.Held block value :=
  ⟨held.live, held.dominates.trans dominates⟩

theorem Held.moves (held : graph.Held block value)
    (moves : Moves straight slots free graph after) (ready : graph.Ready)
    (has : graph.HasBlock block) (fixed : block ∉ free)
    (blank : ∀ target ∈ free, graph.IsBlank target) : after.Held block value := by
  have stepped := moves.stepped ready
  have core := stepped.core value held.live.1
  have home : (after.value value).block = (graph.value value).block :=
    Value.block_of_nature (Value.nature_of_core core)
  refine ⟨⟨stepped.hasValue value held.live.1, ?_⟩, ?_⟩
  · rw [Value.removed_of_core core]
    exact held.live.2
  · rw [home, moves.dominates_iff ready has fixed blank]
    exact held.dominates

/-- What lowering a part does: all changes are within the frame, the current block comes behind the one
before, and new blocks are sealed. -/
structure Proceeds (straight : Prop) (slots : Set VarId) (graph after : Graph) :
    Prop where
  moves : Moves straight slots ∅ graph after
  dominates : after.Dominates graph.current after.current
  closed : ∀ block, after.HasBlock block → graph.HasBlock block ∨ (after.block block).isSealed = true

theorem Proceeds.refl : Proceeds straight slots graph graph := ⟨.refl, dominates_self, fun _ has => .inl has⟩

theorem Proceeds.mono (proceeds : Proceeds straight more graph after) (fewer : slots ⊆ more) :
    Proceeds straight slots graph after :=
  ⟨proceeds.moves.mono id fewer, proceeds.dominates, proceeds.closed⟩

theorem Proceeds.ready (proceeds : Proceeds straight slots graph after) (ready : graph.Ready) : after.Ready :=
  proceeds.moves.ready ready

theorem Proceeds.dominates_iff (proceeds : Proceeds straight slots graph after)
    (ready : graph.Ready) (has : graph.HasBlock block) :
    after.Dominates origin block ↔ graph.Dominates origin block :=
  proceeds.moves.dominates_iff ready has (Set.notMem_empty _) fun _ found =>
    absurd found (Set.notMem_empty _)

theorem Proceeds.trans (first : Proceeds straight slots graph middle)
    (second : Proceeds straight more middle after) (ready : graph.Ready)
    (fewer : slots ⊆ more) : Proceeds straight slots graph after where
  moves := first.moves.append second.moves ready fewer subset_rfl fun _ found =>
    absurd found (Set.notMem_empty _)
  dominates := by
    have readyThen := first.ready ready
    refine Dominates.trans ?_ second.dominates
    exact (second.dominates_iff readyThen readyThen.sound.flows.hasCurrent).2 first.dominates
  closed block has := by
    rcases second.closed block has with had | done
    · refine (first.closed block had).imp_right fun done => ?_
      exact ((second.moves.stepped (first.ready ready)).closed block done).1
    · exact .inr done

theorem Held.proceeds (held : graph.Held graph.current value)
    (proceeds : Proceeds straight slots graph after) (ready : graph.Ready) :
    after.Held after.current value :=
  (held.moves proceeds.moves ready ready.sound.flows.hasCurrent (Set.notMem_empty _)
    fun _ found => absurd found (Set.notMem_empty _)).behind proceeds.dominates

end Graph

end Shader
