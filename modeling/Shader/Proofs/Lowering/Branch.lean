import Shader.Proofs.Lowering.Selection

/-! # Branches

Lowering a branch between statements. The arms of a branch may end in any way, so it is not known how many
of them go on with the block behind it; but each one that does comes behind the head. -/

namespace Shader

open Relation (ReflTransGen)

namespace Graph

variable {slots : Set VarId} {free : Set BlockId} {graph after : Graph}
  {target origin : BlockId}

/-- A block waits to be filled, and all its predecessors so far come behind another block. -/
def Gathers (graph : Graph) (target origin : BlockId) : Prop :=
  ∃ preds, graph.Reserved target preds false ∧ ∀ pred ∈ preds, graph.Dominates origin pred

theorem Ready.dominates_pred (ready : graph.Ready)
    (moves : Moves False slots free graph after)
    (blank : ∀ block ∈ free, graph.IsBlank block) {block pred : BlockId}
    (edge : pred ∈ (graph.block block).preds) (dominates : graph.Dominates origin pred) :
    after.Dominates origin pred :=
  (moves.dominates_iff ready (ready.sound.hasBlock_pred edge)
    (fun isFree => ready.sound.not_blank_of_pred edge (blank pred isFree)) blank).2 dominates

theorem Gathers.moves (gathers : graph.Gathers target origin)
    (moves : Moves False slots free graph after) (ready : graph.Ready)
    (away : target ∉ free) (blank : ∀ block ∈ free, graph.IsBlank block) :
    after.Gathers target origin := by
  obtain ⟨preds, reserved, behind⟩ := gathers
  refine ⟨preds, reserved.moves moves ready away, fun pred found => ?_⟩
  exact ready.dominates_pred moves blank (reserved.preds ▸ found) (behind pred found)

end Graph

namespace Build

open Shader.Graph

variable {program : Program} {slots scope : Set VarId} {graph : Graph}
  {watch : Watch} {block target origin : BlockId} {α : Type} {post : α → Graph → Prop}

theorem jumpIfOpen_yields (slots : Set VarId)
    (tolerant : watch.Tolerant)
    (ready : graph.Ready) (gathers : graph.Gathers target origin)
    (behind : graph.Dominates origin graph.current) :
    Yields watch (jumpIfOpen target) graph fun _ after =>
      Extends slots {target} ∅ graph after ∧ after.Gathers target origin := by
  refine yields_get_bind ?_
  by_cases isOpen : graph.IsOpen
  · have goesOn : graph.isTerminated graph.current = false := by
      simpa [isTerminated, Graph.IsOpen] using isOpen
    simp only [goesOn, Bool.false_eq_true, if_false]
    obtain ⟨preds, reserved, behindAll⟩ := gathers
    refine Yields.bind (jump_reserved slots tolerant ready isOpen reserved) ?_
    rintro - after ⟨extension, targets, -⟩
    have blank : ∀ block ∈ ({target} : Set BlockId), graph.IsBlank block := by
      rintro _ rfl
      exact reserved.blank
    refine yields_pure ⟨extension, preds ++ [graph.current], targets, fun pred found => ?_⟩
    rcases List.mem_append.1 found with found | found
    · exact ready.dominates_pred extension.moves blank (reserved.preds ▸ found) (behindAll pred found)
    · rw [List.mem_singleton.1 found]
      exact (extension.moves.dominates_iff ready ready.sound.flows.hasCurrent
        (fun same => reserved.apart same.symm) blank).2 behind
  · have ended : graph.isTerminated graph.current = true := by
      simpa [isTerminated, Graph.IsOpen, Option.isSome_iff_ne_none] using isOpen
    simp only [ended, if_true]
    -- nothing is done, so that the block waits as before
    exact yields_pure ⟨⟨.refl, fun _ has => .inl has⟩, gathers⟩

/-- What filling a block with an arm of a branch does, up to its jump to another block. -/
structure TakesBranch (slots : Set VarId) (origin block target : BlockId) (graph after : Graph) :
    Prop where
  extension : Extends slots {block, target} ∅ graph after
  isSealed : (after.block block).isSealed = true
  gathers : after.Gathers target origin

theorem branchWith_ensures (tolerant : watch.Tolerant)
    {step : Build Unit} {preds : List BlockId}
    (fills : Fills watch program slots scope step fun _ _ _ => True)
    (ready : graph.Ready) (fewer : scope ⊆ slots)
    (reserved : graph.Reserved block preds false)
    (behind : ∀ pred ∈ preds, graph.Dominates origin pred) (gathers : graph.Gathers target origin)
    (differs : block ≠ target) (has : graph.HasBlock origin) (apart : origin ≠ block)
    (available : graph.Available program origin scope) :
    Ensures watch (branchWith program block target step) graph fun _ after =>
      TakesBranch slots origin block target graph after := by
  have blank : ∀ other ∈ ({block} : Set BlockId), graph.IsBlank other := by
    rintro _ rfl
    exact reserved.blank
  refine Ensures.bind (seal_yields slots tolerant ready reserved).ensures ?_
  rintro - sealed ⟨seals, reservedSealed, -⟩
  have readySealed := seals.ready ready
  have stepped := seals.moves.stepped ready
  have away : target ∉ ({block} : Set BlockId) := fun same => differs same.symm
  have blankSealed : ∀ other ∈ ({block} : Set BlockId), sealed.IsBlank other := by
    rintro _ rfl
    exact reservedSealed.blank
  refine fill_ensures fills readySealed fewer reservedSealed
    (fun pred found => ready.dominates_pred seals.moves blank (reserved.preds ▸ found) (behind pred found))
    (stepped.hasBlock origin has) apart (available.moves seals.moves ready fewer has apart blank) ?_
  intro _ _ filled _ enters readyFilled behindFilled _
  have gathersFilled : filled.Gathers target origin :=
    (gathers.moves seals.moves ready away blank).moves enters.moves readySealed away blankSealed
  have whole : Extends slots {block} ∅ graph filled :=
    seals.append enters ready subset_rfl subset_rfl (by simp) (by simp) subset_rfl
  refine (Yields.mono (jumpIfOpen_yields slots tolerant readyFilled gathersFilled behindFilled) ?_).ensures
  rintro - after ⟨leaves, gathersAfter⟩
  refine
    { extension := whole.append leaves ready subset_rfl (by simp) (by simp) (by simp) subset_rfl
      isSealed := ?_
      gathers := gathersAfter }
  have closedFilled := ((enters.moves.stepped readySealed).closed block reservedSealed.isSealed).1
  exact ((leaves.moves.stepped readyFilled).closed block closedFilled).1

theorem resume_yields (slots : Set VarId)
    (tolerant : watch.Tolerant)
    (ready : graph.Ready) (gathers : graph.Gathers target origin) :
    Yields watch (do sealBlock program target; setCurrent target) graph fun _ after =>
      Extends slots {target} ∅ graph after ∧ Starts target after ∧
        after.IsOpen ∧ after.Dominates origin target ∧ (after.block target).isSealed = true := by
  obtain ⟨preds, reserved, behind⟩ := gathers
  have blank : ∀ block ∈ ({target} : Set BlockId), graph.IsBlank block := by
    rintro _ rfl
    exact reserved.blank
  refine Yields.bind (seal_yields slots tolerant ready reserved) ?_
  rintro - sealed ⟨seals, reservedSealed, -⟩
  have readySealed := seals.ready ready
  refine Yields.mono (setCurrent_yields slots readySealed reservedSealed) ?_
  rintro - after ⟨enters, starts, isOpen, dominates⟩
  refine ⟨seals.append enters ready subset_rfl subset_rfl (by simp) (by simp) subset_rfl,
    starts, isOpen, (dominates origin).2 ?_,
    ((enters.moves.stepped readySealed).closed target reservedSealed.isSealed).1⟩
  exact reservedSealed.dominates fun pred found =>
    ready.dominates_pred seals.moves blank (reserved.preds ▸ found) (behind pred found)

/-! ## The whole branch -/

section

variable (tolerant : watch.Tolerant)
  (ready : graph.Ready) (isOpen : graph.IsOpen) {condition : ValueId}
  (held : graph.Held graph.current condition) (available : graph.Available program graph.current scope)
  {onTrue : Build Unit} (fillsTrue : Fills watch program scope scope onTrue fun _ _ _ => True)

include tolerant ready isOpen held available fillsTrue

theorem forkBoth_ensures {onFalse : Build Unit}
    (fillsFalse : Fills watch program scope scope onFalse fun _ _ _ => True) :
    Ensures watch (do
        let construct ← nextConstruct
        let trueBlock ← newBlock construct "if_body"
        let falseBlock ← newBlock construct "if_else"
        let last ← newBlock construct "if_after"
        let head := (← get).current
        setMerge head (.selection last)
        let _ ← condJump head condition trueBlock falseBlock
        branchWith program trueBlock last onTrue
        branchWith program falseBlock last onFalse
        sealBlock program last
        setCurrent last) graph fun _ after =>
      Proceeds False scope graph after ∧ after.IsOpen := by
  refine fork_ensures scope tolerant ready isOpen held ?_
  intro trueBlock falseBlock last forked forks
  obtain ⟨trueFalse, trueLast, falseLast⟩ : trueBlock ≠ falseBlock ∧ trueBlock ≠ last ∧
      falseBlock ≠ last := by
    have distinct := forks.distinct
    simp at distinct
    tauto
  have newTrue := forks.new trueBlock (by simp)
  have newFalse := forks.new falseBlock (by simp)
  have newLast := forks.new last (by simp)
  have hasHead := ready.sound.flows.hasCurrent
  have apart {block : BlockId} (new : ¬ graph.HasBlock block) : graph.current ≠ block := by
    rintro rfl
    exact new hasHead
  have availableIn {now : Graph} {unsealed : Set BlockId}
      (extension : Extends scope ∅ unsealed graph now) :
      now.Available program graph.current scope :=
    available.moves extension.moves ready subset_rfl hasHead (Set.notMem_empty _)
      fun _ found => absurd found (Set.notMem_empty _)
  have ready₁ := forks.extension.ready ready
  have gathers₁ : forked.Gathers last graph.current :=
    ⟨[], forks.others last (by simp) trueLast.symm falseLast.symm, by simp⟩
  refine Ensures.bind (branchWith_ensures tolerant fillsTrue ready₁ subset_rfl forks.reservedTrue
    (by simp) gathers₁ trueLast ((forks.extension.moves.stepped ready).hasBlock _ hasHead)
    (apart newTrue) (availableIn forks.extension)) ?_
  rintro - trueDone first
  have ready₂ := first.extension.ready ready₁
  have whole₂ := forks.extension.close first.extension ready subset_rfl (by simp [newTrue, newLast])
    first.isSealed
  have false₂ := forks.reservedFalse.moves first.extension.moves ready₁ (by simp [trueFalse.symm, falseLast])
  refine Ensures.bind (branchWith_ensures tolerant fillsFalse ready₂ subset_rfl false₂
    (by simp) first.gathers falseLast ((whole₂.moves.stepped ready).hasBlock _ hasHead)
    (apart newFalse) (availableIn whole₂)) ?_
  rintro - falseDone second
  have ready₃ := second.extension.ready ready₂
  have whole₃ := whole₂.close second.extension ready subset_rfl (by simp [newFalse, newLast]) second.isSealed
  refine (Yields.mono (resume_yields scope tolerant ready₃ second.gathers) ?_).ensures
  rintro - after ⟨resumes, starts, isOpenAfter, behind, isSealed⟩
  have whole : Extends scope ∅ ∅ graph after := by
    refine (whole₃.close resumes ready subset_rfl (by simpa using newLast) isSealed).mono ?_
    intro block found
    simp at found
    tauto
  exact ⟨whole.proceeds id (starts.current.symm ▸ behind), isOpenAfter⟩

theorem forkSingle_ensures : Ensures watch (do
        let construct ← nextConstruct
        let trueBlock ← newBlock construct "if_body"
        let last ← newBlock construct "if_after"
        let head := (← get).current
        setMerge head (.selection last)
        let _ ← condJump head condition trueBlock last
        branchWith program trueBlock last onTrue
        sealBlock program last
        setCurrent last) graph fun _ after =>
      Proceeds False scope graph after ∧ after.IsOpen := by
  refine Ensures.bind (nextConstruct_yields scope).ensures ?_
  rintro construct counted ⟨extends₁, prepares₁⟩
  refine Ensures.bind (newBlock_reserving (Reserving.refl.onward extends₁ prepares₁ ready) ready
    construct _).ensures ?_
  intro trueBlock graph₂ reserving₂
  refine Ensures.bind (newBlock_reserving reserving₂ ready construct _).ensures ?_
  intro last graph₃ reserving
  have trueLast : trueBlock ≠ last := by simpa using reserving.distinct
  refine split_ensures scope tolerant ready isOpen held reserving (by simp) (by simp) trueLast ?_
  intro forked forks
  have newTrue := forks.new trueBlock (by simp)
  have newLast := forks.new last (by simp)
  have hasHead := ready.sound.flows.hasCurrent
  have apart : graph.current ≠ trueBlock := by
    rintro rfl
    exact newTrue hasHead
  have ready₁ := forks.extension.ready ready
  -- the head itself goes on with the last block, too
  have gathers₁ : forked.Gathers last graph.current := ⟨_, forks.reservedFalse, by simp⟩
  refine Ensures.bind (branchWith_ensures tolerant fillsTrue ready₁ subset_rfl forks.reservedTrue
    (by simp) gathers₁ trueLast ((forks.extension.moves.stepped ready).hasBlock _ hasHead) apart
    (available.moves forks.extension.moves ready subset_rfl hasHead (Set.notMem_empty _) (by simp))) ?_
  rintro - trueDone first
  have ready₂ := first.extension.ready ready₁
  have whole₂ := forks.extension.close first.extension ready subset_rfl (by simp [newTrue, newLast])
    first.isSealed
  refine (Yields.mono (resume_yields scope tolerant ready₂ first.gathers) ?_).ensures
  rintro - after ⟨resumes, starts, isOpenAfter, behind, isSealed⟩
  have whole : Extends scope ∅ ∅ graph after := by
    refine (whole₂.close resumes ready subset_rfl (by simpa using newLast) isSealed).mono ?_
    intro block found
    simp at found
    tauto
  exact ⟨whole.proceeds id (starts.current.symm ▸ behind), isOpenAfter⟩

end

theorem ifElseWith_ensures (tolerant : watch.Tolerant)
    (ready : graph.Ready) (isOpen : graph.IsOpen)
    (available : graph.Available program graph.current scope) {condition : ExprId} {onTrue : Build Unit}
    {onFalse : Option (Build Unit)}
    (fillsCondition : Fills watch program Set.univ scope (expr program condition) (Evaluates False))
    (fillsTrue : Fills watch program scope scope onTrue fun _ _ _ => True)
    (fillsFalse : ∀ step ∈ onFalse, Fills watch program scope scope step fun _ _ _ => True) :
    Ensures watch (ifElseWith program condition onTrue onFalse) graph fun _ after =>
      Proceeds False scope graph after ∧ after.IsOpen := by
  refine Ensures.bind (fillsCondition graph ready isOpen available) ?_
  rintro test middle ⟨-, evaluates⟩
  have readyMiddle := evaluates.ready ready
  have availableMiddle := available.proceeds evaluates.proceeds ready (Set.subset_univ _)
  have finish {step : Build Unit} (ensured : Ensures watch step middle fun _ after =>
        Proceeds False scope middle after ∧ after.IsOpen) :
      Ensures watch step middle fun _ after => Proceeds False scope graph after ∧ after.IsOpen :=
    ensured.mono fun _ _ done =>
      ⟨(evaluates.proceeds.mono (Set.subset_univ _)).trans done.1 ready subset_rfl, done.2⟩
  cases onFalse with
  | some onFalse =>
    exact finish (forkBoth_ensures tolerant readyMiddle evaluates.isOpen evaluates.held
      availableMiddle fillsTrue (fillsFalse onFalse rfl))
  | none =>
    exact finish (forkSingle_ensures tolerant readyMiddle evaluates.isOpen evaluates.held
      availableMiddle fillsTrue)

end Build

end Shader
