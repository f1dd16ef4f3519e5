import Shader.Proofs.Lowering.Place

/-! # Selections

Lowering a choice between two arms: the current block goes on with one of two new blocks, each is filled
with its arm, and both go on with a third one. -/

namespace Shader

open Relation (ReflTransGen)

namespace Graph

/-- Blocks are made, and the current block goes on with one of two of them. The others are reserved. -/
structure Splits (slots : Set VarId) (blocks : List BlockId) (onTrue onFalse : BlockId)
    (graph forked : Graph) : Prop where
  extension : Extends slots ∅ {block | block ∈ blocks} graph forked
  current : forked.current = graph.current
  reservedTrue : forked.Reserved onTrue [graph.current] false
  reservedFalse : forked.Reserved onFalse [graph.current] false
  others : ∀ block ∈ blocks, block ≠ onTrue → block ≠ onFalse → forked.Reserved block [] false
  new : ∀ block ∈ blocks, ¬ graph.HasBlock block
  distinct : blocks.Nodup

theorem Reserving.held {slots : Set VarId} {blocks : List BlockId}
    {graph after : Graph} {value : ValueId}
    (reserving : Reserving slots blocks graph after)
    (held : graph.Held graph.current value) (ready : graph.Ready) :
    after.Held after.current value := by
  rw [reserving.prepares.current]
  exact held.moves reserving.extension.moves ready ready.sound.flows.hasCurrent (Set.notMem_empty _)
    fun _ found => absurd found (Set.notMem_empty _)

end Graph

namespace Build

open Shader.Graph

variable {program : Program} {straight : Prop} {slots scope : Set VarId} {graph : Graph}
  {watch : Watch} {condition : ValueId} {α : Type} {post : α → Graph → Prop}

section Fork

variable (slots : Set VarId) (tolerant : watch.Tolerant) (ready : graph.Ready)
  (isOpen : graph.IsOpen) (held : graph.Held graph.current condition)

include tolerant ready isOpen held

theorem split_yields {blocks : List BlockId} {split : Graph}
    (reserving : Reserving slots blocks graph split) {onTrue onFalse : BlockId}
    (hasTrue : onTrue ∈ blocks) (hasFalse : onFalse ∈ blocks) (differs : onTrue ≠ onFalse) :
    Yields watch (condJump split.current condition onTrue onFalse) split fun _ forked =>
      Splits slots blocks onTrue onFalse graph forked := by
  have readySplit := reserving.extension.ready ready
  refine Yields.mono (condJump_reserved slots tolerant readySplit (reserving.prepares.isOpen isOpen)
    (reserving.held held ready) (reserving.reserved onTrue hasTrue)
    (reserving.reserved onFalse hasFalse) differs) ?_
  rintro - forked ⟨extension, reservedTrue, reservedFalse, -, current⟩
  rw [reserving.prepares.current] at current
  rw [reserving.prepares.current, List.nil_append] at reservedTrue reservedFalse
  refine
    { extension := (reserving.extension.onward extension ready subset_rfl ?_).mono (by simp)
      current := current
      reservedTrue := reservedTrue
      reservedFalse := reservedFalse
      others := fun block found notTrue notFalse => ?_
      new := reserving.new
      distinct := reserving.distinct }
  · rintro block (rfl | rfl)
    · exact reserving.new _ hasTrue
    · exact reserving.new _ hasFalse
  · exact (reserving.reserved block found).moves extension.moves readySplit (by simp [notTrue, notFalse])

theorem split_ensures {blocks : List BlockId} {now : Graph}
    (reserving : Reserving slots blocks graph now) {onTrue onFalse : BlockId}
    (hasTrue : onTrue ∈ blocks) (hasFalse : onFalse ∈ blocks) (differs : onTrue ≠ onFalse)
    {merge : Merge} {next : Build α}
    (continues : ∀ forked, Splits slots blocks onTrue onFalse graph forked → Ensures watch next forked post) :
    Ensures watch (do
        let head := (← get).current
        setMerge head merge
        let _ ← condJump head condition onTrue onFalse
        next) now post := by
  refine ensures_get_bind (Ensures.bind (setMerge_yields slots
    (reserving.extension.ready ready).sound.flows.hasCurrent merge).ensures ?_)
  rintro - split ⟨extension, prepares⟩
  rw [← prepares.current]
  exact Ensures.bind (split_yields slots tolerant ready isOpen held
    (reserving.onward extension prepares ready) hasTrue hasFalse differs).ensures
    fun _ => continues

theorem fork_ensures {first second third : String} {next : BlockId → BlockId → BlockId → Build α}
    (continues : ∀ trueBlock falseBlock last forked,
      Splits slots [trueBlock, falseBlock, last] trueBlock falseBlock graph forked →
        Ensures watch (next trueBlock falseBlock last) forked post) :
    Ensures watch (do
        let construct ← nextConstruct
        let trueBlock ← newBlock construct first
        let falseBlock ← newBlock construct second
        let last ← newBlock construct third
        let head := (← get).current
        setMerge head (.selection last)
        let _ ← condJump head condition trueBlock falseBlock
        next trueBlock falseBlock last) graph post := by
  refine Ensures.bind (nextConstruct_yields slots).ensures ?_
  rintro construct counted ⟨extends₁, prepares₁⟩
  refine Ensures.bind (newBlock_reserving (Reserving.refl.onward extends₁ prepares₁ ready) ready
    construct first).ensures ?_
  intro trueBlock graph₂ reserving₂
  refine Ensures.bind (newBlock_reserving reserving₂ ready construct second).ensures ?_
  intro falseBlock graph₃ reserving₃
  refine Ensures.bind (newBlock_reserving reserving₃ ready construct third).ensures ?_
  intro last graph₄ reserving
  have distinct : [trueBlock, falseBlock, last].Nodup := reserving.distinct
  exact split_ensures slots tolerant ready isOpen held reserving (by simp) (by simp)
    (by simp at distinct; tauto) (continues trueBlock falseBlock last)

end Fork

/-! ## Filling a block -/

/-- What a step does that is lowered in any open block behind which the variables in scope are
available. -/
def Fills (watch : Watch) (program : Program) (slots scope : Set VarId) {β : Type} (step : Build β)
    (does : Graph → β → Graph → Prop) : Prop :=
  ∀ start : Graph, start.Ready → start.IsOpen → start.Available program start.current scope →
    Ensures watch step start fun result after =>
      Proceeds False slots start after ∧ does start result after

theorem fill_ensures {β : Type} {step : Build β} {does : Graph → β → Graph → Prop}
    {next : β → Build α} {block origin : BlockId} {preds : List BlockId} {closed : Bool}
    (fills : Fills watch program slots scope step does)
    (ready : graph.Ready) (fewer : scope ⊆ slots)
    (reserved : graph.Reserved block preds closed)
    (behind : ∀ pred ∈ preds, graph.Dominates origin pred) (has : graph.HasBlock origin)
    (apart : origin ≠ block) (available : graph.Available program origin scope)
    (continues : ∀ start result after, Starts block start → Extends slots {block} ∅ graph after →
      after.Ready → after.Dominates origin after.current → does start result after →
        Ensures watch (next result) after post) :
    Ensures watch (setCurrent block >>= fun _ => step >>= next) graph post := by
  refine Ensures.bind (setCurrent_yields slots ready reserved).ensures ?_
  rintro - start ⟨enters, starts, isOpen, dominates⟩
  have readyStart := enters.ready ready
  have behindStart : start.Dominates origin block := (dominates origin).2 (reserved.dominates behind)
  have availableStart : start.Available program start.current scope := by
    rw [starts.current]
    refine (available.moves enters.moves ready fewer has apart ?_).behind behindStart
    rintro _ rfl
    exact reserved.blank
  refine Ensures.bind (fills start readyStart isOpen availableStart) ?_
  rintro result after ⟨proceeds, done⟩
  refine continues start result after starts ?_ (proceeds.ready readyStart) ?_ done
  · exact enters.append proceeds.extends ready subset_rfl subset_rfl
      (fun _ found => absurd found (Set.notMem_empty _)) (fun _ found => .inl found) subset_rfl
  · have still := (proceeds.dominates_iff readyStart readyStart.sound.flows.hasCurrent).2
      (starts.current ▸ behindStart)
    exact still.trans proceeds.dominates

/-! ## Choosing between expressions -/

theorem joinPhi_yields (tolerant : watch.Tolerant)
    (ready : graph.Ready) (isOpen : graph.IsOpen) {first second : BlockId}
    {left right : ValueId} (type : TypeId) (blank : graph.IsBlank graph.current)
    (notEntry : graph.current ≠ graph.entry)
    (preds : (graph.block graph.current).preds = [first, second])
    (closed : (graph.block graph.current).isSealed = true) (heldLeft : graph.Held first left)
    (heldRight : graph.Held second right) :
    Yields watch (do
        let phi ← makeValue graph.current
          { opcode := .phi, args := [left, right], type := some type }
        removePhi phi) graph (Evaluates False graph) := by
  have none : (graph.block graph.current).incomplete = [] := by
    refine List.eq_nil_iff_forall_not_mem.2 ?_
    rintro ⟨var, phi⟩ found
    obtain ⟨-, -, -, -, bound, -⟩ := ready.sound.fills.waits _ var phi found
    rw [blank.binding] at bound
    exact absurd bound (by simp)
  let guard : Guard := graph.frame False Set.univ ∅
  have fits : guard.Fits graph := ready.fits
  have allowed : graph.current ∉ guard.blank := current_allowed
  refine Yields.bind (makeValue_phi tolerant ready.sound ready.sound.flows.hasCurrent rfl
    (by simpa using ⟨heldLeft.live, heldRight.live⟩) ?_ notEntry allowed) ?_
  · intro position arg pred isArg isPred
    rw [preds] at isPred
    rcases position with _ | _ | position
    · simp only [List.getElem?_cons_zero, Option.some.injEq] at isArg isPred
      rw [← isArg, ← isPred]
      exact heldLeft.dominates
    · simp only [Nat.zero_add, List.getElem?_cons_succ, List.getElem?_cons_zero,
        Option.some.injEq] at isArg isPred
      rw [← isArg, ← isPred]
      exact heldRight.dominates
    · simp at isArg
  rintro _ placed ⟨rfl, inserts, makes⟩
  have node := inserts.value_new
  have home : (placed.value graph.values.next).block = graph.current := by rw [node]
  -- the phi has an operand for each predecessor, so it is filled at once
  have settles : Lookup guard
      ⟨placed, ∅ ∪ {graph.values.next}, ∅⟩ ⟨placed, ∅, ∅⟩ := by
    refine .settle ?_ (.inl ?_)
    · rw [IsFilled, home, inserts.preds, preds, node]
      rfl
    · rw [home, inserts.isSealed]
      exact closed
  have places : Looks guard ⟨graph, ∅, ∅⟩ ⟨placed, ∅, ∅⟩ := (ReflTransGen.single makes).tail settles
  have looked : Looked guard graph placed := Looks.looked places ready.sound fits
  have sound : placed.Sound ∅ ∅ := Looks.sound places ready.sound
  have live : placed.IsLive graph.values.next := inserts.live_new
  have removable : placed.Removable guard ∅ graph.values.next := by
    refine ⟨by rw [node], Set.notMem_empty _, ?_, fun found => found.ne_next rfl⟩
    rw [Waits, home, inserts.incomplete, none]
    simp
  refine Yields.mono (removePhi_yields tolerant sound (looked.fits fits)
    (fun _ found => absurd found (Set.notMem_empty _)) live removable) ?_
  rintro value after ⟨cascades, survives, rfl, loose⟩
  have neatens : Neatens ⟨graph, ∅, ∅⟩ ⟨after, ∅, ∅⟩ :=
    (inserts.neatens_join (by simp)).trans (cascades.neatens loose)
  have whole := places.trans cascades.looks
  have lookedAfter := Looks.looked cascades.looks sound (looked.fits fits)
  have dominates := Looks.dominates_resolve cascades.looks sound (looked.fits fits) live
  rw [home] at dominates
  refine ⟨proceeds_of_looks ready whole neatens, isOpen_of_looks ready isOpen whole, survives, ?_⟩
  rw [lookedAfter.current, looked.current]
  exact lookedAfter.dominates_iff.2 dominates

/-- What filling a block with an arm of a choice does, up to its jump to another block. -/
structure TakesArm (origin block target : BlockId) (preds : List BlockId) (graph : Graph)
    (value : ValueId) (after : Graph) : Prop where
  extension : Extends Set.univ {block, target} ∅ graph after
  behind : after.Dominates origin after.current
  held : after.Held after.current value
  reserved : after.Reserved target (preds ++ [after.current]) false

theorem arm_ensures (tolerant : watch.Tolerant)
    {step : Build ValueId} {next : ValueId → Build α}
    {block target origin : BlockId} {preds targetPreds : List BlockId} {closed : Bool}
    (fills : Fills watch program Set.univ scope step (Evaluates False))
    (ready : graph.Ready) (reserved : graph.Reserved block preds closed)
    (reservedTarget : graph.Reserved target targetPreds false) (differs : block ≠ target)
    (behind : ∀ pred ∈ preds, graph.Dominates origin pred) (has : graph.HasBlock origin)
    (apart : origin ≠ block) (available : graph.Available program origin scope)
    (continues : ∀ value after, TakesArm origin block target targetPreds graph value after →
        Ensures watch (next value) after post) :
    Ensures watch (setCurrent block >>= fun _ => step >>= fun value =>
        get >>= fun now => jump now.current target >>= fun _ => next value) graph post := by
  refine fill_ensures fills ready (Set.subset_univ _) reserved behind has apart available ?_
  intro start value filled starts enters readyFilled behindFilled evaluates
  have target₁ := reservedTarget.moves enters.moves ready (by simpa using differs.symm)
  refine ensures_get_bind (Ensures.bind (jump_reserved Set.univ tolerant readyFilled evaluates.isOpen
    target₁).ensures ?_)
  rintro - after ⟨leaves, target₂, -, current⟩
  rw [← current] at target₂
  have away : filled.current ∉ ({target} : Set BlockId) := fun same => target₁.apart same.symm
  have blank : ∀ other ∈ ({target} : Set BlockId), filled.IsBlank other := by
    rintro _ rfl
    exact target₁.blank
  have hasFilled := readyFilled.sound.flows.hasCurrent
  refine continues value after
    { extension := ?_
      behind := ?_
      held := ?_
      reserved := target₂ }
  · exact enters.append leaves ready subset_rfl (by simp) (by simp) (by simp) subset_rfl
  · rw [current]
    exact (leaves.moves.dominates_iff readyFilled hasFilled away blank).2 behindFilled
  · rw [current]
    exact evaluates.held.moves leaves.moves readyFilled hasFilled away blank

theorem chooseWith_ensures (tolerant : watch.Tolerant)
    (ready : graph.Ready) (isOpen : graph.IsOpen)
    (held : graph.Held graph.current condition) (available : graph.Available program graph.current scope)
    {onTrue onFalse : Build ValueId} {type : TypeId}
    (fillsTrue : Fills watch program Set.univ scope onTrue (Evaluates False))
    (fillsFalse : Fills watch program Set.univ scope onFalse (Evaluates False)) :
    Ensures watch (chooseWith program condition onTrue onFalse type) graph (Evaluates False graph) := by
  refine fork_ensures Set.univ tolerant ready isOpen held ?_
  intro trueBlock falseBlock last forked forks
  obtain ⟨trueFalse, trueLast, falseLast⟩ : trueBlock ≠ falseBlock ∧ trueBlock ≠ last ∧
      falseBlock ≠ last := by
    have distinct := forks.distinct
    simp at distinct
    tauto
  have newTrue := forks.new trueBlock (by simp)
  have newFalse := forks.new falseBlock (by simp)
  have newLast := forks.new last (by simp)
  have hasHead := ready.sound.flows.hasCurrent
  have apart {block : BlockId} (new : ¬ graph.HasBlock block) : graph.current ≠ block := by
    rintro rfl
    exact new hasHead
  have availableIn {now : Graph} {unsealed : Set BlockId}
      (extension : Extends Set.univ ∅ unsealed graph now) :
      now.Available program graph.current scope :=
    available.moves extension.moves ready (Set.subset_univ _) hasHead (Set.notMem_empty _)
      fun _ found => absurd found (Set.notMem_empty _)
  -- both arms are sealed
  have ready₁ := forks.extension.ready ready
  refine Ensures.bind (seal_yields Set.univ tolerant ready₁ forks.reservedTrue).ensures ?_
  rintro - graph₂ ⟨seals₂, true₂, -⟩
  have ready₂ := seals₂.ready ready₁
  have false₂ := forks.reservedFalse.moves seals₂.moves ready₁ (by simpa using trueFalse.symm)
  have join := forks.others last (by simp) trueLast.symm falseLast.symm
  have last₂ := join.moves seals₂.moves ready₁ (by simpa using trueLast.symm)
  have whole₂ := forks.extension.close seals₂ ready subset_rfl (by simpa using newTrue) true₂.isSealed
  refine Ensures.bind (seal_yields Set.univ tolerant ready₂ false₂).ensures ?_
  rintro - graph₃ ⟨seals₃, false₃, -⟩
  have ready₃ := seals₃.ready ready₂
  have true₃ := true₂.moves seals₃.moves ready₂ (by simpa using trueFalse)
  have last₃ := last₂.moves seals₃.moves ready₂ (by simpa using falseLast.symm)
  have whole₃ := whole₂.close seals₃ ready subset_rfl (by simpa using newFalse) false₃.isSealed
  -- both arms are filled, and go on with the last block
  refine arm_ensures tolerant fillsTrue ready₃ true₃ last₃ trueLast (by simp)
    ((whole₃.moves.stepped ready).hasBlock _ hasHead) (apart newTrue) (availableIn whole₃) ?_
  intro trueValue trueDone first
  have readyTrue := first.extension.ready ready₃
  have false₄ := false₃.moves first.extension.moves ready₃ (by simp [trueFalse.symm, falseLast])
  have whole₄ := whole₃.onward first.extension ready subset_rfl (by simp [newTrue, newLast])
  refine arm_ensures tolerant fillsFalse readyTrue false₄ first.reserved falseLast (by simp)
    ((whole₄.moves.stepped ready).hasBlock _ hasHead) (apart newFalse) (availableIn whole₄) ?_
  intro falseValue falseDone second
  have readyFalse := second.extension.ready readyTrue
  have whole₅ := whole₄.onward second.extension ready subset_rfl (by simp [newFalse, newLast])
  -- the last block is sealed, and starts with a phi
  refine Ensures.bind (seal_yields Set.univ tolerant readyFalse second.reserved).ensures ?_
  rintro - graph₆ ⟨seals₆, last₆, -⟩
  have ready₆ := seals₆.ready readyFalse
  have whole₆ := whole₅.close seals₆ ready subset_rfl (by simpa using newLast) last₆.isSealed
  refine Ensures.bind (setCurrent_yields Set.univ ready₆ last₆).ensures ?_
  rintro - join ⟨enters, starts, isOpenJoin, dominates⟩
  have readyJoin := enters.ready ready₆
  have wholeJoin : Extends Set.univ ∅ ∅ graph join := by
    refine (whole₆.onward enters ready subset_rfl (by simpa using newLast)).mono fun block found => ?_
    simp at found
    tauto
  -- what the arms end with is there at the join
  have left₆ : Extends Set.univ {falseBlock, last} ∅ trueDone graph₆ :=
    second.extension.append seals₆ readyTrue subset_rfl subset_rfl (by simp) (by simp) subset_rfl
  have leftJoin : Extends Set.univ {falseBlock, last} ∅ trueDone join :=
    left₆.append enters readyTrue subset_rfl subset_rfl (by simp) (by simp) subset_rfl
  have rightJoin : Extends Set.univ {last} ∅ falseDone join :=
    seals₆.append enters readyFalse subset_rfl subset_rfl (by simp) (by simp) subset_rfl
  have leftAway : trueDone.current ∉ ({falseBlock, last} : Set BlockId) := by
    simp [false₄.apart.symm, first.reserved.apart.symm]
  have leftBlank : ∀ block ∈ ({falseBlock, last} : Set BlockId), trueDone.IsBlank block := by
    simp [false₄.blank, first.reserved.blank]
  have rightAway : falseDone.current ∉ ({last} : Set BlockId) := by
    simp [second.reserved.apart.symm]
  have rightBlank : ∀ block ∈ ({last} : Set BlockId), falseDone.IsBlank block := by
    simp [second.reserved.blank]
  have hasTrue := readyTrue.sound.flows.hasCurrent
  have hasFalse := readyFalse.sound.flows.hasCurrent
  have heldLeft := first.held.moves leftJoin.moves readyTrue hasTrue leftAway leftBlank
  have heldRight := second.held.moves rightJoin.moves readyFalse hasFalse rightAway rightBlank
  have behind : join.Dominates graph.current join.current := by
    rw [starts.current, dominates]
    refine last₆.dominates fun pred found => ?_
    simp at found
    rcases found with rfl | rfl
    · exact (left₆.moves.dominates_iff readyTrue hasTrue leftAway leftBlank).2 first.behind
    · exact (seals₆.moves.dominates_iff readyFalse hasFalse rightAway rightBlank).2 second.behind
  obtain ⟨closed, preds⟩ := (enters.moves.stepped ready₆).closed last last₆.isSealed
  rw [last₆.preds, List.nil_append, List.singleton_append] at preds
  have notEntry : join.current ≠ join.entry := by
    rw [starts.current, (enters.moves.stepped ready₆).entry]
    exact last₆.notEntry
  rw [← starts.current] at closed preds
  refine Yields.ensures ?_
  have joins := joinPhi_yields tolerant readyJoin isOpenJoin type (starts.current.symm ▸ starts.blank)
    notEntry preds closed heldLeft heldRight
  rw [starts.current] at joins
  exact Yields.mono joins fun _ _ evaluates => evaluates.behind (wholeJoin.proceeds id behind) ready

end Build

end Shader
