import Shader.Proofs.Lowering.Action

/-! # Blocks of branching constructs

A branching construct makes blocks of its own. Each of them is reserved first: nothing is in it, and it
gets predecessors. Then it is sealed and filled. -/

namespace Shader

open Relation (ReflTransGen)

abbrev Operation.jumpTo (target : BlockId) : Operation :=
  { opcode := .jump, payload := .target target }

abbrev Operation.branchTo (condition : ValueId) (onTrue onFalse : BlockId) : Operation :=
  { opcode := .condJump, args := [condition], payload := .targets onTrue onFalse }

namespace Graph

variable {operation : Operation} {source : BlockId}

variable {straight : Prop} {slots more : Set VarId}
  {free other all unsealed remaining left : Set BlockId} {graph middle after : Graph}
  {block origin target : BlockId} {preds : List BlockId} {closed : Bool} {value : ValueId}

/-- What a part of a construct does: all changes are within the frame, and new blocks are sealed, but
for some. -/
structure Extends (slots : Set VarId) (free unsealed : Set BlockId) (graph after : Graph) :
    Prop where
  moves : Moves False slots free graph after
  closed : ∀ block, after.HasBlock block →
    graph.HasBlock block ∨ (after.block block).isSealed = true ∨ block ∈ unsealed

theorem Extends.refl : Extends slots ∅ ∅ graph graph := ⟨.refl, fun _ has => .inl has⟩

theorem Extends.ready (extends' : Extends slots free unsealed graph after)
    (ready : graph.Ready) : after.Ready :=
  extends'.moves.ready ready

theorem Extends.append (first : Extends slots free unsealed graph middle)
    (second : Extends more other left middle after)
    (ready : graph.Ready) (fewer : slots ⊆ more) (kept : free ⊆ all)
    (new : ∀ block ∈ other, block ∈ all ∨ ¬ graph.HasBlock block)
    (open' : ∀ block ∈ unsealed, block ∈ remaining ∨ (after.block block).isSealed = true)
    (later : left ⊆ remaining) :
    Extends slots all remaining graph after where
  moves := first.moves.append second.moves ready fewer kept new
  closed block has := by
    have stepped := second.moves.stepped (first.ready ready)
    rcases second.closed block has with had | done | isLeft
    · rcases first.closed block had with old | done | isOpen
      · exact .inl old
      · exact .inr (.inl (stepped.closed block done).1)
      · exact .inr ((open' block isOpen).symm)
    · exact .inr (.inl done)
    · exact .inr (.inr (later isLeft))

theorem Extends.mono (extends' : Extends slots free unsealed graph after)
    (fewer : unsealed ⊆ remaining) : Extends slots free remaining graph after :=
  ⟨extends'.moves, fun block has =>
    (extends'.closed block has).imp_right (Or.imp_right fun isOpen => fewer isOpen)⟩

theorem Extends.onward (first : Extends slots free unsealed graph middle)
    (second : Extends more other left middle after)
    (ready : graph.Ready) (fewer : slots ⊆ more)
    (new : ∀ block ∈ other, ¬ graph.HasBlock block) :
    Extends slots free (unsealed ∪ left) graph after :=
  first.append second ready fewer subset_rfl (fun block isFree => .inr (new block isFree))
    (fun _ isOpen => .inl (.inl isOpen)) Set.subset_union_right

theorem Extends.close (first : Extends slots free unsealed graph middle)
    (second : Extends more other ∅ middle after)
    (ready : graph.Ready) (fewer : slots ⊆ more)
    (new : ∀ block ∈ other, ¬ graph.HasBlock block) (done : (after.block block).isSealed = true) :
    Extends slots free (unsealed \ {block}) graph after := by
  refine first.append second ready fewer subset_rfl (fun block isFree => .inr (new block isFree))
    (fun other isOpen => ?_) (Set.empty_subset _)
  by_cases isBlock : other = block
  · exact .inr (isBlock ▸ done)
  · exact .inl ⟨isOpen, isBlock⟩

theorem Proceeds.extends (proceeds : Proceeds straight slots graph after) : Extends slots ∅ ∅ graph after :=
  ⟨proceeds.moves.mono False.elim subset_rfl, fun block has => (proceeds.closed block has).imp_right .inl⟩

theorem Extends.proceeds (extends' : Extends slots ∅ ∅ graph after) (bends : ¬ straight)
    (dominates : after.Dominates graph.current after.current) :
    Proceeds straight slots graph after where
  moves := extends'.moves.mono bends subset_rfl
  dominates := dominates
  closed block has := by
    rcases extends'.closed block has with old | done | isOpen
    · exact .inl old
    · exact .inr done
    · exact absurd isOpen (Set.notMem_empty _)

/-! ## Reserved blocks -/

/-- A block waits to be filled: nothing is in it, and it has the predecessors so far. -/
structure Reserved (graph : Graph) (block : BlockId) (preds : List BlockId) (closed : Bool) :
    Prop where
  has : graph.HasBlock block
  blank : graph.IsBlank block
  apart : block ≠ graph.current
  notEntry : block ≠ graph.entry
  preds : (graph.block block).preds = preds
  isSealed : (graph.block block).isSealed = closed

theorem Reserved.moves (reserved : graph.Reserved block preds closed)
    (moves : Moves False slots free graph after) (ready : graph.Ready)
    (away : block ∉ free) : after.Reserved block preds closed := by
  have stepped := moves.stepped ready
  have has := reserved.has
  refine ⟨stepped.hasBlock block has, stepped.blank block ⟨has, reserved.blank, reserved.apart, away⟩,
    moves.current_ne ready has away reserved.apart, ?_, ?_, ?_⟩
  · rw [stepped.entry]
    exact reserved.notEntry
  · rw [stepped.preds block ⟨has, away⟩]
    exact reserved.preds
  · rw [stepped.isSealed block ⟨has, away⟩]
    exact reserved.isSealed

theorem Reserved.dominates (reserved : graph.Reserved block preds closed)
    (dominates : ∀ pred ∈ preds, graph.Dominates origin pred) : graph.Dominates origin block := by
  refine dominates_of_preds reserved.notEntry fun pred edge => dominates pred ?_
  rwa [reserved.preds] at edge

theorem Reserved.incomplete (reserved : graph.Reserved block preds closed)
    (sound : graph.Sound ∅ ∅) : (graph.block block).incomplete = [] := by
  refine List.eq_nil_iff_forall_not_mem.2 ?_
  rintro ⟨var, phi⟩ found
  -- what waits is noted, and nothing is noted in a blank block
  obtain ⟨-, -, -, -, bound, -⟩ := sound.fills.waits block var phi found
  rw [reserved.blank.binding] at bound
  exact absurd bound (by simp)

/-! ## The current block stays as it is -/

structure Prepares (graph after : Graph) : Prop where
  current : after.current = graph.current
  ending : (after.block graph.current).ending = (graph.block graph.current).ending

theorem Prepares.refl : Prepares graph graph := ⟨rfl, rfl⟩

theorem Prepares.trans (first : Prepares graph middle) (second : Prepares middle after) :
    Prepares graph after := by
  obtain ⟨current, ending⟩ := second
  rw [first.current] at current ending
  exact ⟨current, ending.trans first.ending⟩

theorem Prepares.isOpen (prepares : Prepares graph after) (isOpen : graph.IsOpen) : after.IsOpen := by
  rw [IsOpen, prepares.current, prepares.ending]
  exact isOpen

/-- Some new blocks are reserved, and the current block stays as it is. -/
structure Reserving (slots : Set VarId) (blocks : List BlockId) (graph after : Graph) : Prop where
  extension : Extends slots ∅ {block | block ∈ blocks} graph after
  prepares : Prepares graph after
  reserved : ∀ block ∈ blocks, after.Reserved block [] false
  new : ∀ block ∈ blocks, ¬ graph.HasBlock block
  distinct : blocks.Nodup

theorem Reserving.refl : Reserving slots [] graph graph :=
  ⟨Extends.refl.mono (Set.empty_subset _), .refl, by simp, by simp, List.nodup_nil⟩

theorem Reserving.onward {blocks : List BlockId}
    (reserving : Reserving slots blocks graph middle)
    (extension : Extends slots ∅ ∅ middle after) (prepares : Prepares middle after)
    (ready : graph.Ready) : Reserving slots blocks graph after where
  extension := by
    have whole := reserving.extension.onward extension ready subset_rfl fun _ found =>
      absurd found (Set.notMem_empty _)
    rwa [Set.union_empty] at whole
  prepares := reserving.prepares.trans prepares
  reserved block found := (reserving.reserved block found).moves extension.moves
    (reserving.extension.ready ready) (Set.notMem_empty _)
  new := reserving.new
  distinct := reserving.distinct

theorem Reserving.append {blocks : List BlockId}
    (reserving : Reserving slots blocks graph middle)
    (extension : Extends slots ∅ {block} middle after) (prepares : Prepares middle after)
    (reserved : after.Reserved block [] false) (missing : ¬ middle.HasBlock block)
    (ready : graph.Ready) :
    Reserving slots (blocks ++ [block]) graph after where
  extension := by
    refine (reserving.extension.onward extension ready subset_rfl fun _ found =>
      absurd found (Set.notMem_empty _)).mono ?_
    rintro other (found | rfl)
    · exact List.mem_append.2 (.inl found)
    · exact List.mem_append.2 (.inr List.mem_cons_self)
  prepares := reserving.prepares.trans prepares
  reserved other found := by
    rcases List.mem_append.1 found with found | found
    · exact (reserving.reserved other found).moves extension.moves
        (reserving.extension.ready ready) (Set.notMem_empty _)
    · rw [List.mem_singleton.1 found]
      exact reserved
  new other found old := by
    rcases List.mem_append.1 found with found | found
    · exact reserving.new other found old
    · rw [List.mem_singleton.1 found] at old
      exact missing ((reserving.extension.moves.stepped ready).hasBlock block old)
  distinct := by
    refine List.nodup_append.2 ⟨reserving.distinct, List.nodup_singleton _, ?_⟩
    rintro other found last isLast rfl
    rw [List.mem_singleton.1 isLast] at found
    exact missing (reserving.reserved block found).has

structure Starts (block : BlockId) (after : Graph) : Prop where
  current : after.current = block
  blank : after.IsBlank block

/-- What sealing a block leaves alone: the values of an earlier graph, and blank blocks. -/
def sealGuard (start graph : Graph) (slots : Set VarId) (block : BlockId) : Guard where
  values := {value | start.HasValue value}
  blank := {other | graph.HasBlock other ∧ graph.IsBlank other ∧ other ≠ graph.current}
  blocks := {other | graph.HasBlock other ∧ other ≠ block}
  slots := slots

theorem Moves.sealGuard_fits (moves : Moves False slots free graph after)
    (ready : graph.Ready) :
    (sealGuard graph after more block).Fits after := by
  have fits := (moves.stepped ready).fits (ready.fits : (graph.frame False slots free).Fits _)
  exact ⟨fits.has, fits.closed, fits.noted, fun _ found => found.2.1⟩

/-! ## Endings -/

structure Finishes (graph : Graph) (source : BlockId) (operation : Operation) (after : Graph) :
    Prop where
  ends : Ends graph source operation
  eq : after = graph.endBlock source operation

theorem Ready.ends (ready : graph.Ready)
    (isOpen : graph.IsOpen) (isEnding : operation.opcode.isEnding = true)
    (held : ∀ arg ∈ operation.args, graph.Held graph.current arg)
    (reserved : ∀ target ∈ operation.payload.blocks, ∃ preds, graph.Reserved target preds false)
    (distinct : operation.payload.blocks.Nodup) : Ends graph graph.current operation where
  joins :=
    { hasSource := ready.sound.flows.hasCurrent
      isOpen := isOpen
      hasTargets := fun target found => (reserved target found).choose_spec.has
      unsealed := fun target found => (reserved target found).choose_spec.isSealed
      distinct := distinct
      forward := .inl fun target found =>
        ⟨(reserved target found).choose_spec.blank, (reserved target found).choose_spec.apart⟩ }
  isEnding := isEnding
  live arg found := (held arg found).live
  dominates arg found := (held arg found).dominates

theorem Ends.extends (ends : Ends graph source operation)
    (own : source = graph.current ∨ source ∈ free)
    (targets : ∀ target ∈ operation.payload.blocks, target ∈ free) :
    Extends slots free ∅ graph (graph.endBlock source operation) := by
  refine ⟨.single (.ends ends (fun found => own.elim found.2.2.1 found.2.2.2)
    fun target isTarget found => found.2 (targets target isTarget)) ends.neatens,
    fun block has => .inl ?_⟩
  exact hasBlock_joinTo.1 ((ends.inserts.hasBlock block).1 has)

theorem Ends.current (ends : Ends graph source operation) :
    (graph.endBlock source operation).current = graph.current := by
  rw [ends.inserts.current, joinTo_eq]

theorem Reserved.ends
    (reserved : graph.Reserved block preds false) (ends : Ends graph source operation)
    (isTarget : block ∈ operation.payload.blocks) (differs : block ≠ source) :
    (graph.endBlock source operation).Reserved block (preds ++ [source]) false := by
  have keeps := ends.joins.keeps
  refine ⟨(ends.inserts.hasBlock block).2 (keeps.hasBlock block reserved.has),
    reserved.blank.congr ?_ fun var => ?_, ?_, ?_, ?_, ?_⟩
  · rw [ends.inserts.places, if_neg differs, keeps.places]
  · rw [ends.inserts.binding, ends.joins.binding]
  · rw [ends.current]
    exact reserved.apart
  · rw [ends.inserts.entry, keeps.entry]
    exact reserved.notEntry
  · rw [ends.preds_eq, if_pos isTarget, reserved.preds]
  · rw [ends.inserts.isSealed, ends.joins.isSealed]
    exact reserved.isSealed

end Graph

namespace Build

open Shader.Graph

variable {program : Program} {graph : Graph} {watch : Watch}
  {block target onTrue onFalse : BlockId} {preds others : List BlockId} {closed : Bool}
  {condition : ValueId}

theorem nextConstruct_yields (slots : Set VarId) : Yields watch nextConstruct graph fun _ after =>
      Extends slots ∅ ∅ graph after ∧ Prepares graph after :=
  yields_modifyGet ⟨⟨.single (.setConstruct _) (neatens_beside rfl rfl), fun _ has => .inl has⟩, ⟨rfl, rfl⟩⟩

theorem newBlock_yields (slots : Set VarId) (ready : graph.Ready) (construct : Nat)
    (name : String) :
    Yields watch (newBlock construct name) graph fun block after =>
      Extends slots ∅ {block} graph after ∧ Prepares graph after ∧
        after.Reserved block [] false ∧ ¬ graph.HasBlock block := by
  have missing : ¬ graph.HasBlock graph.blocks.next := not_hasBlock_next
  have differs {other : BlockId} (has : graph.HasBlock other) : graph.blocks.next ≠ other := by
    rintro rfl
    exact missing has
  refine yields_modifyGet ?_
  generalize s!"{construct}_{name}" = full
  have kept {α : Type} (field : Block → α) (same : field { name := full } = field default) :=
    @block_append_named graph full α field same
  have empty {α : Type} (field : Block → α) (same : field { name := full } = field default) :
      field (({ graph with blocks := graph.blocks.append { name := full } } : Graph).block
        graph.blocks.next) = field default := by
    rw [kept field same, block_of_not_hasBlock missing]
  refine ⟨⟨.single (.newBlock full id) (neatens_newBlock full), fun other has => ?_⟩,
    ⟨rfl, kept Block.ending rfl _⟩,
    ⟨hasBlock_append.2 (.inr rfl), ⟨empty Block.values rfl, fun var => ?_⟩,
      differs ready.sound.flows.hasCurrent, differs ready.sound.flows.hasEntry,
      empty Block.preds rfl, empty Block.isSealed rfl⟩, missing⟩
  · exact (hasBlock_append.1 has).imp_right fun isNew => .inr isNew
  · exact congrArg (Table.find? · var) (empty Block.bindings rfl)

theorem newBlock_reserving {slots : Set VarId} {blocks : List BlockId} {now : Graph}
    (reserving : Reserving slots blocks graph now) (ready : graph.Ready)
    (construct : Nat) (name : String) :
    Yields watch (newBlock construct name) now fun block after =>
      Reserving slots (blocks ++ [block]) graph after := by
  refine Yields.mono (newBlock_yields slots (reserving.extension.ready ready) construct name) ?_
  rintro block after ⟨extension, prepares, reserved, missing⟩
  exact reserving.append extension prepares reserved missing ready

theorem setMerge_yields (slots : Set VarId)
    (has : graph.HasBlock block) (merge : Merge) :
    Yields watch (setMerge block merge) graph fun _ after =>
      Extends slots ∅ ∅ graph after ∧ Prepares graph after := by
  refine yields_modify ⟨⟨.single (.setMerge has merge) neatens_modifyBlock,
    fun other found => .inl (hasBlock_modifyBlock.1 found)⟩, ⟨rfl, ?_⟩⟩
  rw [block_modifyBlock has]
  split_ifs <;> rfl

theorem seal_steps (tolerant : watch.Tolerant)
    {start : Graph} {slots : Set VarId} (ready : graph.Ready)
    (fits : (sealGuard start graph slots block).Fits graph)
    (has : graph.HasBlock block) (unsealed : (graph.block block).isSealed = false)
    (last : ∀ pred, (graph.block block).preds = [pred] → ∀ other, block ∉ (graph.block other).preds)
    (new : ∀ var phi, (var, phi) ∈ (graph.block block).incomplete → ¬ start.HasValue phi) :
    Yields watch (sealBlock program block) graph fun _ after =>
      Steps (sealGuard start graph slots block) ⟨graph, ∅, ∅⟩ ⟨after, ∅, ∅⟩ ∧
        graph.Seals block after ∧ Neatens ⟨graph, ∅, ∅⟩ ⟨after, ∅, ∅⟩ :=
  sealBlock_yields tolerant program ready.sound fits has unsealed last
    (fun found => found.2 rfl) (fun _ _ _ _ => Set.notMem_empty _) new

theorem seal_yields (slots : Set VarId)
    (tolerant : watch.Tolerant)
    (ready : graph.Ready) (reserved : graph.Reserved block preds false) :
    Yields watch (sealBlock program block) graph fun _ after =>
      Extends slots {block} ∅ graph after ∧ after.Reserved block preds true ∧
        after.current = graph.current := by
  have fits : (sealGuard graph graph slots block).Fits graph :=
    Moves.sealGuard_fits (.refl : Moves False slots ∅ graph graph) ready
  have below : (graph.frame False slots {block}).Below (sealGuard graph graph slots block) :=
    { values := subset_rfl
      blank := fun other found => ⟨found.1, found.2.1, found.2.2.1⟩
      notes := subset_rfl
      blocks := subset_rfl
      slots := subset_rfl
      straight := id }
  -- nothing waits in the block, so that it stays blank while it is sealed
  have idle := reserved.incomplete ready.sound
  refine Yields.mono (seal_steps tolerant ready fits reserved.has reserved.isSealed
    (fun _ _ other edge => ready.sound.not_blank_of_pred edge reserved.blank)
    fun var phi found => absurd found (by simp [idle])) ?_
  rintro - after ⟨steps, seals, neatens⟩
  have stepped := Steps.stepped steps ready.sound fits
  have hasBlock (other : BlockId) : after.HasBlock other ↔ graph.HasBlock other := by
    rw [HasBlock, HasBlock, seals.sizeBlocks]
  refine ⟨⟨⟨steps.weaken below, neatens⟩, fun other has => .inl ((hasBlock other).1 has)⟩,
    ⟨(hasBlock block).2 reserved.has, ?_, ?_, ?_, ?_, ?_⟩, seals.current⟩
  · exact stepped.blank block ⟨reserved.has, reserved.blank, reserved.apart⟩
  · rw [seals.current]
    exact reserved.apart
  · rw [stepped.entry]
    exact reserved.notEntry
  · rw [seals.preds]
    exact reserved.preds
  · rw [seals.isSealed, if_pos rfl]

theorem setCurrent_yields (slots : Set VarId) (ready : graph.Ready)
    (reserved : graph.Reserved block preds closed) :
    Yields watch (setCurrent block) graph fun _ after =>
      Extends slots {block} ∅ graph after ∧ Starts block after ∧ after.IsOpen ∧
        ∀ other, after.Dominates other block ↔ graph.Dominates other block := by
  refine yields_modify ⟨⟨.single (.setCurrent reserved.has id fun found => found.2 rfl)
    (neatens_beside rfl rfl), fun other has => .inl has⟩, ⟨rfl, ?_⟩, ?_, fun other => ?_⟩
  · exact reserved.blank.congr rfl fun _ => rfl
  · exact ready.sound.laidOut.ending_of_blank reserved.blank
  · exact dominates_congr rfl fun _ => rfl

theorem jump_reserved (slots : Set VarId)
    (tolerant : watch.Tolerant)
    (ready : graph.Ready) (isOpen : graph.IsOpen)
    (reserved : graph.Reserved target preds false) :
    Yields watch (jump graph.current target) graph fun _ after =>
      Extends slots {target} ∅ graph after ∧ after.Reserved target (preds ++ [graph.current]) false ∧
        Finishes graph graph.current (.jumpTo target) after ∧ after.current = graph.current := by
  have ends : Ends graph graph.current (.jumpTo target) := by
    refine ready.ends isOpen rfl (by simp) (fun other found => ?_) (List.nodup_singleton _)
    rw [List.mem_singleton.1 found]
    exact ⟨preds, reserved⟩
  refine Yields.mono (jump_yields tolerant ready.sound ends) ?_
  rintro - after rfl
  exact ⟨ends.extends (.inl rfl) (by simp [Payload.blocks]),
    reserved.ends ends List.mem_cons_self reserved.apart, ⟨ends, rfl⟩, ends.current⟩

theorem condJump_reserved (slots : Set VarId)
    (tolerant : watch.Tolerant)
    (ready : graph.Ready) (isOpen : graph.IsOpen)
    (held : graph.Held graph.current condition) (reservedTrue : graph.Reserved onTrue preds false)
    (reservedFalse : graph.Reserved onFalse others false) (differs : onTrue ≠ onFalse) :
    Yields watch (condJump graph.current condition onTrue onFalse) graph fun _ after =>
      Extends slots {onTrue, onFalse} ∅ graph after ∧ after.Reserved onTrue (preds ++ [graph.current]) false ∧
        after.Reserved onFalse (others ++ [graph.current]) false ∧
        Finishes graph graph.current (.branchTo condition onTrue onFalse) after ∧
        after.current = graph.current := by
  have ends : Ends graph graph.current (.branchTo condition onTrue onFalse) := by
    refine ready.ends isOpen rfl (fun arg found => ?_) (fun other found => ?_) (by simpa [Payload.blocks] using differs)
    · rw [List.mem_singleton.1 found]
      exact held
    · rcases List.mem_pair.1 found with rfl | rfl
      · exact ⟨preds, reservedTrue⟩
      · exact ⟨others, reservedFalse⟩
  refine Yields.mono (condJump_yields tolerant ready.sound ends) ?_
  rintro - after rfl
  exact ⟨ends.extends (.inl rfl) (by simp [Payload.blocks]),
    reservedTrue.ends ends List.mem_cons_self reservedTrue.apart,
    reservedFalse.ends ends (List.mem_cons_of_mem _ List.mem_cons_self) reservedFalse.apart,
    ⟨ends, rfl⟩, ends.current⟩

end Build

end Shader
