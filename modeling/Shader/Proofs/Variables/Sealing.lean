import Shader.Proofs.Variables.Reading

/-! # Sealing blocks

When all predecessors of a block are known, the phis that wait in it are filled one after the other.
The phis that are still to be filled have no operands meanwhile, so none of them is removed too early. -/

namespace Shader

open Relation (ReflTransGen)

namespace Graph

variable {graph after now : Graph} {guard : Guard} {block : BlockId}

def waitingOf (waiting : List (VarId × ValueId)) : Set ValueId :=
  {phi | ∃ var, (var, phi) ∈ waiting}

theorem waitingOf_cons (var : VarId) (phi : ValueId) (rest : List (VarId × ValueId)) :
    waitingOf ((var, phi) :: rest) = waitingOf rest ∪ {phi} := by
  ext other
  simp only [waitingOf, List.mem_cons, Prod.mk.injEq, Set.mem_union, Set.mem_singleton_iff, Set.mem_ofPred_eq]
  constructor
  · rintro ⟨name, ⟨-, rfl⟩ | found⟩
    · exact .inr rfl
    · exact .inl ⟨name, found⟩
  · rintro (⟨name, found⟩ | rfl)
    · exact ⟨name, .inr found⟩
    · exact ⟨var, .inl ⟨rfl, rfl⟩⟩

theorem waitingOf_nil : waitingOf [] = ∅ := by
  simp [waitingOf]

structure Seals (graph : Graph) (block : BlockId) (after : Graph) : Prop where
  sizeBlocks : after.blocks.size = graph.blocks.size
  current : after.current = graph.current
  slot : ∀ var, after.slots.find? var = graph.slots.find? var
  preds : ∀ other, (after.block other).preds = (graph.block other).preds
  ending : ∀ other, (after.block other).ending = (graph.block other).ending
  isSealed : ∀ other,
    (after.block other).isSealed = if other = block then true else (graph.block other).isSealed

theorem seals_close (has : graph.HasBlock block) (looked : Looked guard (graph.release block) now) :
    graph.Seals block (now.close block) := by
  have hasNow : now.HasBlock block := (looked.hasBlock block).2 (hasBlock_modifyBlock.2 has)
  refine ⟨?_, looked.current, looked.slot, fun other => ?_, fun other => ?_, fun other => ?_⟩
  · have sizes := looked.sizeBlocks
    simpa [Graph.close, Graph.release, modifyBlock] using sizes
  · exact ((field_modifyBlock Block.preds block other).trans (looked.preds other)).trans
      (field_modifyBlock Block.preds block other)
  · exact ((field_modifyBlock Block.ending block other).trans (looked.ending other)).trans
      (field_modifyBlock Block.ending block other)
  · rw [block_close hasNow]
    split_ifs
    · rfl
    · exact (looked.isSealed other).trans (field_modifyBlock Block.isSealed block other)

/-- The phis that wait in a block are filled, but for some. -/
structure Resolving (guard : Guard) (graph : Graph) (block : BlockId)
    (rest : List (VarId × ValueId)) (now : Graph) : Prop where
  looks : Looks guard ⟨graph.release block, waitingOf (graph.block block).incomplete, {block}⟩
    ⟨now, waitingOf rest, {block}⟩
  left : ∀ item ∈ rest, item ∈ (graph.block block).incomplete
  distinct : (rest.map Prod.snd).Nodup
  empty : ∀ phi ∈ waitingOf rest, (now.value phi).args = []
  incomplete : (now.block block).incomplete = []
  neatens : Neatens ⟨graph.release block, waitingOf (graph.block block).incomplete, {block}⟩
    ⟨now, waitingOf rest, {block}⟩

end Graph

namespace Build

open Shader.Graph

variable {graph : Graph} {watch : Watch} {guard : Guard} {block : BlockId}

theorem fillPhi_resolving (tolerant : watch.Tolerant)
    (program : Program) (sound : graph.Sound ∅ ∅)
    (soundStart : (graph.release block).Sound (waitingOf (graph.block block).incomplete) {block})
    (fitsStart : guard.Fits (graph.release block)) (has : graph.HasBlock block)
    (noted : ∀ var phi, (var, phi) ∈ (graph.block block).incomplete → ∀ other, (other, var) ∉ guard.notes)
    (unguarded : ∀ var phi, (var, phi) ∈ (graph.block block).incomplete → phi ∉ guard.values)
    {var : VarId} {phi : ValueId} {rest : List (VarId × ValueId)} {now : Graph}
    (resolving : Resolving guard graph block ((var, phi) :: rest) now) :
    Yields watch (fillPhi program var phi) now fun _ after =>
      Resolving guard graph block rest after := by
  have looked : Looked guard (graph.release block) now := Looks.looked resolving.looks soundStart fitsStart
  have soundNow : now.Sound (waitingOf rest ∪ {phi}) {block} := by
    rw [← waitingOf_cons var]
    exact Looks.sound resolving.looks soundStart
  have found := resolving.left (var, phi) List.mem_cons_self
  obtain ⟨-, home, -, -, bound, -⟩ := sound.fills.waits block var phi found
  have live := sound.consistent.waiting block var phi found
  have boundNow : (now.binding block var).isSome = true := by
    refine looked.bound block var ?_
    rwa [binding, block_release has, if_pos rfl]
  have homeNow : (now.value phi).block = block := (looked.home live.1).trans home
  have fresh : phi ∉ waitingOf rest := by
    rintro ⟨name, again⟩
    have distinct := (List.nodup_cons.1 resolving.distinct).1
    exact distinct (List.mem_map.2 ⟨(name, phi), again, rfl⟩)
  have emptyNow (other : ValueId) (isLeft : other ∈ waitingOf ((var, phi) :: rest)) :=
    resolving.empty other isLeft
  rw [waitingOf_cons] at emptyNow
  obtain ⟨reads, enough⟩ := readVarWithin_reads_limit tolerant program var now
  refine yields_get_bind (Yields.mono (fillPhiWith_yields tolerant reads soundNow fresh
    (looked.fits fitsStart) (unguarded var phi found)
    (fun other isNoted => absurd isNoted (noted var phi found other))
    (fun other isLeft => .inr (emptyNow other (.inl isLeft)))
    (emptyNow phi (.inr rfl)) (.inr homeNow) enough) ?_)
  rintro - after ⟨filled, -⟩
  refine ⟨?_, fun item isLeft => resolving.left item (List.mem_cons_of_mem _ isLeft),
    (List.nodup_cons.1 resolving.distinct).2, fun other isLeft => ?_, ?_, ?_⟩
  · have steps := resolving.looks
    rw [waitingOf_cons] at steps
    exact steps.trans filled.looks
  · exact filled.empty other isLeft (emptyNow other (.inl isLeft))
  · rw [filled.incomplete block boundNow, resolving.incomplete]
  · have neatens := resolving.neatens
    rw [waitingOf_cons] at neatens
    exact neatens.trans filled.neatens

theorem sealBlock_yields (tolerant : watch.Tolerant)
    (program : Program) (sound : graph.Sound ∅ ∅) (fits : guard.Fits graph)
    (has : graph.HasBlock block) (unsealed : (graph.block block).isSealed = false)
    (last : ∀ pred, (graph.block block).preds = [pred] → ∀ other, block ∉ (graph.block other).preds)
    (allowed : block ∉ guard.blocks)
    (noted : ∀ var phi, (var, phi) ∈ (graph.block block).incomplete → ∀ other, (other, var) ∉ guard.notes)
    (unguarded : ∀ var phi, (var, phi) ∈ (graph.block block).incomplete → phi ∉ guard.values) :
    Yields watch (sealBlock program block) graph fun _ after =>
      Steps guard ⟨graph, ∅, ∅⟩ ⟨after, ∅, ∅⟩ ∧ graph.Seals block after ∧
        Neatens ⟨graph, ∅, ∅⟩ ⟨after, ∅, ∅⟩ := by
  have release : Step guard ⟨graph, ∅, ∅⟩
      ⟨graph.release block, waitingOf (graph.block block).incomplete, {block}⟩ :=
    .release has unsealed allowed
  have soundStart : (graph.release block).Sound (waitingOf (graph.block block).incomplete) {block} :=
    release.sound sound
  have fitsStart : guard.Fits (graph.release block) := (release.stepped sound fits).fits fits
  refine yields_watched (yields_get_bind (yields_bind_of_eq (under_require (by simp [unsealed])) ?_))
  refine yields_bind_of_eq (under_modify _) (Yields.bind (yields_forM
    (Resolving guard graph block)
    ⟨.refl, fun _ found => found, sound.fills.waits_nodup block, ?_, ?_, .refl⟩ ?_) ?_)
  · rintro phi ⟨var, found⟩
    obtain ⟨-, -, empty, -⟩ := sound.fills.waits block var phi found
    exact empty
  · exact congrArg Block.incomplete ((block_release has block).trans (if_pos rfl))
  · rintro ⟨var, phi⟩ rest now resolving
    refine Yields.bind (fillPhi_resolving tolerant program sound soundStart fitsStart has noted
      unguarded resolving) ?_
    exact fun _ _ holds => yields_pure holds
  · rintro - now resolving
    have looks := resolving.looks
    rw [waitingOf_nil] at looks
    have looked : Looked guard (graph.release block) now := Looks.looked looks soundStart fitsStart
    have hasNow : now.HasBlock block := (looked.hasBlock block).2 (hasBlock_modifyBlock.2 has)
    have seals := seals_close has looked
    have preds (other : BlockId) : (now.block other).preds = (graph.block other).preds :=
      (looked.preds other).trans (field_modifyBlock Block.preds block other)
    have isSealed : (now.block block).isSealed = false := by
      rw [looked.isSealed, block_release has, if_pos rfl]
      exact unsealed
    have close : Step guard ⟨now, ∅, {block}⟩ ⟨now.close block, ∅, ∅⟩ := by
      refine .close hasNow isSealed resolving.incomplete ?_ allowed
      intro pred only other
      rw [preds] at only ⊢
      exact last pred only other
    have steps : Steps guard ⟨graph, ∅, ∅⟩ ⟨now.close block, ∅, ∅⟩ :=
      ((ReflTransGen.single release).trans looks.steps).tail close
    have neatens := resolving.neatens
    rw [waitingOf_nil] at neatens
    exact yields_modify ⟨tolerant _ (Graph.Sound.consistent (Steps.sound steps sound)), steps, seals,
        ((neatens_release has).trans neatens).trans neatens_modifyBlock⟩

end Build

end Shader
