import Shader.Proofs.Variables.Removal

/-! # Reading variables

A read looks through the predecessors of a block until it finds a note of the variable, and notes on its
way back what it found. Where several predecessors come together it first notes a phi, so a block is
searched at most once, and between two such blocks the only predecessors lead away from a sealed block. -/

namespace Shader

open Relation (ReflTransGen)

namespace Graph

variable {graph after now : Graph} {guard : Guard} {pending : Set ValueId} {sealing : Set BlockId}
  {block pred : BlockId} {var : VarId} {phi value : ValueId}

/-! ## The depth of a read -/

def unbound (graph : Graph) (var : VarId) : Nat :=
  ((Finset.range graph.blocks.size).filter fun index =>
    (graph.binding ⟨index⟩ var).isSome = false).card

theorem unbound_le : graph.unbound var ≤ graph.blocks.size :=
  (Finset.card_filter_le _ _).trans (Finset.card_range _).le

theorem Looked.unbound_le (looked : Looked guard graph after) : after.unbound var ≤ graph.unbound var := by
  refine Finset.card_le_card fun index found => ?_
  simp only [Finset.mem_filter, Finset.mem_range, looked.sizeBlocks] at found ⊢
  refine ⟨found.1, ?_⟩
  by_contra bound
  rw [Bool.not_eq_false] at bound
  have still := looked.bound ⟨index⟩ var bound
  exact absurd (found.2.symm.trans still) (by decide)

theorem unbound_bind (has : graph.HasBlock block) (missing : graph.binding block var = none) :
    (graph.bind block var value).unbound var < graph.unbound var := by
  refine Finset.card_lt_card (Finset.ssubset_iff_of_subset ?_ |>.2 ⟨block.index, ?_, ?_⟩)
  · intro index found
    simp only [Finset.mem_filter, Finset.mem_range, binding_bind has] at found ⊢
    refine ⟨?_, ?_⟩
    · simpa [bind, modifyBlock] using found.1
    · split_ifs at found with same
      · exact absurd found.2 (by simp)
      · exact found.2
  · simp only [Finset.mem_filter, Finset.mem_range]
    exact ⟨has, by rw [missing]; rfl⟩
  · simp [binding_bind has]

theorem Ranks.le_size {rank : BlockId → Nat} (ranks : graph.Ranks rank) (block : BlockId) :
    rank block ≤ graph.blocks.size :=
  (ranks.le block).trans ((Finset.card_filter_le _ _).trans (Finset.card_range _).le)

/-! ## What a read leaves alone -/

def readGuard (graph : Graph) (block : BlockId) (var : VarId) : Guard where
  values := {value | graph.HasValue value}
  blank := {other | graph.IsBlank other ∧ other ≠ block}
  notes := {note | note.2 ≠ var ∨ (graph.binding note.1 note.2).isSome = true}

theorem Sound.readGuard_fits (sound : graph.Sound pending sealing) (block : BlockId)
    (var : VarId) : (graph.readGuard block var).Fits graph where
  has _ found := found
  closed _ _ _ used := (sound.consistent.live_arg used).1
  noted other name value _ bound := (sound.consistent.bound other name value bound).1
  blank _ found := found.1

theorem readGuard_allows (missing : graph.binding block var = none) :
    block ∉ (graph.readGuard block var).blank ∧ (block, var) ∉ (graph.readGuard block var).notes := by
  refine ⟨fun found => found.2 rfl, fun found => ?_⟩
  rcases found with differs | bound
  · exact differs rfl
  · rw [missing] at bound
    exact absurd bound (by decide)

theorem readGuard_weaker (fits : guard.Fits graph) (busy : ¬ graph.IsBlank pred)
    (noted : ∀ block, (block, var) ∈ guard.notes → (graph.binding block var).isSome = true) :
    guard.Weaker (graph.readGuard pred var) where
  values := fits.has
  blank other found := by
    have blank := fits.blank other found
    refine ⟨blank, ?_⟩
    rintro rfl
    exact busy blank
  notes := by
    rintro ⟨other, name⟩ found
    by_cases same : name = var
    · subst same
      exact .inr (noted other found)
    · exact .inl same

theorem Sound.hasBlock_pred (sound : graph.Sound pending sealing)
    (edge : pred ∈ (graph.block block).preds) : graph.HasBlock pred := by
  have edge := (sound.flows.edges pred block).2 edge
  by_contra missing
  rw [block_of_not_hasBlock missing] at edge
  exact List.not_mem_nil edge

/-! ## Filling a phi -/

/-- A phi has the notes of some predecessors of its block as its operands, and `rest` are the others. -/
structure Filling (guard : Guard) (pending : Set ValueId) (sealing : Set BlockId) (var : VarId)
    (phi : ValueId) (graph : Graph) (rest : List BlockId) (now : Graph) : Prop where
  looks : Looks guard ⟨graph, pending ∪ {phi}, sealing⟩ ⟨now, pending ∪ {phi}, sealing⟩
  operands : ∃ done, done ++ rest = (graph.block (graph.value phi).block).preds ∧
    done.map (now.binding · var) = (now.value phi).args.map some
  args : ∀ other, graph.HasValue other → other ≠ phi → (now.value other).args = (graph.value other).args
  incomplete : ∀ block, (graph.binding block var).isSome = true →
    (now.block block).incomplete = (graph.block block).incomplete
  neatens : Neatens ⟨graph, pending ∪ {phi}, sealing⟩ ⟨now, pending ∪ {phi}, sealing⟩

theorem filling_nil (empty : (graph.value phi).args = []) :
    Filling guard pending sealing var phi graph (graph.block (graph.value phi).block).preds graph where
  looks := .refl
  operands := ⟨[], rfl, by rw [empty]; rfl⟩
  args _ _ _ := rfl
  incomplete _ _ := rfl
  neatens := .refl

theorem Filling.looked {rest : List BlockId}
    (filling : Filling guard pending sealing var phi graph rest now)
    (sound : graph.Sound (pending ∪ {phi}) sealing) (fits : guard.Fits graph) :
    Looked guard graph now :=
  Looks.looked filling.looks sound fits

theorem Filling.sound {rest : List BlockId}
    (filling : Filling guard pending sealing var phi graph rest now)
    (sound : graph.Sound (pending ∪ {phi}) sealing) : now.Sound (pending ∪ {phi}) sealing :=
  Looks.sound filling.looks sound

theorem Filling.step {rest : List BlockId} {middle : Graph}
    (filling : Filling guard pending sealing var phi graph (pred :: rest) now)
    (sound : graph.Sound (pending ∪ {phi}) sealing) (fits : guard.Fits graph)
    (allowed : phi ∉ guard.values)
    (noted : ∀ block, (block, var) ∈ guard.notes → (graph.binding block var).isSome = true)
    (reads : Looks (now.readGuard pred var) ⟨now, pending ∪ {phi}, sealing⟩
      ⟨middle, pending ∪ {phi}, sealing⟩)
    (bound : middle.binding pred var = some value)
    (neatens : Neatens ⟨now, pending ∪ {phi}, sealing⟩ ⟨middle, pending ∪ {phi}, sealing⟩) :
    Filling guard pending sealing var phi graph rest (middle.addArg phi value) := by
  have looked := filling.looked sound fits
  have soundNow := filling.sound sound
  have soundThen : middle.Sound (pending ∪ {phi}) sealing := Looks.sound reads soundNow
  have lookedRead : Looked (now.readGuard pred var) now middle :=
    Looks.looked reads soundNow (soundNow.readGuard_fits pred var)
  obtain ⟨wasLive, -⟩ := sound.fills.pending phi (.inr rfl)
  obtain ⟨livePhi, -⟩ := soundThen.fills.pending phi (.inr rfl)
  have live := soundThen.consistent.bound pred var value bound
  have home : (middle.value phi).block = (graph.value phi).block :=
    (lookedRead.home (looked.hasValue phi wasLive.1)).trans (looked.home wasLive.1)
  obtain ⟨done, split, operands⟩ := filling.operands
  have edge : pred ∈ (now.block (graph.value phi).block).preds := by
    rw [looked.preds, ← split]
    exact List.mem_append_right done List.mem_cons_self
  have weaker : guard.Weaker (now.readGuard pred var) :=
    readGuard_weaker (looked.fits fits) (soundNow.not_blank_of_pred edge)
      fun block found => looked.bound block var (noted block found)
  -- the read leaves the operands alone that are there, and the notes that they come from
  have kept (other : ValueId) (has : now.HasValue other) :
      (middle.value other).args = (now.value other).args :=
    Value.args_of_core (lookedRead.core other has)
  have length : (middle.value phi).args.length = done.length := by
    rw [kept phi (looked.hasValue phi wasLive.1)]
    have lengths := congrArg List.length operands
    rwa [List.length_map, List.length_map, eq_comm] at lengths
  have before : done.map (middle.binding · var) = done.map (now.binding · var) := by
    refine List.map_congr_left fun source found => lookedRead.binding source var (.inr ?_)
    have noted : now.binding source var ∈ (now.value phi).args.map some :=
      operands ▸ List.mem_map_of_mem found
    obtain ⟨arg, -, isNote⟩ := List.mem_map.1 noted
    rw [← isNote]
    rfl
  have source : (middle.block (middle.value phi).block).preds[(middle.value phi).args.length]? =
      some pred := by
    rw [home, lookedRead.preds, looked.preds, ← split, length]
    simp
  have fills : Lookup guard ⟨middle, pending ∪ {phi}, sealing⟩
      ⟨middle.addArg phi value, pending ∪ {phi}, sealing⟩ := by
    refine .fill live (.inr rfl) (List.getElem?_eq_some_iff.1 source).1 (fun other found => ?_) allowed
    rw [← Option.some.inj (source.symm.trans found)]
    exact soundThen.strict.bound pred var value bound
  refine ⟨(filling.looks.trans (reads.weaken weaker)).tail fills, ⟨done ++ [pred], ?_, ?_⟩,
    fun other has differs => ?_, fun other isBound => ?_,
    (filling.neatens.trans neatens).trans (neatens_addArg livePhi live (.inr rfl))⟩
  · rw [← split, List.append_assoc, List.singleton_append]
  · have operand : (middle.addArg phi value).binding pred var = some value := bound
    rw [args_addArg livePhi live, if_pos rfl, kept phi (looked.hasValue phi wasLive.1),
      List.map_append, List.map_append, ← operands, ← before, List.map_singleton, operand]
    rfl
  · rw [args_addArg_of_ne livePhi live differs, kept other (looked.hasValue other has),
      filling.args other has differs]
  · have noted : ∀ name, (other, name) ∈ (now.readGuard pred var).notes := by
      intro name
      by_cases same : name = var
      · subst same
        exact .inr (looked.bound other name isBound)
      · exact .inl same
    exact (lookedRead.incomplete other noted).trans (filling.incomplete other isBound)

end Graph

namespace Build

open Shader.Graph

variable {graph : Graph} {watch : Watch} {guard : Guard} {pending : Set ValueId}
  {sealing : Set BlockId} {block : BlockId} {var : VarId} {phi : ValueId} {depth : Nat}
  {types : Set TypeId} {read : BlockId → Build ValueId}

/-- A step reads a variable as it should, if that does not lead too deep. -/
def Reads (watch : Watch) (var : VarId) (depth : Nat)
    (read : BlockId → Build ValueId) : Prop :=
  ∀ (graph : Graph) (pending : Set ValueId) (sealing : Set BlockId) (block : BlockId)
    (rank : BlockId → Nat), graph.Sound pending sealing → graph.HasBlock block → graph.Ranks rank →
    graph.unbound var * (graph.blocks.size + 1) + rank block < depth →
      Yields watch (read block) graph fun value after =>
        Looks (graph.readGuard block var) ⟨graph, pending, sealing⟩ ⟨after, pending, sealing⟩ ∧
          after.binding block var = some value ∧
          Neatens ⟨graph, pending, sealing⟩ ⟨after, pending, sealing⟩

structure Filled (guard : Guard) (pending : Set ValueId) (sealing : Set BlockId) (var : VarId)
    (phi : ValueId) (graph after : Graph) : Prop where
  looks : Looks guard ⟨graph, pending ∪ {phi}, sealing⟩ ⟨after, pending, sealing⟩
  empty : ∀ other ∈ pending, (graph.value other).args = [] → (after.value other).args = []
  incomplete : ∀ block, (graph.binding block var).isSome = true →
    (after.block block).incomplete = (graph.block block).incomplete
  neatens : Neatens ⟨graph, pending ∪ {phi}, sealing⟩ ⟨after, pending, sealing⟩

theorem fillPhiWith_yields (tolerant : watch.Tolerant)
    (reads : Reads watch var depth read)
    (sound : graph.Sound (pending ∪ {phi}) sealing)
    (fresh : phi ∉ pending) (fits : guard.Fits graph) (allowed : phi ∉ guard.values)
    (noted : ∀ block, (block, var) ∈ guard.notes → (graph.binding block var).isSome = true)
    (shielded : Shielded guard pending graph)
    (empty : (graph.value phi).args = [])
    (closed : (graph.block (graph.value phi).block).isSealed = true ∨ (graph.value phi).block ∈ sealing)
    (enough : graph.unbound var * (graph.blocks.size + 1) + graph.blocks.size < depth) :
    Yields watch (fillPhiWith read phi) graph fun value after =>
      Filled guard pending sealing var phi graph after ∧ value = after.resolve phi := by
  obtain ⟨wasLive, -⟩ := sound.fills.pending phi (.inr rfl)
  refine yields_get_bind (yields_get_bind (Yields.bind (yields_forM
    (Filling guard pending sealing var phi graph) (filling_nil empty) ?_) ?_))
  · intro pred rest now filling
    have looked := filling.looked sound fits
    have soundNow := filling.sound sound
    obtain ⟨rank, ranks⟩ := soundNow.flows.ranks
    obtain ⟨done, split, -⟩ := filling.operands
    have edge : pred ∈ (now.block (graph.value phi).block).preds := by
      rw [looked.preds, ← split]
      exact List.mem_append_right done List.mem_cons_self
    have deep : now.unbound var * (now.blocks.size + 1) + rank pred < depth := by
      have fewer : now.unbound var ≤ graph.unbound var := looked.unbound_le
      have bounded := ranks.le_size pred
      rw [looked.sizeBlocks] at bounded ⊢
      have scaled := Nat.mul_le_mul_right (graph.blocks.size + 1) fewer
      omega
    refine Yields.bind (reads now _ sealing pred rank soundNow (soundNow.hasBlock_pred edge) ranks deep) ?_
    rintro value middle ⟨steps, bound, neatens⟩
    have next := filling.step sound fits allowed noted steps bound neatens
    exact yields_watched (yields_modify ⟨tolerant _ (next.sound sound).consistent, next⟩)
  · rintro - now filling
    have looked := filling.looked sound fits
    have soundNow := filling.sound sound
    obtain ⟨live, isPhi, free⟩ := soundNow.fills.pending phi (.inr rfl)
    have home := looked.home wasLive.1
    obtain ⟨done, split, operands⟩ := filling.operands
    rw [List.append_nil] at split
    have filled : (now.value phi).args.length = (now.block (graph.value phi).block).preds.length := by
      have lengths := congrArg List.length operands
      rwa [List.length_map, List.length_map, split, eq_comm, ← looked.preds] at lengths
    have settles : Lookup guard ⟨now, pending ∪ {phi}, sealing⟩ ⟨now, pending, sealing⟩ := by
      refine .settle ?_ ?_
      · rw [IsFilled, home]
        exact filled
      · rw [home, looked.isSealed]
        exact closed
    have soundThen : now.Sound pending sealing := settles.sound soundNow
    have shieldedThen : Shielded guard pending now := by
      intro other found
      have differs : other ≠ phi := by
        rintro rfl
        exact fresh found
      rw [filling.args other (sound.fills.pending other (.inl found)).1.1 differs]
      exact shielded other found
    refine yields_get_bind (yields_bind_of_eq (under_require (by simp [filled])) ?_)
    refine Yields.mono (removePhi_yields tolerant soundThen (looked.fits fits) shieldedThen live
      ⟨isPhi, fresh, free, allowed⟩) ?_
    rintro value after ⟨cascades, -, survives, loose⟩
    refine ⟨⟨(filling.looks.tail settles).trans cascades.looks, fun other found none => ?_,
      fun other bound => ?_, filling.neatens.trans (cascades.neatens loose)⟩, survives⟩
    · have live := (sound.fills.pending other (.inl found)).1
      have differs : other ≠ phi := by
        rintro rfl
        exact fresh found
      refine cascades.empty other (looked.hasValue other live.1) ?_
      rw [filling.args other live.1 differs, none]
    · exact (cascades.incomplete other).trans (filling.incomplete other bound)

section Search

variable {program : Program} {rank : BlockId → Nat}
  (tolerant : watch.Tolerant)
  (sound : graph.Sound pending sealing) (has : graph.HasBlock block)
  (missing : graph.binding block var = none)

include tolerant sound has missing

/-- What a search leads to: when the block notes the value, that was a read. -/
def Finds (graph : Graph) (pending : Set ValueId) (sealing : Set BlockId)
    (block : BlockId) (var : VarId) (value : ValueId) (after : Graph) : Prop :=
  after.HasBlock block ∧ Looks (graph.readGuard block var) ⟨graph, pending, sealing⟩
    ⟨after.bind block var value, pending, sealing⟩ ∧
    Neatens ⟨graph, pending, sealing⟩ ⟨after.bind block var value, pending, sealing⟩

theorem search_unsealed (unsealed : (graph.block block).isSealed = false) : Yields watch (do
      let phi ← emptyPhi program block var
      modify fun graph => graph.modifyBlock block fun node =>
        { node with incomplete := node.incomplete ++ [(var, phi)] }
      return phi) graph (Finds graph pending sealing block var) := by
  have notEntry : block ≠ graph.entry := by
    rintro rfl
    exact absurd (sound.flows.entry_sealed.symm.trans unsealed) (by decide)
  have allowed := readGuard_allows missing
  refine Yields.bind (makeValue_phi tolerant sound has rfl (by simp) (by simp) notEntry allowed.1) ?_
  rintro _ after ⟨rfl, inserts, step⟩
  have hasStill := (inserts.hasBlock block).2 has
  refine yields_bind_of_eq (under_modify _) (yields_pure ⟨hasBlock_modifyBlock.2 hasStill, ?_,
    inserts.neatens_defer rfl missing⟩)
  have fresh : graph.values.next ∉ pending := fun found =>
    not_hasValue_next (sound.fills.pending _ found).1.1
  refine (ReflTransGen.single step).tail (.defer fresh ?_ ?_ ?_ ?_ ?_ allowed)
  · rw [inserts.value_new]
  · rw [inserts.value_new]
  · rw [inserts.value_new]
  · rw [inserts.isSealed, unsealed]
  · rw [inserts.binding, missing]

theorem search_nothing (none : (graph.block block).preds = []) : Yields watch (makeValue block
      { opcode := .undef, payload := .var var, type := some (program.var var).type }) graph
      (Finds graph pending sealing block var) := by
  have allowed := readGuard_allows missing
  refine Yields.mono (makeValue_plain tolerant sound has (by simp) rfl (by simp)
    (fun _ => ⟨rfl, rfl⟩) allowed.1) ?_
  rintro _ after ⟨rfl, inserts, step⟩
  have hasStill := (inserts.hasBlock block).2 has
  refine ⟨hasStill, (ReflTransGen.single step).tail
    (.note hasStill inserts.live_new ?_ (.inr ⟨?_, fun pred only => ?_⟩) allowed),
    (inserts.neatens (by simp)).trans (neatens_bind hasStill)⟩
  · rw [inserts.value_new]
    exact dominates_self
  · rw [inserts.binding, missing]
  · rw [inserts.preds, none] at only
    exact absurd only (List.cons_ne_nil _ _).symm

omit tolerant in
theorem search_single (reads : Reads watch var depth read) (ranks : graph.Ranks rank)
    (deep : graph.unbound var * (graph.blocks.size + 1) + rank block < depth + 1)
    (closed : (graph.block block).isSealed = true) {pred : BlockId}
    (only : (graph.block block).preds = [pred]) :
    Yields watch (read pred) graph (Finds graph pending sealing block var) := by
  have allowed := readGuard_allows missing
  have edge : pred ∈ (graph.block block).preds := by simp [only]
  have lower := ranks.lt block pred closed only
  have differs : pred ≠ block := by
    rintro rfl
    exact lt_irrefl _ lower
  have notEntry : block ≠ graph.entry := by
    rintro rfl
    rw [sound.flows.entry_preds] at only
    exact List.cons_ne_nil _ _ only.symm
  refine Yields.mono (reads graph pending sealing pred rank sound (sound.hasBlock_pred edge) ranks
    (by omega)) ?_
  rintro value after ⟨steps, bound, neatens⟩
  have fits := sound.readGuard_fits pred var
  have looked : Looked (graph.readGuard pred var) graph after := Looks.looked steps sound fits
  have soundThen : after.Sound pending sealing := Looks.sound steps sound
  have weaker : (graph.readGuard block var).Weaker (graph.readGuard pred var) := by
    refine readGuard_weaker (sound.readGuard_fits block var) (sound.not_blank_of_pred edge) ?_
    exact fun other found => found.resolve_left fun differs => differs rfl
  have hasStill := (looked.hasBlock block).2 has
  refine ⟨hasStill, (steps.weaken weaker).tail (.note hasStill
    (soundThen.consistent.bound pred var value bound) ?_ ?_ allowed),
    neatens.trans (neatens_bind hasStill)⟩
  · refine dominates_of_preds (by rwa [looked.entry]) fun source found => ?_
    rw [looked.preds, only, List.mem_singleton] at found
    rw [found]
    exact soundThen.strict.bound pred var value bound
  · -- a loop can have led the search to the block itself, which then has the same note
    rcases Looks.follows steps sound fits closed only differs (.inl missing) with unbound | follows
    · refine .inr ⟨unbound, fun source isOnly => ?_⟩
      rw [looked.preds, only] at isOnly
      rwa [← (List.cons.inj isOnly).1]
    · exact .inl (follows.trans bound)

theorem search_several (reads : Reads watch var depth read)
    (deep : graph.unbound var * (graph.blocks.size + 1) < depth + 1)
    (closed : (graph.block block).isSealed = true) (several : 2 ≤ (graph.block block).preds.length) :
    Yields watch (do
      let phi ← emptyPhi program block var
      writeVar block var phi
      fillPhiWith read phi) graph (Finds graph pending sealing block var) := by
  have allowed := readGuard_allows missing
  have fits := sound.readGuard_fits block var
  have notEntry : block ≠ graph.entry := by
    rintro rfl
    rw [sound.flows.entry_preds] at several
    exact absurd several (by decide)
  refine Yields.bind (makeValue_phi tolerant sound has rfl (by simp) (by simp) notEntry allowed.1) ?_
  rintro _ made ⟨rfl, inserts, step⟩
  have hasMade := (inserts.hasBlock block).2 has
  have missingMade : made.binding block var = none := by rw [inserts.binding, missing]
  have noted : Lookup (graph.readGuard block var)
      ⟨made, pending ∪ {graph.values.next}, sealing⟩
      ⟨made.bind block var graph.values.next, pending ∪ {graph.values.next}, sealing⟩ := by
    refine .note hasMade inserts.live_new ?_ (.inr ⟨missingMade, fun pred only => ?_⟩) allowed
    · rw [inserts.value_new]
      exact dominates_self
    · rw [← inserts.preds, only, List.length_singleton] at several
      omega
  have first : Looks (graph.readGuard block var) ⟨graph, pending, sealing⟩
      ⟨made.bind block var graph.values.next, pending ∪ {graph.values.next}, sealing⟩ :=
    (ReflTransGen.single step).tail noted
  have bound : (made.bind block var graph.values.next).binding block var = some graph.values.next := by
    rw [binding_bind hasMade, if_pos ⟨rfl, rfl⟩]
  have neatens : Neatens ⟨graph, pending, sealing⟩
      ⟨made.bind block var graph.values.next, pending ∪ {graph.values.next}, sealing⟩ :=
    inserts.neatens_note rfl missing
  have value : (made.bind block var graph.values.next).value graph.values.next =
      made.value graph.values.next := rfl
  rw [inserts.value_new] at value
  have fewer : (made.bind block var graph.values.next).unbound var < graph.unbound var :=
    (unbound_bind hasMade missingMade).trans_le (looked_inserts inserts fits rfl allowed.1).unbound_le
  refine yields_bind_of_eq (under_modify _) ?_
  change Yields watch _ (made.bind block var graph.values.next) _
  generalize made.bind block var graph.values.next = start at *
  have looked : Looked (graph.readGuard block var) graph start := Looks.looked first sound fits
  have soundStart : start.Sound (pending ∪ {graph.values.next}) sealing := Looks.sound first sound
  have hasNow := (looked.hasBlock block).2 has
  have enough : start.unbound var * (start.blocks.size + 1) + start.blocks.size < depth := by
    rw [looked.sizeBlocks]
    have scaled := Nat.mul_le_mul_right (graph.blocks.size + 1) fewer
    rw [Nat.succ_mul] at scaled
    omega
  refine Yields.mono (fillPhiWith_yields tolerant reads soundStart
    (fun found => not_hasValue_next (sound.fills.pending _ found).1.1) (looked.fits fits)
    not_hasValue_next (fun other found => ?_) (fun other found => ?_) ?_ (.inl ?_) enough) ?_
  · exact looked.bound other var (found.resolve_left fun differs => differs rfl)
  · exact .inl (sound.fills.pending other found).1.1
  · rw [value]
  · rw [value, looked.isSealed]
    exact closed
  · rintro survivor after ⟨filled, survives⟩
    have soundThen : after.Sound pending sealing := Looks.sound filled.looks soundStart
    have lookedThen : Looked (graph.readGuard block var) start after :=
      Looks.looked filled.looks soundStart (looked.fits fits)
    have still : after.binding block var = some survivor := by
      rw [survives]
      exact Looks.binding filled.looks soundStart (looked.fits fits) bound
    have hasStill := (lookedThen.hasBlock block).2 hasNow
    exact ⟨hasStill, (first.trans filled.looks).tail (.note hasStill
      (soundThen.consistent.bound block var survivor still)
      (soundThen.strict.bound block var survivor still) (.inl still) allowed),
      (neatens.trans filled.neatens).trans (neatens_bind hasStill)⟩

theorem searchVarWith_yields (reads : Reads watch var depth read) (ranks : graph.Ranks rank)
    (deep : graph.unbound var * (graph.blocks.size + 1) + rank block < depth + 1) :
    Yields watch (searchVarWith program read block var) graph (Finds graph pending sealing block var) := by
  refine yields_get_bind ?_
  dsimp only
  cases closed : (graph.block block).isSealed with
  | false =>
    rw [if_pos (by decide)]
    exact search_unsealed tolerant sound has missing closed
  | true =>
    rw [if_neg (by decide)]
    split
    next preds => exact search_nothing tolerant sound has missing preds
    next preds => exact search_single sound has missing reads ranks deep closed preds
    next notNone notSingle =>
      refine search_several tolerant sound has missing reads (by omega) closed ?_
      rcases preds : (graph.block block).preds with _ | ⟨first, _ | ⟨second, rest⟩⟩
      · exact absurd preds notNone
      · exact absurd preds (notSingle first)
      · simp

end Search

theorem readVarWithin_reads (tolerant : watch.Tolerant)
    (program : Program) (var : VarId) (depth : Nat) :
    Reads watch var depth (readVarWithin program var depth) := by
  induction depth with
  | zero =>
    intro graph pending sealing block rank _ _ _ deep
    exact absurd deep (Nat.not_lt_zero _)
  | succ depth ih =>
    intro graph pending sealing block rank sound has ranks deep
    refine yields_watched (yields_get_bind ?_)
    cases bound : (graph.block block).bindings.find? var with
    | some value => exact yields_pure ⟨tolerant graph sound.consistent, .refl, bound, .refl⟩
    | none =>
      refine Yields.bind (searchVarWith_yields tolerant sound has bound ih ranks deep) ?_
      rintro value after ⟨hasStill, steps, neatens⟩
      refine yields_bind_of_eq (under_modify _) (yields_pure ?_)
      have soundThen : (after.bind block var value).Sound pending sealing := Looks.sound steps sound
      refine ⟨tolerant _ soundThen.consistent, steps, ?_, neatens⟩
      exact (binding_bind hasStill block var).trans (if_pos ⟨rfl, rfl⟩)


theorem readVarWithin_reads_limit (tolerant : watch.Tolerant)
    (program : Program) (var : VarId) (graph : Graph) :
    Reads watch var graph.lookupLimit (readVarWithin program var graph.lookupLimit) ∧
      graph.unbound var * (graph.blocks.size + 1) + graph.blocks.size < graph.lookupLimit := by
  refine ⟨readVarWithin_reads tolerant program var _, ?_⟩
  have scaled := Nat.mul_le_mul_right (graph.blocks.size + 1) (@unbound_le graph var)
  rw [lookupLimit, Nat.succ_mul graph.blocks.size]
  omega

theorem readVar_yields (tolerant : watch.Tolerant)
    (program : Program) (sound : graph.Sound pending sealing) (has : graph.HasBlock block) :
    Yields watch (readVar program block var) graph fun value after =>
      Looks (graph.readGuard block var) ⟨graph, pending, sealing⟩ ⟨after, pending, sealing⟩ ∧
        after.binding block var = some value ∧
        Neatens ⟨graph, pending, sealing⟩ ⟨after, pending, sealing⟩ := by
  obtain ⟨reads, enough⟩ := readVarWithin_reads_limit tolerant program var graph
  obtain ⟨rank, ranks⟩ := sound.flows.ranks
  have bounded := ranks.le_size block
  exact yields_get_bind (reads graph pending sealing block rank sound has ranks (by omega))

end Build

end Shader
