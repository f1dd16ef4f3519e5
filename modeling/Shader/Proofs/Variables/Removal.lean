import Shader.Proofs.Build.Making
import Shader.Proofs.Graph.Neat

/-! # Removing phis

Removing a phi with only one choice looks again at the phis that used it, and so on. Every phi that is
removed was filled: the phis that are being filled have operands that are older than whatever is
removed meanwhile, or none yet. -/

namespace Shader

namespace Graph

variable {graph after : Graph} {guard : Guard} {pending : Set ValueId} {sealing : Set BlockId}
  {phi same : ValueId}

/-! ## Counting phis -/

def livePhis (graph : Graph) : Nat :=
  ((Finset.range graph.values.size).filter fun index =>
    (graph.value ⟨index⟩).removed = false ∧ (graph.value ⟨index⟩).opcode = .phi).card

theorem livePhis_le : graph.livePhis ≤ graph.values.size :=
  (Finset.card_filter_le _ _).trans (Finset.card_range _).le

theorem Inserts.livePhis {block : BlockId} {operation : Operation} {left right : List ValueId}
    (inserts : Inserts graph block operation left right after)
    (notPhi : operation.opcode ≠ .phi) : after.livePhis = graph.livePhis := by
  have size : after.values.size = graph.values.size + 1 := by
    rw [inserts.eq, size_values_insertValue]
  have new : (after.value ⟨graph.values.size⟩).opcode ≠ .phi := by
    have value := inserts.value_new
    rw [Arena.next] at value
    rw [value]
    exact notPhi
  rw [Graph.livePhis, Graph.livePhis, size, Finset.range_add_one, Finset.filter_insert,
    if_neg (by simp [new])]
  refine congrArg Finset.card (Finset.filter_congr fun index inside => ?_)
  have differs : (⟨index⟩ : ValueId) ≠ graph.values.next := by
    rintro same
    have equal := congrArg Handle.index same
    simp only [Arena.next] at equal
    exact absurd (Finset.mem_range.1 inside) (by omega)
  rw [inserts.removed, inserts.opcode_old differs]

theorem Retires.livePhis (retires : Retires graph phi same after) : after.livePhis + 1 = graph.livePhis := by
  have split : (Finset.range graph.values.size).filter
      (fun index => (graph.value ⟨index⟩).removed = false ∧ (graph.value ⟨index⟩).opcode = .phi) =
      Insert.insert phi.index ((Finset.range after.values.size).filter fun index =>
        (after.value ⟨index⟩).removed = false ∧ (after.value ⟨index⟩).opcode = .phi) := by
    ext index
    have size : index < after.values.size ↔ index < graph.values.size := retires.hasValue ⟨index⟩
    simp only [Finset.mem_filter, Finset.mem_range, Finset.mem_insert, size, retires.opcode]
    by_cases isPhi : index = phi.index
    · subst isPhi
      have inside : phi.index < graph.values.size := retires.live.1
      have kept : (graph.value ⟨phi.index⟩).removed = false := retires.live.2
      have opcode : (graph.value ⟨phi.index⟩).opcode = .phi := retires.isPhi
      simp [inside, kept, opcode]
    · have differs : (⟨index⟩ : ValueId) ≠ phi := fun equal => isPhi (congrArg Handle.index equal)
      simp [isPhi, retires.removed_old differs]
  have gone : (after.value ⟨phi.index⟩).removed = true := retires.removed_phi
  rw [Graph.livePhis, Graph.livePhis, split, Finset.card_insert_of_notMem (by simp [gone])]

/-! ## Phis that can be removed -/

/-- A phi can be given up: it is neither being filled nor waits, and it is not guarded. -/
structure Removable (guard : Guard) (pending : Set ValueId) (graph : Graph) (phi : ValueId) :
    Prop where
  isPhi : (graph.value phi).opcode = .phi
  settled : phi ∉ pending
  free : ¬ graph.Waits phi
  allowed : phi ∉ guard.values

/-- The phis that are being filled are guarded, or have no operands yet. -/
def Shielded (guard : Guard) (pending : Set ValueId) (graph : Graph) : Prop :=
  ∀ phi ∈ pending, phi ∈ guard.values ∨ (graph.value phi).args = []

theorem mem_choices {arg : ValueId} : arg ∈ graph.choices phi ↔ arg ∈ (graph.value phi).args ∧ arg ≠ phi := by
  simp [choices, List.mem_eraseDups]

theorem Sound.operand_of_pred (sound : graph.Sound pending sealing) (live : graph.IsLive phi)
    (removable : graph.Removable guard pending phi) {pred : BlockId}
    (edge : pred ∈ (graph.block (graph.value phi).block).preds) :
    ∃ arg ∈ (graph.value phi).args, graph.Dominates (graph.value arg).block pred := by
  rcases sound.fills.arity phi live removable.isPhi with found | waits | ⟨filled, -⟩
  · exact absurd found removable.settled
  · exact absurd waits removable.free
  · obtain ⟨position, inside, source⟩ := List.mem_iff_getElem.1 edge
    have bound : position < (graph.value phi).args.length := by
      rw [filled]
      exact inside
    refine ⟨(graph.value phi).args[position], List.getElem_mem bound, ?_⟩
    refine sound.strict.choice phi removable.isPhi position _ pred (List.getElem?_eq_getElem bound) ?_
    rw [List.getElem?_eq_getElem inside, source]

theorem Sound.retires_of_choice (sound : graph.Sound pending sealing) (live : graph.IsLive phi)
    (removable : graph.Removable guard pending phi)
    (choice : ∀ arg ∈ (graph.value phi).args, arg = phi ∨ arg = same)
    (liveSame : graph.IsLive same) (differs : phi ≠ same) :
    Retires graph phi same (graph.retire phi same) where
  eq := rfl
  consistent := sound.consistent
  replaces := sound.replaces
  laidOut := sound.laidOut
  live := live
  isPhi := removable.isPhi
  liveSame := liveSame
  differs := differs
  dominates block dominated := by
    refine Dominates.trans ?_ dominated
    refine dominates_of_preds_or (sound.fills.notEntry phi live removable.isPhi) fun pred edge => ?_
    obtain ⟨arg, found, dominates⟩ := sound.operand_of_pred live removable edge
    rcases choice arg found with rfl | rfl
    · exact .inl dominates
    · exact .inr dominates
  away reached home := by
    -- then the block of the phi would dominate all its predecessors
    refine not_reaches_of_preds (sound.fills.notEntry phi live removable.isPhi) (fun pred edge => ?_) reached
    obtain ⟨arg, found, dominates⟩ := sound.operand_of_pred live removable edge
    rcases choice arg found with rfl | rfl
    · exact dominates
    · rwa [home] at dominates

/-! ## What a removal does -/

/-- What removing phis does: it is a lookup that lets no phi start or stop to wait, gives operands to no
value without any, and makes no phis. -/
structure Cascades (guard : Guard) (pending : Set ValueId) (sealing : Set BlockId)
    (graph after : Graph) : Prop where
  looks : Looks guard ⟨graph, pending, sealing⟩ ⟨after, pending, sealing⟩
  incomplete : ∀ block, (after.block block).incomplete = (graph.block block).incomplete
  empty : ∀ value, graph.HasValue value → (graph.value value).args = [] → (after.value value).args = []
  phis : after.livePhis ≤ graph.livePhis
  named : graph.Named → after.Named

variable {middle : Graph}

theorem Cascades.refl : Cascades guard pending sealing graph graph :=
  ⟨.refl, fun _ => rfl, fun _ _ none => none, le_rfl, id⟩

theorem Cascades.trans (first : Cascades guard pending sealing graph middle)
    (second : Cascades guard pending sealing middle after)
    (has : ∀ value, graph.HasValue value → middle.HasValue value) :
    Cascades guard pending sealing graph after where
  looks := first.looks.trans second.looks
  incomplete block := (second.incomplete block).trans (first.incomplete block)
  empty value had none := second.empty value (has value had) (first.empty value had none)
  phis := second.phis.trans first.phis
  named before := second.named (first.named before)

theorem Cascades.neatens (cascades : Cascades guard pending sealing graph after)
    (loose : after.Loose pending ⊆ graph.Loose pending \ {phi}) :
    Neatens ⟨graph, pending ∪ {phi}, sealing⟩ ⟨after, pending, sealing⟩ := by
  refine ⟨fun other isLoose => ?_, cascades.named⟩
  obtain ⟨⟨live, isPhi, settled, rest⟩, differs⟩ := loose isLoose
  exact ⟨live, isPhi, fun found => found.elim settled differs, rest⟩

theorem Retires.named (retires : Retires graph phi same after) (named : graph.Named) : after.Named where
  bound other var isPhi payload := by
    rw [retires.opcode] at isPhi
    rw [retires.payload] at payload
    have bound := named.bound other var isPhi payload
    rw [retires.blockOf, retires.binding, Option.isSome_map]
    exact bound
  single first second var isFirst isSecond payloadFirst payloadSecond together := by
    rw [retires.opcode] at isFirst isSecond
    rw [retires.payload] at payloadFirst payloadSecond
    rw [retires.blockOf, retires.blockOf] at together
    exact named.single first second var isFirst isSecond payloadFirst payloadSecond together

theorem cascades_retires (retires : Retires graph phi same after)
    (removable : graph.Removable guard pending phi)
    (choice : ∀ arg ∈ (graph.value phi).args, arg = phi ∨ arg = same) :
    Cascades guard pending sealing graph after where
  looks := .single (.retire retires removable.settled removable.free choice removable.allowed)
  incomplete := retires.incomplete
  empty value _ none := by
    by_cases isPhi : value = phi
    · rw [isPhi, retires.args_phi]
    · rw [retires.args_old isPhi, none, List.map_nil]
  phis := by
    have := retires.livePhis
    omega
  named := retires.named

theorem Removable.cascades (removable : graph.Removable guard pending phi)
    (has : graph.HasValue phi) (cascades : Cascades guard pending sealing graph after)
    (looked : Looked guard graph after) : after.Removable guard pending phi := by
  refine ⟨(looked.opcode has).trans removable.isPhi, removable.settled, ?_, removable.allowed⟩
  rw [Waits, looked.home has, cascades.incomplete]
  exact removable.free

theorem Shielded.cascades (shielded : Shielded guard pending graph)
    (sound : graph.Sound pending sealing)
    (cascades : Cascades guard pending sealing graph after) : Shielded guard pending after :=
  fun other found =>
    (shielded other found).imp_right (cascades.empty other (sound.fills.pending other found).1.1)

theorem Sound.removable_user (sound : graph.Sound pending sealing) (fits : guard.Fits graph)
    (shielded : Shielded guard pending graph) (allowed : phi ∉ guard.values) {user : ValueId}
    (used : phi ∈ (graph.value user).args) (isPhi : (graph.value user).opcode = .phi) :
    graph.Removable guard pending user where
  isPhi := isPhi
  settled found := by
    rcases shielded user found with guarded | empty
    · exact allowed (fits.closed user guarded phi used)
    · rw [empty] at used
      exact List.not_mem_nil used
  free := by
    rintro ⟨var, waits⟩
    obtain ⟨-, -, empty, -⟩ := sound.fills.waits _ var user waits
    rw [empty] at used
    exact List.not_mem_nil used
  allowed guarded := allowed (fits.closed user guarded phi used)

theorem mem_phiUsers (agree : graph.EdgesAgree) {user : ValueId} : user ∈ graph.phiUsers phi ↔
      phi ∈ (graph.value user).args ∧ user ≠ phi ∧ (graph.value user).opcode = .phi := by
  simp [phiUsers, mem_otherUsers agree, isPhi, and_assoc]

theorem Retires.loose (retires : Retires graph phi same after) :
    after.Loose pending ⊆ (graph.Loose pending \ {phi}) ∪ {user | user ∈ graph.phiUsers phi} := by
  rintro other ⟨live, isPhi, settled, free, few⟩
  obtain ⟨wasLive, differs⟩ := (retires.isLive other).1 live
  rw [retires.opcode] at isPhi
  by_cases used : phi ∈ (graph.value other).args
  · exact .inr ((mem_phiUsers retires.consistent.edges).2 ⟨used, differs, isPhi⟩)
  · refine .inl ⟨⟨wasLive, isPhi, settled, ?_, ?_⟩, differs⟩
    · rwa [Waits, retires.blockOf, retires.incomplete] at free
    · have args : (after.value other).args = (graph.value other).args := by
        rw [retires.args_old differs]
        refine (List.map_congr_left fun arg found => ?_).trans (List.map_id _)
        have other : arg ≠ phi := fun isPhi => used (isPhi ▸ found)
        rw [exchange, if_neg other, id]
      rwa [choices, args] at few

end Graph

namespace Build

open Shader.Graph

variable {graph : Graph} {watch : Watch} {phi same : ValueId}

theorem under_startEdit (idle : graph.isEditing = false) :
    startEdit.under watch graph = .ok {} { graph with isEditing := true } := by
  have allowed : (require (!graph.isEditing) .editOpen).under watch graph = .ok () graph :=
    under_require (by simp [idle])
  exact under_bind_ok allowed

theorem under_finishEdit {edit : Edit} {after : Graph} (editing : graph.isEditing = true)
    (applied : graph.applyEdit edit = .ok after) :
    (finishEdit edit).under watch graph = .ok () after := by
  have allowed : (require graph.isEditing .finishWithoutEdit).under watch graph = .ok () graph :=
    under_require editing
  have accepted : (accept (graph.applyEdit edit)).under watch graph = .ok after graph := under_accept applied
  exact (under_bind_ok allowed).trans (under_bind_ok accepted)

theorem retirePhi_yields {recheck : ValueId → Build ValueId} {post : ValueId → Graph → Prop}
    (idle : graph.isEditing = false) (agree : graph.EdgesAgree) (hasPhi : graph.HasValue phi)
    (hasSame : graph.HasValue same) (differs : phi ≠ same)
    (rest : Yields watch (do
        (graph.phiUsers phi).forM fun user => do
          unless ((← get).value user).removed do
            let _ ← recheck user
        let graph ← get
        let survivor := graph.resolve same
        require (!(graph.value survivor).removed) (.survivorRemoved survivor.index)
        return survivor) (graph.retire phi same) post) :
    Yields watch (retirePhi recheck phi same) graph post := by
  have opened : ({ graph with isEditing := true } : Graph).EdgesAgree := agree
  obtain ⟨-, -, -, unused, -⟩ := replaceUses_spec opened hasPhi hasSame differs
  have editing : (({ graph with isEditing := true } : Graph).replaceUses phi same).isEditing = true := by
    rw [replaceUses_eq]
  unfold retire at rest
  generalize replaced : ({ graph with isEditing := true } : Graph).replaceUses phi same = moved at *
  have reopened : ({ ({ moved with isEditing := false } : Graph) with isEditing := true } : Graph) =
      moved := by rw [← editing]
  have unedited : moved.applyEdit {} = .ok { moved with isEditing := false } := rfl
  have removes : moved.applyEdit { removals := [phi] } =
      .ok { moved.removeValue phi with isEditing := false } := by
    have none : moved.hasOtherUses phi = false := by
      simpa [hasOtherUses] using unused
    have removed : moved.removeUnused phi = .ok (moved.removeValue phi) := by
      rw [removeUnused, none]
      rfl
    change (moved.removeUnused phi >>= fun removed => pure removed) >>= _ = _
    rw [removed]
    rfl
  refine yields_get_bind (yields_bind_of_eq (under_startEdit idle) ?_)
  have replaces : (replaceUses phi same).under watch { graph with isEditing := true } = .ok () moved := by
    rw [← replaced]
    rfl
  refine yields_bind_of_eq replaces (yields_bind_of_eq (under_finishEdit editing unedited) ?_)
  refine yields_bind_of_eq (under_startEdit rfl) ?_
  rw [reopened]
  have queued : (queueRemoval {} phi).under watch moved = .ok { removals := [phi] } moved :=
    under_bind_ok (under_require editing)
  refine yields_bind_of_eq queued (yields_bind_of_eq (under_finishEdit editing removes) ?_)
  exact yields_bind_of_eq rfl rest

variable {guard : Guard} {pending : Set ValueId} {sealing : Set BlockId}

/-- A step removes phis as it should, if there are less than so many. -/
def Removes (watch : Watch) (guard : Guard) (pending : Set ValueId) (sealing : Set BlockId)
    (limit : Nat) (step : ValueId → Build ValueId) : Prop :=
  ∀ (graph : Graph) (phi : ValueId), graph.Sound pending sealing → guard.Fits graph →
    Shielded guard pending graph → graph.IsLive phi → graph.Removable guard pending phi →
    graph.livePhis < limit → Yields watch (step phi) graph fun value after =>
        Cascades guard pending sealing graph after ∧ after.IsLive value ∧
          value = after.resolve phi ∧ after.Loose pending ⊆ graph.Loose pending \ {phi}

theorem retirePhi_cascades {limit : Nat} {recheck : ValueId → Build ValueId}
    (removes : Removes watch guard pending sealing limit recheck)
    (sound : graph.Sound pending sealing) (fits : guard.Fits graph)
    (shielded : Shielded guard pending graph) (live : graph.IsLive phi)
    (removable : graph.Removable guard pending phi) (few : graph.livePhis < limit + 1)
    (choice : ∀ arg ∈ (graph.value phi).args, arg = phi ∨ arg = same)
    (liveSame : graph.IsLive same) (differs : phi ≠ same) :
    Yields watch (retirePhi recheck phi same) graph fun value after =>
      Cascades guard pending sealing graph after ∧ after.IsLive value ∧
        value = after.resolve phi ∧ after.Loose pending ⊆ graph.Loose pending \ {phi} := by
  have retires := sound.retires_of_choice live removable choice liveSame differs
  refine retirePhi_yields sound.idle sound.consistent.edges live.1 liveSame.1 differs ?_
  have first : Cascades guard pending sealing graph (graph.retire phi same) :=
    cascades_retires retires removable choice
  have fewer := retires.livePhis
  have replaced : (graph.retire phi same).resolve phi = same := by
    rw [retires.resolve_eq live.1, sound.replaces.resolve_live live, exchange, if_pos rfl]
  have users : ∀ user ∈ graph.phiUsers phi, graph.HasValue user ∧ graph.Removable guard pending user := by
    intro user found
    obtain ⟨used, -, isPhi⟩ := (mem_phiUsers sound.consistent.edges).1 found
    exact ⟨(sound.consistent.live_user used).1,
      sound.removable_user fits shielded removable.allowed used isPhi⟩
  have loose : (graph.retire phi same).Loose pending ⊆ _ := retires.loose
  generalize graph.retire phi same = retired at *
  have looked : Looked guard graph retired := Looks.looked first.looks sound fits
  have soundNow : retired.Sound pending sealing := Looks.sound first.looks sound
  -- every round removes more phis, the users left can still be removed, and only they can be loose
  refine Yields.bind (yields_forM (fun rest now => Cascades guard pending sealing retired now ∧
      (∀ user ∈ rest, retired.HasValue user ∧ retired.Removable guard pending user) ∧
      now.Loose pending ⊆ (graph.Loose pending \ {phi}) ∪ {user | user ∈ rest})
    ⟨.refl, fun user found => ⟨looked.hasValue user (users user found).1,
      (users user found).2.cascades (users user found).1 first looked⟩, loose⟩ ?_) ?_
  · rintro user rest now ⟨cascades, left, loose⟩
    have lookedNow : Looked guard retired now := Looks.looked cascades.looks soundNow (looked.fits fits)
    have others : ∀ user ∈ rest, retired.HasValue user ∧ retired.Removable guard pending user :=
      fun other found => left other (List.mem_cons_of_mem user found)
    refine yields_get_bind ?_
    cases gone : (now.value user).removed with
    | true =>
      refine yields_pure ⟨cascades, others, fun other isLoose => ?_⟩
      refine (loose isLoose).imp_right fun found => ?_
      refine (List.mem_cons.1 found).resolve_left ?_
      rintro rfl
      have kept := isLoose.1.2
      rw [gone] at kept
      cases kept
    | false =>
      obtain ⟨has, removableUser⟩ := left user List.mem_cons_self
      have bound := cascades.phis
      refine Yields.bind (removes now user (Looks.sound cascades.looks soundNow)
        (lookedNow.fits (looked.fits fits))
        ((shielded.cascades sound first).cascades soundNow cascades)
        ⟨lookedNow.hasValue user has, gone⟩
        (removableUser.cascades has cascades lookedNow) (by omega)) ?_
      rintro - after ⟨further, -, -, looser⟩
      refine yields_pure ⟨cascades.trans further lookedNow.hasValue, others, fun other isLoose => ?_⟩
      obtain ⟨wasLoose, differs⟩ := looser isLoose
      refine (loose wasLoose).imp_right fun found => ?_
      exact (List.mem_cons.1 found).resolve_left differs
  · rintro - now ⟨cascades, -, loose⟩
    have soundThen : now.Sound pending sealing := Looks.sound cascades.looks soundNow
    have lookedNow : Looked guard retired now := Looks.looked cascades.looks soundNow (looked.fits fits)
    have survives : now.IsLive (now.resolve same) :=
      soundThen.replaces.live_resolve (lookedNow.hasValue same (looked.hasValue same liveSame.1))
    have survivor : now.resolve same = now.resolve phi := by
      rw [← replaced]
      exact (Looks.resolve cascades.looks soundNow (looked.fits fits) (looked.hasValue phi live.1)).symm
    refine yields_get_bind (yields_bind_of_eq (under_require (by simp [survives.2])) ?_)
    refine yields_pure ⟨first.trans cascades looked.hasValue, survives, survivor, ?_⟩
    exact loose.trans (by simp)

theorem undefinedLike_yields (tolerant : watch.Tolerant)
    (sound : graph.Sound pending sealing) (fits : guard.Fits graph) (live : graph.IsLive phi) :
    Yields watch (undefinedLike phi) graph fun value after =>
      Cascades guard pending sealing graph after ∧ after.IsLive value ∧ phi ≠ value ∧
        after.IsLive phi ∧ (after.value phi).args = (graph.value phi).args ∧
        after.Loose pending ⊆ graph.Loose pending := by
  have placed := (sound.consistent.mem_values_iff live).2 rfl
  have allowed : (graph.value phi).block ∉ guard.blank := by
    intro found
    rw [(fits.blank _ found).places] at placed
    exact List.not_mem_nil placed
  refine yields_get_bind (Yields.mono (makeValue_plain tolerant sound
    (sound.consistent.hasBlock live) (by simp) rfl (by simp) (fun _ => ⟨rfl, rfl⟩) allowed) ?_)
  rintro _ after ⟨rfl, inserts, step⟩
  have neatens : Neatens ⟨graph, pending, sealing⟩ ⟨after, pending, sealing⟩ := inserts.neatens (by simp)
  refine ⟨⟨.single step, inserts.incomplete, fun value has empty => ?_,
    (inserts.livePhis (by simp)).le, neatens.named⟩, inserts.live_new, live.ne_next,
    inserts.live_old live, inserts.args_old live.ne_next, neatens.loose⟩
  rw [inserts.args_old has.ne_next, empty]

theorem removePhiWithin_removes (tolerant : watch.Tolerant)
    (depth : Nat) : Removes watch guard pending sealing depth (removePhiWithin depth) := by
  induction depth with
  | zero =>
    intro graph phi _ _ _ _ _ few
    exact absurd few (Nat.not_lt_zero _)
  | succ depth ih =>
    intro graph phi sound fits shielded live removable few
    have watched {after : Graph} (cascades : Cascades guard pending sealing graph after) :
        watch after = true :=
      tolerant after (Graph.Sound.consistent (Looks.sound cascades.looks sound))
    refine yields_watched (yields_get_bind ?_)
    have all {arg : ValueId} : arg ∈ (graph.value phi).args → arg = phi ∨ arg ∈ graph.choices phi :=
      fun used => (em (arg = phi)).imp_right fun differs => mem_choices.2 ⟨used, differs⟩
    match found : graph.choices phi with
    | [] =>
      refine Yields.bind (undefinedLike_yields tolerant sound fits live) ?_
      rintro same middle ⟨first, liveSame, differs, liveStill, args, kept⟩
      have looked : Looked guard graph middle := Looks.looked first.looks sound fits
      have few : middle.livePhis < depth + 1 := first.phis.trans_lt few
      refine Yields.mono (retirePhi_cascades ih (Looks.sound first.looks sound)
        (looked.fits fits) (shielded.cascades sound first) liveStill
        (removable.cascades live.1 first looked) few (fun arg used => ?_) liveSame differs) ?_
      · rw [args] at used
        exact .inl (by simpa [found] using all used)
      · rintro value after ⟨second, survives, isValue, loose⟩
        have cascades := first.trans second looked.hasValue
        exact ⟨watched cascades, cascades, survives, isValue, loose.trans (Set.sdiff_subset_sdiff_left kept)⟩
    | [same] =>
      have chosen : same ∈ graph.choices phi := by simp [found]
      obtain ⟨used, differs⟩ := mem_choices.1 chosen
      refine Yields.mono (retirePhi_cascades ih sound fits shielded live removable few
        (fun arg used => by simpa [found] using all used) (sound.consistent.live_arg used)
        differs.symm) ?_
      rintro value after ⟨cascades, survives⟩
      exact ⟨watched cascades, cascades, survives⟩
    | _ :: _ :: _ =>
      refine yields_pure ⟨watched .refl, .refl, live, (sound.replaces.resolve_live live).symm, ?_⟩
      intro other isLoose
      refine ⟨isLoose, ?_⟩
      rintro rfl
      have few := isLoose.2.2.2.2
      rw [found] at few
      simp at few

theorem removePhi_yields (tolerant : watch.Tolerant)
    (sound : graph.Sound pending sealing) (fits : guard.Fits graph)
    (shielded : Shielded guard pending graph) (live : graph.IsLive phi)
    (removable : graph.Removable guard pending phi) :
    Yields watch (removePhi phi) graph fun value after =>
      Cascades guard pending sealing graph after ∧ after.IsLive value ∧
        value = after.resolve phi ∧ after.Loose pending ⊆ graph.Loose pending \ {phi} := by
  have few : graph.livePhis < graph.removalLimit := by
    have bound := @livePhis_le graph
    rw [removalLimit]
    omega
  exact yields_get_bind (removePhiWithin_removes tolerant _ graph phi sound fits shielded live removable few)

end Build

end Shader
