import Shader.Proofs.Graph.Pairing

/-! # Types of variables

Reading a variable finds a value of its type, however many phis are made and given up for it. -/

namespace Shader

namespace Graph

variable {program : Program} {graph middle after : Graph} {block : BlockId} {var : VarId}
  {value phi : ValueId} {type : TypeId}

abbrev PhiOf (graph : Graph) (type : TypeId) (phi : ValueId) : Prop :=
  (graph.value phi).opcode = .phi ∧ (graph.value phi).type = some type

/-- A graph is typed, and has the values, blocks and endings of another one. Addresses of parts are used
only by their accesses if they were. -/
structure Remains (program : Program) (graph after : Graph) : Prop extends graph.Stays after where
  typed : after.Typed program
  paired : graph.Paired → after.Paired

theorem Remains.refl (typed : graph.Typed program) : graph.Remains program graph := ⟨.refl, typed, id⟩

theorem Remains.trans (first : graph.Remains program middle) (second : middle.Remains program after) :
    graph.Remains program after :=
  ⟨first.toStays.trans second.toStays, second.typed, fun paired => second.paired (first.paired paired)⟩

theorem Adds.remains {operation : Operation} (adds : graph.Adds block operation after)
    (typed : graph.Typed program) (takes : graph.Takes block operation)
    (accepts : graph.Accepts program operation) (plain : operation.opcode.isEnding = false) :
    graph.Remains program after :=
  ⟨adds.stays plain, adds.typed typed accepts, fun paired => paired.adds adds takes⟩

theorem Typed.remains_isEditing (typed : graph.Typed program) (isEditing : Bool) :
    graph.Remains program { graph with isEditing } :=
  ⟨⟨grows_of_values rfl rfl, rfl, rfl, fun _ => rfl⟩,
    typed.of_values rfl rfl rfl (fun _ _ _ found => .inl found) (fun _ _ _ found => .inl found)
      fun _ _ found => found, fun paired => paired.of_values rfl rfl rfl⟩

theorem Typed.remains_modifyBlock (typed : graph.Typed program) (block : BlockId) (change : Block → Block)
    (bound : ∀ var value, (change (graph.block block)).bindings.find? var = some value →
      graph.binding block var = some value ∨ graph.Carries value (program.var var).type)
    (waiting : ∀ var phi, (var, phi) ∈ (change (graph.block block)).incomplete →
      (var, phi) ∈ (graph.block block).incomplete ∨ graph.PhiOf (program.var var).type phi)
    (ending : (change (graph.block block)).ending = (graph.block block).ending) :
    graph.Remains program (graph.modifyBlock block change) := by
  obtain ⟨stays, changed⟩ := typed.modifyBlock block change bound waiting ending
  exact ⟨stays, changed, fun paired => paired.of_values rfl rfl rfl⟩

theorem Typed.remains_writeVar (typed : graph.Typed program)
    (carries : graph.Carries value (program.var var).type) :
    graph.Remains program (graph.modifyBlock block fun block =>
      { block with bindings := block.bindings.insert var value }) := by
  refine typed.remains_modifyBlock block _ (fun other bound found => ?_) (fun _ _ found => .inl found) rfl
  by_cases same : other = var
  · subst same
    rw [Table.find?_insert_self] at found
    cases found
    exact .inr carries
  · rw [Table.find?_insert_of_ne _ _ same] at found
    exact .inl found

theorem Typed.remains_setSlot {slot : ValueId} (typed : graph.Typed program)
    (isSlot : (graph.value slot).opcode = .alloca)
    (isType : (graph.value slot).type = some (program.var var).type) :
    graph.Remains program { graph with slots := graph.slots.insert var slot } := by
  have grows : graph.Grows { graph with slots := graph.slots.insert var slot } := grows_of_values rfl rfl
  refine ⟨⟨grows, rfl, rfl, fun _ => rfl⟩, ⟨fun value => (typed.accepts value).grows grows, typed.bound,
    typed.waiting, fun other memory found => ?_, typed.replaced, typed.ending⟩,
    fun paired => paired.of_values rfl rfl rfl⟩
  have found : (graph.slots.insert var slot).find? other = some memory := found
  by_cases same : other = var
  · subst same
    rw [Table.find?_insert_self] at found
    cases found
    exact ⟨isSlot, isType⟩
  · rw [Table.find?_insert_of_ne _ _ same] at found
    exact typed.slots other memory found

theorem Grows.isPhi (grows : graph.Grows after) (isPhi : (graph.value phi).opcode = .phi) :
    (after.value phi).opcode = .phi := by
  refine (grows.opcode (hasValue_of_opcode ?_)).trans isPhi
  rw [isPhi]
  decide

theorem Grows.phiOf (grows : graph.Grows after) (isPhi : graph.PhiOf type phi) : after.PhiOf type phi :=
  ⟨grows.isPhi isPhi.1, (grows.sameType (hasValue_of_type isPhi.2)).trans isPhi.2⟩

theorem PhiOf.carries (isPhi : graph.PhiOf type phi) : graph.Carries phi type :=
  ⟨isPhi.2, by rw [isPhi.1]; rfl⟩

section Phis

variable (typed : graph.Typed program) (isPhi : (graph.value phi).opcode = .phi)

include typed isPhi

theorem Typed.exists_type : ∃ type, (graph.value phi).type = some type ∧
      ∀ value ∈ (graph.value phi).args, graph.Carries value type := by
  have accepts := typed.accepts phi
  unfold Accepts at accepts
  rwa [isPhi] at accepts

theorem Typed.remains_replaceUses {same : ValueId}
    (alike : ∀ type, graph.Carries phi type → graph.Carries same type) :
    graph.Remains program (graph.replaceUses phi same) := by
  obtain ⟨type, isType, -⟩ := typed.exists_type isPhi
  obtain ⟨stays, replaced⟩ := typed.replaceUses isPhi alike
  exact ⟨stays, replaced, fun paired =>
    paired.replaceUses isPhi (alike type (PhiOf.carries ⟨isPhi, isType⟩)).whole⟩

theorem Typed.remains_removeValue : graph.Remains program (graph.removeValue phi) := by
  obtain ⟨stays, gone⟩ := typed.removeValue isPhi
  exact ⟨stays, gone, fun paired => paired.removeValue⟩

end Phis

theorem Typed.carries_choice (typed : graph.Typed program) (isPhi : graph.PhiOf type phi)
    (found : value ∈ graph.choices phi) : graph.Carries value type := by
  obtain ⟨known, isKnown, same⟩ := typed.exists_type isPhi.1
  obtain rfl : known = type := Option.some.inj (isKnown.symm.trans isPhi.2)
  rw [choices, List.mem_eraseDups] at found
  exact same value (List.mem_of_mem_filter found)

theorem Typed.remains_addArg (typed : graph.Typed program) (isPhi : graph.PhiOf type phi)
    (carries : graph.Carries value type) : graph.Remains program (graph.addArg phi value) := by
  obtain ⟨stays, filled⟩ := typed.addArg isPhi.1 isPhi.2 carries
  exact ⟨stays, filled, fun paired => paired.addArg isPhi.1 carries.whole⟩

theorem Typed.carries_resolve (typed : graph.Typed program) (carries : graph.Carries value type) :
    graph.Carries (graph.resolve value) type := by
  have within (steps : Nat) (value : ValueId) (carries : graph.Carries value type) :
      graph.Carries (graph.resolveWithin steps value) type := by
    induction steps generalizing value with
    | zero => exact carries
    | succ steps ih =>
      rw [resolveWithin]
      split
      · rename_i next found
        exact ih next (typed.replaced value next found type carries)
      · exact carries
  exact within _ value carries

end Graph

namespace Graph

theorem applyEdit_removal {graph after : Graph} {value : ValueId}
    (applied : graph.applyEdit { removals := [] ++ [value] } = .ok after) :
    after = { graph.removeValue value with isEditing := false } := by
  unfold applyEdit at applied
  simp only [List.foldlM_nil, List.nil_append, List.foldlM_cons, removeUnused, pure_bind,
    bind_pure] at applied
  split_ifs at applied
  · cases applied
  · cases applied
    rfl

end Graph

namespace Build

open Shader.Graph

variable {program : Program} {graph : Graph} {block : BlockId} {var : VarId} {value phi same : ValueId}
  {type : TypeId}

/-! ## Editing -/

theorem gives_startEdit : Gives startEdit graph fun edit after =>
    edit = {} ∧ after = { graph with isEditing := true } :=
  gives_get_bind (gives_require_bind fun _ => gives_modify_bind (grows_of_values rfl rfl)
    (gives_pure ⟨rfl, rfl⟩))

theorem gives_insertBefore {edit : Edit} {block : BlockId} {operation : Operation} {before : ValueId} :
    Gives (insertBefore edit block operation before) graph fun made after =>
      made = (graph.values.next,
        { edit with inserts := edit.inserts ++ [⟨graph.values.next, block, before⟩] }) ∧
        after = (graph.allocate block operation).2 :=
  gives_get_bind (gives_require_bind fun _ => gives_modifyGet_bind (grows_allocate _ _)
    (gives_pure ⟨rfl, rfl⟩))

theorem gives_replaceUses {old new : ValueId} : Gives (replaceUses old new) graph fun _ after =>
    after = graph.replaceUses old new :=
  gives_get_bind (gives_require_bind fun _ => gives_modify (grows_replaceUses _ _) rfl)

theorem gives_finishEdit {edit : Edit} : Gives (finishEdit edit) graph fun _ after =>
    graph.applyEdit edit = .ok after := by
  refine gives_get_bind (gives_require_bind fun _ => gives_get_bind (gives_accept_bind ?_))
  intro edited applied
  exact gives_modify (grows_applyEdit applied) applied

theorem gives_queueRemoval {edit : Edit} : Gives (queueRemoval edit value) graph fun queued after =>
    after = graph ∧ (queued = edit ∨ queued = { edit with removals := edit.removals ++ [value] }) := by
  refine gives_get_bind (gives_require_bind fun _ => ?_)
  split_ifs
  · exact gives_pure ⟨rfl, .inl rfl⟩
  · exact gives_pure ⟨rfl, .inr rfl⟩

/-! ## Giving phis up -/

/-- A step fetches a value of a type, and its graph remains typed. -/
abbrev Fetches (program : Program) (step : Build ValueId) (graph : Graph) (type : TypeId) : Prop :=
  Gives step graph fun result after => graph.Remains program after ∧ after.Carries result type

theorem Fetches.behind {step : Build ValueId} {middle : Graph} (fetches : Fetches program step middle type)
    (remains : graph.Remains program middle) :
    Gives step middle fun result after => graph.Remains program after ∧ after.Carries result type :=
  Gives.mono fetches fun _ _ ⟨again, carries⟩ => ⟨remains.trans again, carries⟩

theorem gives_exchange_bind {β : Type} {next : Build β} {post : β → Graph → Prop}
    (typed : graph.Typed program) (isPhi : (graph.value phi).opcode = .phi)
    (alike : ∀ type, graph.Carries phi type → graph.Carries same type)
    (continues : ∀ after, graph.Remains program after → Gives next after post) :
    Gives (do
      let replacing ← startEdit
      replaceUses phi same
      finishEdit replacing
      let removing ← startEdit
      let removing ← queueRemoval removing phi
      finishEdit removing
      modify fun graph => graph.modifyValue phi fun value => { value with replacedBy := some same }
      next) graph post := by
  refine Gives.bind gives_startEdit ?_
  rintro _ _ ⟨rfl, rfl⟩
  refine Gives.bind gives_replaceUses ?_
  rintro _ _ rfl
  have opened := typed.remains_isEditing true
  have alikeOpened : ∀ type, ({ graph with isEditing := true } : Graph).Carries phi type →
      ({ graph with isEditing := true } : Graph).Carries same type := alike
  have replacing := opened.trans (opened.typed.remains_replaceUses isPhi alikeOpened)
  generalize ({ graph with isEditing := true } : Graph).replaceUses phi same = middle at replacing
  refine Gives.bind gives_finishEdit ?_
  rintro _ _ ⟨⟩
  have closed := replacing.trans (replacing.typed.remains_isEditing false)
  refine Gives.bind gives_startEdit ?_
  rintro _ _ ⟨rfl, rfl⟩
  have reopened := closed.trans (closed.typed.remains_isEditing true)
  refine Gives.bind gives_queueRemoval ?_
  rintro removing _ ⟨rfl, queued⟩
  refine Gives.bind gives_finishEdit fun _ last applied => ?_
  have removed : graph.Remains program last := by
    rcases queued with rfl | rfl
    · cases applied
      exact reopened.trans (reopened.typed.remains_isEditing false)
    · obtain rfl := Graph.applyEdit_removal applied
      have removing := reopened.trans (reopened.typed.remains_removeValue (reopened.isPhi isPhi))
      exact removing.trans (removing.typed.remains_isEditing false)
  have alikeRemoved (type : TypeId) (carries : last.Carries phi type) : last.Carries same type := by
    have has : graph.HasValue phi := hasValue_of_opcode (by rw [isPhi]; decide)
    exact (alike type ((removed.carries_iff has).1 carries)).grows removed.toGrows
  obtain ⟨stays, noted⟩ := removed.typed.noteReplaced alikeRemoved
  exact gives_modify_bind stays.toGrows (continues _ (removed.trans ⟨stays, noted, fun paired => paired.noteReplaced⟩))

theorem retirePhi_typed {recheck : ValueId → Build ValueId}
    (rechecks : ∀ graph phi type, graph.Typed program → graph.PhiOf type phi →
      Fetches program (recheck phi) graph type)
    (typed : graph.Typed program) (isPhi : graph.PhiOf type phi) (carries : graph.Carries same type) :
    Fetches program (retirePhi recheck phi same) graph type := by
  have alike (other : TypeId) (isOther : graph.Carries phi other) : graph.Carries same other := by
    obtain rfl : type = other := Option.some.inj (isPhi.2.symm.trans isOther.1)
    exact carries
  refine gives_get_bind (gives_exchange_bind typed isPhi.1 alike fun between exchanged => ?_)
  -- the phis that used it are still phis when their turn comes
  have revisit : Gives ((graph.phiUsers phi).forM fun user => do
      unless ((← get).value user).removed do
        let _ ← recheck user) between fun _ after => graph.Remains program after := by
    refine Gives.mono (gives_forM (fun users after =>
      graph.Remains program after ∧ ∀ user ∈ users, (graph.value user).opcode = .phi)
      ⟨exchanged, fun user found => ?_⟩ ?_) fun _ _ holds => holds.1
    · simpa [Graph.isPhi] using (List.mem_filter.1 found).2
    · rintro user rest middle ⟨remains, phis⟩
      have others (other : ValueId) (found : other ∈ rest) : (graph.value other).opcode = .phi :=
        phis other (List.mem_cons_of_mem _ found)
      refine gives_get_bind ?_
      split_ifs
      · exact gives_pure ⟨remains, others⟩
      · have isUser := remains.isPhi (phis user List.mem_cons_self)
        obtain ⟨userType, isUserType, -⟩ := remains.typed.exists_type isUser
        refine Gives.bind (rechecks middle user userType remains.typed ⟨isUser, isUserType⟩) ?_
        rintro _ after ⟨again, -⟩
        exact gives_pure ⟨remains.trans again, others⟩
  refine Gives.bind revisit fun _ after remains => ?_
  refine gives_get_bind (gives_require_bind fun _ => gives_pure ⟨remains, ?_⟩)
  exact remains.typed.carries_resolve (carries.grows remains.toGrows)

theorem removePhiWithin_typed (depth : Nat) (graph : Graph) (phi : ValueId) (type : TypeId)
    (typed : graph.Typed program) (isPhi : graph.PhiOf type phi) :
    Fetches program (removePhiWithin depth phi) graph type := by
  induction depth generalizing graph phi type with
  | zero => exact gives_fail
  | succ depth ih =>
    rw [removePhiWithin]
    refine gives_watched (gives_get_bind ?_)
    split
    · -- without any choice, an undefined value of the type is made
      have undefined : Fetches program (undefinedLike phi) graph type := by
        refine gives_get_bind (Gives.mono (gives_makeValue (by simp)) ?_)
        rintro _ after ⟨rfl, adds⟩
        exact ⟨adds.remains typed ⟨.inl (by simp), rfl, .of_plain rfl⟩ trivial rfl, adds.carries isPhi.2 rfl⟩
      refine Gives.bind undefined fun same after ⟨remains, carries⟩ => ?_
      exact Fetches.behind (retirePhi_typed ih remains.typed (remains.phiOf isPhi) carries) remains
    · rename_i same single
      exact retirePhi_typed ih typed isPhi (typed.carries_choice isPhi (by simp [single]))
    · exact gives_pure ⟨.refl typed, isPhi.carries⟩

theorem removePhi_typed (typed : graph.Typed program) (isPhi : graph.PhiOf type phi) :
    Fetches program (removePhi phi) graph type :=
  gives_get_bind (removePhiWithin_typed _ graph phi type typed isPhi)

/-! ## Variables -/

theorem writeVar_typed (typed : graph.Typed program)
    (carries : graph.Carries value (program.var var).type) :
    Gives (writeVar block var value) graph fun _ after => graph.Remains program after :=
  gives_modify (typed.remains_writeVar carries).toGrows (typed.remains_writeVar carries)

theorem emptyPhi_typed (typed : graph.Typed program) :
    Gives (emptyPhi program block var) graph fun phi after => graph.Remains program after ∧
      after.PhiOf (program.var var).type phi := by
  refine Gives.mono (gives_makeValue (by simp)) ?_
  rintro _ after ⟨rfl, adds⟩
  refine ⟨adds.remains typed ⟨.inl (by simp), rfl, .of_plain rfl⟩ ?_ rfl, ?_⟩
  · exact ⟨_, rfl, fun arg used => absurd used List.not_mem_nil⟩
  · rw [PhiOf, adds.new]
    exact ⟨rfl, rfl⟩

theorem fillPhiWith_typed {read : BlockId → Build ValueId}
    (reads : ∀ graph block, graph.Typed program → Fetches program (read block) graph type)
    (typed : graph.Typed program) (isPhi : graph.PhiOf type phi) :
    Fetches program (fillPhiWith read phi) graph type := by
  refine gives_get_bind (gives_get_bind ?_)
  refine Gives.bind (gives_forM (fun _ after => graph.Remains program after) (.refl typed) ?_) ?_
  · intro pred rest middle remains
    refine Gives.bind (reads middle pred remains.typed) fun value after ⟨again, carries⟩ => ?_
    have both := remains.trans again
    exact gives_watched (gives_modify (grows_addArg _ _) (both.trans (both.typed.remains_addArg
      (both.phiOf isPhi) carries)))
  · intro _ after remains
    refine gives_get_bind (gives_require_bind fun _ => ?_)
    exact Fetches.behind (removePhi_typed remains.typed (remains.phiOf isPhi)) remains

theorem searchVarWith_typed {read : BlockId → Build ValueId}
    (reads : ∀ graph block, graph.Typed program → Fetches program (read block) graph (program.var var).type)
    (typed : graph.Typed program) :
    Fetches program (searchVarWith program read block var) graph (program.var var).type := by
  refine gives_get_bind ?_
  dsimp only
  split_ifs
  · refine Gives.bind (emptyPhi_typed typed) ?_
    rintro phi after ⟨remains, isPhi⟩
    refine gives_modify_bind (grows_modifyBlock _ _) (gives_pure ⟨remains.trans ?_, isPhi.carries⟩)
    refine remains.typed.remains_modifyBlock block _ (fun _ _ found => .inl found)
      (fun other waiting found => ?_) rfl
    rcases List.mem_append.1 found with found | found
    · exact .inl found
    · cases List.mem_singleton.1 found
      exact .inr isPhi
  · split
    · refine Gives.mono (gives_makeValue (by simp)) ?_
      rintro _ after ⟨rfl, adds⟩
      exact ⟨adds.remains typed ⟨.inl (by simp), rfl, .of_plain rfl⟩ trivial rfl, adds.carries rfl rfl⟩
    · exact reads graph _ typed
    · refine Gives.bind (emptyPhi_typed typed) ?_
      rintro phi after ⟨remains, isPhi⟩
      refine Gives.bind (writeVar_typed remains.typed isPhi.carries) fun _ middle noted => ?_
      exact Fetches.behind (fillPhiWith_typed reads noted.typed (noted.phiOf isPhi)) (remains.trans noted)

theorem readVarWithin_typed (depth : Nat) (graph : Graph) (block : BlockId)
    (typed : graph.Typed program) :
    Fetches program (readVarWithin program var depth block) graph (program.var var).type := by
  induction depth generalizing graph block with
  | zero => exact gives_fail
  | succ depth ih =>
    rw [readVarWithin]
    refine gives_watched (gives_get_bind ?_)
    split
    · rename_i value found
      exact gives_pure ⟨.refl typed, typed.bound block var value found⟩
    · refine Gives.bind (searchVarWith_typed ih typed) ?_
      rintro value after ⟨remains, carries⟩
      refine Gives.bind (writeVar_typed remains.typed carries) fun _ last noted => ?_
      exact gives_pure ⟨remains.trans noted, carries.grows noted.toGrows⟩

theorem readVar_typed (typed : graph.Typed program) :
    Fetches program (readVar program block var) graph (program.var var).type :=
  gives_get_bind (readVarWithin_typed _ graph block typed)

theorem sealBlock_typed (typed : graph.Typed program) :
    Gives (sealBlock program block) graph fun _ after => graph.Remains program after := by
  refine gives_watched (gives_get_bind (gives_require_bind fun _ => ?_))
  have clearing := typed.remains_modifyBlock block (fun node => { node with incomplete := [] })
    (fun _ _ found => .inl found) (fun _ _ found => absurd found List.not_mem_nil) rfl
  refine gives_modify_bind clearing.toGrows (Gives.bind (gives_forM (fun phis after =>
    graph.Remains program after ∧ ∀ var phi, (var, phi) ∈ phis → graph.PhiOf (program.var var).type phi)
    ⟨clearing, fun var phi => typed.waiting block var phi⟩ ?_) ?_)
  · rintro ⟨var, phi⟩ rest middle ⟨remains, phis⟩
    have isPhi := phis var phi List.mem_cons_self
    refine Gives.bind (gives_get_bind (fillPhiWith_typed (readVarWithin_typed _) remains.typed
      (remains.phiOf isPhi))) ?_
    rintro _ after ⟨again, -⟩
    exact gives_pure ⟨remains.trans again, fun var phi found =>
      phis var phi (List.mem_cons_of_mem _ found)⟩
  · rintro _ after ⟨remains, -⟩
    exact gives_modify (grows_modifyBlock _ _) (remains.trans (remains.typed.remains_modifyBlock block
      (fun node => { node with isSealed := true }) (fun _ _ found => .inl found)
      (fun _ _ found => .inl found) rfl))

end Build

end Shader
