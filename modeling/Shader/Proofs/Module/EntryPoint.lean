import Shader.Proofs.Lowering.Callees
import Shader.Proofs.Module.Arrangement
import Shader.Proofs.Module.Computable

/-! # Replacing the arguments of entry points

The graph of an entry point stays arranged and computable when its arguments are replaced, so its function
is written without missing an instruction. -/

set_option mvcgen.warning false

namespace Shader

/-! ## What replacing does -/

namespace Graph

variable {program : Program} {graph after : Graph} {value old new : ValueId} {var : VarId}

def IsArgument (program : Program) (graph : Graph) (value : ValueId) (var : VarId) : Prop :=
  (graph.value value).opcode = .functionArg ∧ ∃ index, (graph.value value).payload = .argument index ∧
    (program.function graph.function).arguments[index]? = some var

theorem IsArgument.grows (isArgument : graph.IsArgument program value var) (grows : graph.Grows after) :
    after.IsArgument program value var := by
  have has : graph.HasValue value := IsReplaced.hasValue (.inl isArgument.1)
  rw [IsArgument, grows.opcode has, grows.payload has, grows.function]
  exact isArgument

def AreInputs (graph : Graph) (inputs : List ValueId) (members : List Member) : Prop :=
  List.Forall₂ (fun input member => (graph.value input).type = some member.type ∧
    ∃ index, (graph.value input).payload = .input index) inputs members

theorem AreInputs.grows {inputs : List ValueId} {members : List Member}
    (are : graph.AreInputs inputs members) (grows : graph.Grows after) :
    after.AreInputs inputs members := by
  refine are.imp fun input member ⟨isType, payload⟩ => ?_
  have has := hasValue_of_type isType
  rw [grows.sameType has, grows.payload has]
  exact ⟨isType, payload⟩

/-- A value of the interface is read in place of an argument, or of a member of one. -/
inductive Stands (program : Program) (graph : Graph) (old new : ValueId) : Prop
  | buffer {var : VarId} (argument : graph.IsArgument program old var)
      (type : (graph.value new).type = program.pointee? (program.var var).type)
      (payload : (graph.value new).payload = .var var)
  | whole {var : VarId} (argument : graph.IsArgument program old var)
      (type : (graph.value new).type = some (program.var var).type)
      (payload : (graph.value new).payload = .none)
  | part {base : ValueId} {index : Nat} {var : VarId} {inputs : List ValueId}
      (argument : graph.IsArgument program base var) (read : graph.memberRead? base old = some index)
      (are : graph.AreInputs inputs (program.members (program.var var).type))
      (input : inputs[index]? = some new)

theorem of_memberRead {base : ValueId} {index : Nat} (read : graph.memberRead? base value = some index) :
    (graph.value value).opcode = .extractValue ∧ ∃ marker, (graph.value value).args = [base, marker] ∧
      (graph.value marker).payload = .member index := by
  unfold memberRead? at read
  dsimp only at read
  split at read
  · rename_i opcode args
    split_ifs at read with isBase
    split at read
    · rename_i payload
      cases read
      exact ⟨opcode, _, isBase ▸ args, payload⟩
    · cases read
  · cases read

theorem Stands.cases (stands : graph.Stands program old new) : (graph.value old).opcode = .functionArg ∨
      (graph.value old).opcode = .extractValue ∧ (graph.value old).args ≠ [] := by
  cases stands with
  | buffer argument => exact .inl argument.1
  | whole argument => exact .inl argument.1
  | part _ read =>
    obtain ⟨isRead, marker, args, -⟩ := of_memberRead read
    exact .inr ⟨isRead, by simp [args]⟩

theorem Stands.isReplaced (stands : graph.Stands program old new) : graph.IsReplaced old :=
  stands.cases.imp_right And.left

theorem Stands.standsFor (stands : graph.Stands program old new) (has : graph.HasValue new)
    (computable : graph.Computable program) : StandsFor program graph graph old new := by
  have typed {value : ValueId} {var : VarId} (argument : graph.IsArgument program value var) :
      (graph.value value).type = some (program.var var).type :=
    computable.arguments value _ var argument.1 argument.2.choose_spec.1 argument.2.choose_spec.2
  cases stands with
  | buffer argument type payload =>
    refine ⟨has, ?_, fun index isMember => by rw [payload] at isMember; cases isMember⟩
    rw [type, typed argument]
    cases target : program.pointee? _ with
    | none => exact .inr (.inl rfl)
    | some pointee => exact .inr (.inr ⟨_, rfl, Program.isPointer_of_pointee target⟩)
  | whole argument type payload =>
    refine ⟨has, .inl (type.trans (typed argument).symm), fun index isMember => ?_⟩
    rw [payload] at isMember
    cases isMember
  | @part base index var inputs argument read are input =>
    obtain ⟨isRead, marker, args, payload⟩ := of_memberRead read
    obtain ⟨member, isMember, type⟩ :=
      computable.reads old base marker index _ isRead args payload (typed argument)
    obtain ⟨inside, rfl⟩ := List.getElem?_eq_some_iff.1 input
    obtain ⟨within, rfl⟩ := List.getElem?_eq_some_iff.1 isMember
    obtain ⟨sameType, _, isInput⟩ := (List.forall₂_iff_get.1 are).2 index inside within
    refine ⟨has, .inl (sameType.trans type.symm), fun other isOther => ?_⟩
    exact absurd (isInput.symm.trans isOther) (by simp)

theorem Computable.applyEdit {edit : Edit} (computable : graph.Computable program)
    (runs : graph.applyEdit edit = .ok after) : after.Computable program := by
  obtain ⟨placed, last, placing, removing, rfl⟩ := applyEdit_eq_ok runs
  have inserted : placed.Computable program :=
    foldlM_keeps (·.Computable program) computable (fun _ _ _ _ computable runs =>
      (insert_eq_ok runs).2 ▸ computable.of_values rfl rfl) placing
  have removed : last.Computable program :=
    foldlM_keeps (·.Computable program) inserted (fun value _ _ _ computable runs =>
      (removeUnused_eq_ok runs).2 ▸ computable.removeValue value) removing
  exact removed.of_values rfl rfl

end Graph

namespace Edit

open Shader.Graph

variable {program : Program} {start graph after : Graph} {edit next : Edit}

/-- The states of an edit that replaces arguments. -/
inductive Replaces (program : Program) (start : Graph) : Graph → Edit → Prop
  | opened {graph : Graph} {edit : Edit}
      (runs : Build.startEdit.under .quiet start = .ok edit graph) : Replaces program start graph edit
  | inserted {graph after : Graph} {edit next : Edit} {operation : Operation} {before value : ValueId}
      (replaces : Replaces program start graph edit)
      (isInterface : operation.opcode.isInterface = true)
      (waits : ∀ arg ∈ operation.args, arg ∈ edit.waiting)
      (anchor : (graph.value before).opcode = .functionArg)
      (runs : (Build.insertBefore edit graph.entry operation before).under .quiet graph =
        .ok (value, next) after) : Replaces program start after next
  | replaced {graph after : Graph} {edit : Edit} {old new : ValueId}
      (replaces : Replaces program start graph edit) (stands : graph.Stands program old new)
      (listed : (graph.value old).opcode = .functionArg → old ∈ start.entryArguments)
      (waits : new ∈ edit.waiting)
      (runs : (Build.replaceUses old new).under .quiet graph = .ok () after) :
      Replaces program start after edit
  | removed {graph after : Graph} {edit next : Edit} {value : ValueId}
      (replaces : Replaces program start graph edit) (isReplaced : graph.IsReplaced value)
      (runs : (Build.queueRemoval edit value).under .quiet graph = .ok next after) :
      Replaces program start after next

theorem Replaces.computable (replaces : Replaces program start graph edit)
    (computable : start.Computable program) : edit.Aims graph ∧ graph.Computable program := by
  induction replaces with
  | opened runs =>
    obtain ⟨rfl, rfl⟩ := (Build.gives_startEdit _ _ runs).2
    exact ⟨⟨by simp, by simp [waiting], by simp⟩, computable.of_values rfl rfl⟩
  | @inserted graph after edit next operation before value _ isInterface waits anchor runs ih =>
    obtain ⟨aims, computable⟩ := ih
    obtain ⟨⟨⟩, rfl⟩ := (Build.gives_insertBefore _ _ runs).2
    have has : ∀ arg ∈ operation.args, graph.HasValue arg := fun arg used =>
      hasValue_of_isInterface (aims.kinds arg (waits arg used))
    have made := value_allocate graph.entry operation has graph.values.next
    have entry := (@frames_allocate graph graph.entry operation).entry
    have unchecked : operation.opcode.isChecked = false ∧ operation.opcode ≠ .functionArg := by
      revert isInterface
      cases operation.opcode <;> decide
    obtain ⟨grows, computable⟩ : graph.Grows (graph.allocate graph.entry operation).2 ∧ _ :=
      computable.allocate has unchecked.1 unchecked.2
    have kept := aims.grows grows entry
    refine ⟨⟨fun pending waits => ?_, fun value waits => ?_, kept.removals⟩, computable⟩
    · rcases List.mem_append.1 waits with waits | waits
      · exact kept.anchors pending waits
      · rw [List.mem_singleton.1 waits]
        exact ⟨entry.symm, (grows.opcode (IsReplaced.hasValue (.inl anchor))).trans anchor⟩
    · rw [waiting, List.map_append, List.mem_append, List.map_singleton, List.mem_singleton] at waits
      rcases waits with waits | rfl
      · exact kept.kinds value waits
      · rw [made, if_pos rfl]
        exact isInterface
  | replaced _ stands _ waits runs ih =>
    obtain ⟨aims, computable⟩ := ih
    obtain rfl := (Build.gives_replaceUses _ _ runs).2
    have has := hasValue_of_isInterface (aims.kinds _ waits)
    obtain ⟨grows, after⟩ := computable.replaceUses (stands.standsFor has computable)
    exact ⟨aims.grows grows (frames_replaceUses _ _).entry, after⟩
  | removed _ isReplaced runs ih =>
    obtain ⟨aims, computable⟩ := ih
    obtain ⟨rfl, rfl | rfl⟩ := (Build.gives_queueRemoval _ _ runs).2
    · exact ⟨aims, computable⟩
    · refine ⟨⟨aims.anchors, aims.kinds, fun other queued => ?_⟩, computable⟩
      rcases List.mem_append.1 queued with queued | queued
      · exact aims.removals other queued
      · rw [List.mem_singleton.1 queued]
        exact isReplaced

theorem Replaces.callsOnly {allowed : FunctionId → Prop} (replaces : Replaces program start graph edit)
    (calls : start.CallsOnly allowed) : graph.CallsOnly allowed := by
  induction replaces with
  | opened runs =>
    obtain ⟨rfl, rfl⟩ := (Build.gives_startEdit _ _ runs).2
    exact calls
  | inserted _ isInterface _ _ runs ih =>
    obtain ⟨⟨⟩, rfl⟩ := (Build.gives_insertBefore _ _ runs).2
    refine ih.allocate _ fun _ isCall => ?_
    rw [isCall] at isInterface
    cases isInterface
  | replaced _ _ _ _ runs ih =>
    obtain rfl := (Build.gives_replaceUses _ _ runs).2
    exact ih.same (rewrites_replaceUses _ _).nature
  | removed _ _ runs ih =>
    obtain ⟨rfl, -⟩ := (Build.gives_queueRemoval _ _ runs).2
    exact ih

theorem Replaces.reaches (replaces : Replaces program start graph edit)
    (computable : start.Computable program) (tidy : start.Tidy) (served : start.Served)
    (live : ∀ value ∈ start.entryArguments, start.IsLive value) :
    (∃ log, Reaches start log graph edit) ∧ graph.Served := by
  induction replaces with
  | opened runs =>
    refine ⟨⟨[], .opened runs⟩, ?_⟩
    obtain ⟨rfl, rfl⟩ := (Build.gives_startEdit _ _ runs).2
    exact ⟨served.results, fun user arg used isPart =>
      ⟨(served.addresses user arg used isPart).access, (served.addresses user arg used isPart).behind⟩,
      served.proper⟩
  | inserted replaces isInterface waits anchor runs ih =>
    obtain ⟨⟨log, reaches⟩, served⟩ := ih
    have prepared := Prepared.of_reaches tidy reaches
    have aims := (replaces.computable computable).1
    refine ⟨⟨_, .inserted reaches (fun arg used => ?_) runs⟩, ?_⟩
    · obtain ⟨pending, isPending, rfl⟩ := List.mem_map.1 (waits arg used)
      exact (prepared.waits pending isPending).1
    · obtain ⟨⟨⟩, rfl⟩ := (Build.gives_insertBefore _ _ runs).2
      exact served.allocate prepared.edges isInterface fun arg used => aims.kinds arg (waits arg used)
  | @replaced graph after edit old new replaces stands listed waits runs ih =>
    obtain ⟨⟨log, reaches⟩, served⟩ := ih
    have prepared := Prepared.of_reaches tidy reaches
    have isReplaced := stands.isReplaced
    have isInterface := (replaces.computable computable).1.kinds new waits
    obtain ⟨pending, isPending, rfl⟩ := List.mem_map.1 waits
    have isNew := (prepared.waits pending isPending).1
    have differs : old ≠ pending.value := by
      rintro rfl
      rcases isReplaced with opcode | opcode <;> rw [opcode] at isInterface <;> cases isInterface
    have isLive : (graph.value old).removed = false := by
      rcases stands.cases with isArgument | ⟨-, args⟩
      · have isLive := live old (listed isArgument)
        exact (congrArg (fun value => value.removed) (prepared.shells old isLive.1).2).trans isLive.2
      · by_contra gone
        exact args (prepared.gone old (by simpa using gone)).1
    refine ⟨⟨_, .replaced reaches differs ⟨isReplaced.hasValue, isLive⟩ isNew runs⟩, ?_⟩
    obtain rfl := (Build.gives_replaceUses _ _ runs).2
    exact served.replaceUses prepared.edges isReplaced.hasValue isNew.1 differs
      (Opcode.of_isInterface isInterface).1
  | removed _ isReplaced runs ih =>
    obtain ⟨⟨log, reaches⟩, served⟩ := ih
    refine ⟨⟨_, .removed reaches isReplaced.hasValue runs⟩, ?_⟩
    obtain ⟨rfl, -⟩ := (Build.gives_queueRemoval _ _ runs).2
    exact served

end Edit

namespace Build

open Shader.Graph

variable {α β : Type} {program : Program} {start graph : Graph} {edit : Edit} {operation : Operation}
  {value old new : ValueId} {type : TypeId} {var : VarId}

/-! ## Replacing step by step -/

def Replacing (program : Program) (start : Graph) (step : Build α) (graph : Graph) (edited : α → Edit)
    (good : α → Graph → Prop) : Prop :=
  Gives step graph fun result after =>
    graph.Grows after ∧ Edit.Replaces program start after (edited result) ∧ good result after

theorem Replacing.bind {step : Build α} {next : α → Build β} {edited : α → Edit} {last : β → Edit}
    {middle : α → Graph → Prop} {good : β → Graph → Prop}
    (first : Replacing program start step graph edited middle)
    (second : ∀ result after, graph.Grows after → Edit.Replaces program start after (edited result) →
      middle result after → Replacing program start (next result) after last good) :
    Replacing program start (step >>= next) graph last good := by
  refine Gives.bind first ?_
  rintro result after ⟨grows, replaces, holds⟩
  refine Gives.mono (second result after grows replaces holds) ?_
  rintro other final ⟨again, replaces, holds⟩
  exact ⟨grows.trans again, replaces, holds⟩

theorem Replacing.mono {step : Build α} {edited : α → Edit} {good better : α → Graph → Prop}
    (replacing : Replacing program start step graph edited good)
    (implies : ∀ result after, good result after → better result after) :
    Replacing program start step graph edited better :=
  Gives.mono replacing fun result after ⟨grows, replaces, holds⟩ =>
    ⟨grows, replaces, implies result after holds⟩

theorem replacing_pure {result : α} {edited : α → Edit} {good : α → Graph → Prop}
    (replaces : Edit.Replaces program start graph (edited result)) (holds : good result graph) :
    Replacing program start (pure result) graph edited good :=
  gives_pure ⟨.refl, replaces, holds⟩

section Replacing

variable (replaces : Edit.Replaces program start graph edit)

include replaces

theorem insertBefore_replacing (anchor : (graph.value value).opcode = .functionArg)
    (isInterface : operation.opcode.isInterface = true)
    (waits : ∀ arg ∈ operation.args, arg ∈ edit.waiting)
    (has : ∀ arg ∈ operation.args, graph.HasValue arg) :
    Replacing program start (insertBefore edit graph.entry operation value) graph Prod.snd
      fun made after => made.2.waiting = edit.waiting ++ [made.1] ∧
        after.value made.1 = { operation with block := graph.entry } := by
  refine gives_insertBefore.weaken ?_
  rintro ⟨made, next⟩ after runs grows ⟨⟨⟩, rfl⟩
  refine ⟨grows, replaces.inserted isInterface waits anchor runs, by simp [Edit.waiting], ?_⟩
  rw [value_allocate _ _ has, if_pos rfl]

theorem queueRemoval_replacing (isReplaced : graph.IsReplaced value) :
    Replacing program start (queueRemoval edit value) graph id fun result _ =>
      result.waiting = edit.waiting := by
  refine gives_queueRemoval.weaken ?_
  rintro next after runs grows ⟨rfl, rfl | rfl⟩
  · exact ⟨grows, replaces.removed isReplaced runs, rfl⟩
  · exact ⟨grows, replaces.removed isReplaced runs, rfl⟩

theorem replaceUses_replacing (stands : graph.Stands program old new)
    (listed : (graph.value old).opcode = .functionArg → old ∈ start.entryArguments)
    (waits : new ∈ edit.waiting) :
    Replacing program start (replaceUses old new) graph (fun _ => edit) fun _ _ => True := by
  refine gives_replaceUses.weaken ?_
  rintro _ after runs grows -
  exact ⟨grows, replaces.replaced stands listed waits runs, trivial⟩

theorem replaceBuffer_replacing (argument : graph.IsArgument program value var)
    (listed : value ∈ start.entryArguments) :
    Replacing program start (replaceBuffer program edit value var) graph id fun _ _ => True := by
  refine gives_get_bind ?_
  refine Replacing.bind (insertBefore_replacing replaces argument.1 rfl (by simp) (by simp)) ?_
  rintro ⟨pointer, edit⟩ after grows replaces ⟨waiting, isPointer⟩
  dsimp only at waiting isPointer
  have stands : after.Stands program value pointer :=
    .buffer (argument.grows grows) (by rw [isPointer]) (by rw [isPointer])
  refine Replacing.bind (replaceUses_replacing replaces stands (fun _ => listed) (by simp [waiting])) ?_
  intro _ last again replaces _
  exact (queueRemoval_replacing replaces (stands.isReplaced.grows again)).mono fun _ _ _ => trivial

theorem insertInputs_replacing {index : Nat} {members : List Member}
    (argument : graph.IsArgument program value var) :
    Replacing program start (insertInputs edit value index members) graph Prod.snd fun made after =>
      after.AreInputs made.1 members ∧ edit.waiting ⊆ made.2.waiting ∧ made.1 ⊆ made.2.waiting := by
  induction members generalizing graph edit index with
  | nil => exact replacing_pure replaces ⟨.nil, List.Subset.refl _, List.nil_subset _⟩
  | cons member rest ih =>
    refine gives_get_bind ?_
    refine Replacing.bind (insertBefore_replacing replaces argument.1 rfl (by simp) (by simp)) ?_
    rintro ⟨input, edit⟩ after grows replaces ⟨waiting, isInput⟩
    dsimp only at waiting isInput
    refine Replacing.bind (ih replaces (argument.grows grows)) ?_
    rintro ⟨inputs, last⟩ final again replaces ⟨are, keeps, wait⟩
    have has : after.HasValue input := hasValue_of_type (by rw [isInput])
    rw [waiting] at keeps
    refine replacing_pure replaces ⟨.cons ?_ are, List.Subset.trans (List.subset_append_left _ _) keeps,
      List.cons_subset.2 ⟨keeps (by simp), wait⟩⟩
    rw [again.sameType has, again.payload has, isInput]
    exact ⟨rfl, index, rfl⟩

theorem forwardReads_replacing {inputs users : List ValueId}
    (argument : graph.IsArgument program value var)
    (are : graph.AreInputs inputs (program.members (program.var var).type))
    (wait : inputs ⊆ edit.waiting) :
    Replacing program start (forwardReads value inputs edit users) graph Prod.snd fun made _ =>
      made.2.waiting = edit.waiting := by
  induction users generalizing graph edit with
  | nil => exact replacing_pure replaces rfl
  | cons user rest ih =>
    refine gives_get_bind ?_
    dsimp only
    split
    · exact ih replaces argument are wait
    · rename_i input forwarded
      obtain ⟨index, read, found⟩ := Option.bind_eq_some_iff.1 forwarded
      have stands : graph.Stands program user input := .part argument read are found
      have noArgument (isArgument : (graph.value user).opcode = .functionArg) :
          user ∈ start.entryArguments := by
        rw [(of_memberRead read).1] at isArgument
        cases isArgument
      refine Replacing.bind (replaceUses_replacing replaces stands noArgument
        (wait (List.mem_of_getElem? found))) ?_
      intro _ middle grows replaces _
      refine Replacing.bind (queueRemoval_replacing replaces (stands.isReplaced.grows grows)) ?_
      intro next later again replaces same
      have both := grows.trans again
      refine Replacing.bind (ih replaces (argument.grows both) (are.grows both) (same ▸ wait)) ?_
      rintro ⟨_, last⟩ _ _ replaces waiting
      exact replacing_pure replaces (waiting.trans same)

theorem replaceStageIn_replacing (argument : graph.IsArgument program value var)
    (listed : value ∈ start.entryArguments) :
    Replacing program start (replaceStageIn program edit value (program.var var).type) graph id
      fun _ _ => True := by
  refine Replacing.bind (insertInputs_replacing replaces argument) ?_
  rintro ⟨inputs, edit⟩ made grows replaces ⟨are, -, wait⟩
  refine gives_get_bind ?_
  refine Replacing.bind (forwardReads_replacing replaces (argument.grows grows) are wait) ?_
  rintro ⟨forwarded, next⟩ after again replaces same
  dsimp only at same
  refine gives_get_bind ?_
  have argument := argument.grows (grows.trans again)
  have isReplaced : after.IsReplaced value := .inl argument.1
  split_ifs
  · exact (queueRemoval_replacing replaces isReplaced).mono fun _ _ _ => trivial
  · refine gives_get_bind ?_
    have has : ∀ input ∈ inputs, after.HasValue input := by
      have each : List.Forall₂ (fun input _ => after.HasValue input ∧ True) inputs _ :=
        (are.grows again).imp fun _ _ ⟨isType, _⟩ => ⟨hasValue_of_type isType, trivial⟩
      exact ((List.forall₂_and_left _ _).1 each).1
    refine Replacing.bind (insertBefore_replacing replaces argument.1 rfl
      (fun input found => same ▸ wait found) has) ?_
    rintro ⟨rebuilt, edit⟩ last final replaces ⟨waiting, isRebuilt⟩
    dsimp only at waiting isRebuilt
    have stands : last.Stands program value rebuilt :=
      .whole (argument.grows final) (by rw [isRebuilt]) (by rw [isRebuilt])
    refine Replacing.bind (replaceUses_replacing replaces stands (fun _ => listed) (by simp [waiting])) ?_
    intro _ _ grows replaces _
    exact (queueRemoval_replacing replaces (stands.isReplaced.grows grows)).mono fun _ _ _ => trivial

theorem replaceArgument_replacing {interface : EntryInterface}
    (isArgument : (graph.value value).opcode = .functionArg) (listed : value ∈ start.entryArguments) :
    Replacing program start
      (replaceArgument program (program.function graph.function) interface edit value) graph id
      fun _ _ => True := by
  refine gives_get_bind ?_
  split
  · rename_i index payload
    split
    · exact gives_refuse
    · rename_i var found
      have argument : graph.IsArgument program value var := ⟨isArgument, index, payload, found⟩
      dsimp only
      split_ifs
      · exact replaceBuffer_replacing replaces argument listed
      · exact replaceStageIn_replacing replaces argument listed
      · exact gives_refuse
  · exact gives_refuse

end Replacing

/-- Replacing the arguments of an entry point keeps its graph computable, and what it calls. It also keeps
it arranged, if they are live. -/
theorem replaceArguments_gives {interface : EntryInterface} (computable : graph.Computable program) :
    Gives (replaceArguments program interface) graph fun _ after =>
      graph.Grows after ∧ after.Computable program ∧
        (∀ allowed, graph.CallsOnly allowed → after.CallsOnly allowed) ∧
        ((∀ value ∈ graph.entryArguments, graph.IsLive value) → graph.Arranged → after.Arranged) := by
  refine gives_get_bind ?_
  have opens : Replacing program graph startEdit graph id fun _ _ => True :=
    gives_startEdit.weaken fun _ _ runs grows _ => ⟨grows, .opened runs, trivial⟩
  refine Gives.bind opens ?_
  rintro edit begun ⟨grows, replaces, -⟩
  have folds : Gives (graph.entryArguments.foldlM
      (replaceArgument program (program.function graph.function) interface) edit) begun
      fun result after => graph.Grows after ∧ Edit.Replaces program graph after result := by
    refine Gives.mono (gives_foldlM (fun rest edit after => graph.Grows after ∧
      Edit.Replaces program graph after edit ∧ rest ⊆ graph.entryArguments)
      ⟨grows, replaces, List.Subset.refl _⟩ ?_) fun _ _ ⟨grows, replaces, _⟩ => ⟨grows, replaces⟩
    rintro value rest edit middle ⟨grows, replaces, inside⟩
    have found := inside List.mem_cons_self
    have isArgument : (graph.value value).opcode = .functionArg := by
      simpa using (List.mem_filter.1 found).2
    have has : graph.HasValue value := IsReplaced.hasValue (.inl isArgument)
    rw [← grows.function]
    refine Gives.mono (replaceArgument_replacing replaces ((grows.opcode has).trans isArgument) found) ?_
    rintro _ after ⟨again, replaces, -⟩
    exact ⟨grows.trans again, replaces, fun _ more => inside (List.mem_cons_of_mem _ more)⟩
  refine Gives.bind folds ?_
  rintro edit replaced ⟨grows, replaces⟩
  refine Gives.mono gives_finishEdit fun _ after applied => ?_
  obtain ⟨aims, isComputable⟩ := replaces.computable computable
  refine ⟨grows.trans (grows_applyEdit applied), isComputable.applyEdit applied,
    fun allowed calls => (replaces.callsOnly calls).applyEdit applied, fun live arranged => ?_⟩
  obtain ⟨⟨log, reaches⟩, served⟩ := replaces.reaches computable arranged.tidy arranged.toServed live
  exact arranged.applyEdit reaches aims served applied

/-! ## How replacing fails -/

section Failing

open Std.Do

attribute [local spec] fail refuse require accept allocate insertBefore replaceUses queueRemoval startEdit finishEdit
  replaceBuffer replaceStageIn replaceArgument

@[spec]
theorem chooses_insertInputs (edit : Edit) (value : ValueId) (index : Nat) (members : List Member) :
    Chooses (insertInputs edit value index members) := by
  induction members generalizing edit index with
  | nil =>
    unfold insertInputs
    mvcgen
  | cons member rest again =>
    unfold insertInputs
    mvcgen [again]

@[spec]
theorem chooses_forwardReads (value : ValueId) (inputs : List ValueId) (edit : Edit) (users : List ValueId) :
    Chooses (forwardReads value inputs edit users) := by
  induction users generalizing edit with
  | nil =>
    unfold forwardReads
    mvcgen
  | cons user rest again =>
    unfold forwardReads
    mvcgen [again]

theorem instructed_replaceArguments (interface : EntryInterface) :
    Instructed (replaceArguments program interface).run := by
  have each (function : Function) (edit : Edit) (value : ValueId) :
      Chooses (replaceArgument program function interface edit value) := by
    mvcgen
  have all (function : Function) (edit : Edit) (arguments : List ValueId) :
      Chooses (arguments.foldlM (replaceArgument program function interface) edit) :=
    triple_foldlM (each function) edit
  have chooses : Chooses (replaceArguments program interface) := by
    unfold replaceArguments
    mvcgen [all, -Spec.foldlM_list]
  exact instructed_iff.2 chooses

end Failing

end Build

/-! ## Functions -/

variable {program : Program} {graph : Graph}

theorem instructed_functionBody {interface : Option EntryInterface}
    (computable : graph.Computable program) :
    Instructed (Emit.functionBody program graph interface) := by
  intro emitter failure after runs
  unfold Emit.functionBody at runs
  split at runs
  · cases runs
  · rename_i failed
    cases runs
    exact instructed_iff.2 (Write.chooses_function computable) _ _ _ failed

theorem lacksInstruction_emitFunction {emitter : Emitter} {failure : Failure}
    {after : Emitter × Graph} (computable : graph.Computable program)
    (runs : emitFunction program (emitter, graph) = .error failure after) :
    failure.lacksInstruction = false := by
  -- the state is read before anything else
  change (if (program.function graph.function).isEntryPoint = true then _ else _ : EStateM _ _ _)
    (emitter, graph) = _ at runs
  split_ifs at runs
  · cases found : emitter.interfaces.find? graph.function with
    | none =>
      rw [found] at runs
      have thrown : Instructed (throw (.reported (.emissionAt (program.function graph.function).span
          (.interfaceMissing (program.function graph.function).name))) :
            EStateM Failure (Emitter × Graph) Unit) :=
        instructed_iff.2 (by mvcgen)
      exact thrown _ _ _ runs
    | some interface =>
      rw [found] at runs
      rcases bind_eq_error runs with failed | ⟨_, ⟨emitter, middle⟩, replaced, failed⟩
      · exact instructed_onPart (Build.instructed_replaceArguments interface) _ _ _ failed
      · have computable : middle.Computable program := by
          change onPart _ _ (Build.replaceArguments program interface).run _ = _ at replaced
          unfold onPart at replaced
          split at replaced
          · rename_i runs
            cases replaced
            exact (Build.replaceArguments_gives computable _ _ runs).2.2.1
          · cases replaced
        change onPart Prod.fst (fun state emitter => (emitter, state.2))
          (Emit.functionBody program middle (some interface)) (emitter, middle) = _ at failed
        exact instructed_onPart (instructed_functionBody computable) _ _ _ failed
  · exact instructed_onPart (instructed_functionBody computable) _ _ _ runs

end Shader
