import Shader.Proofs.Module.Arrangement
import Shader.Proofs.Module.Balance

/-! # The progress of writing a function

While a function is written, some ids are owed: a value has its id before its instruction is there, and a
block has its label from the start. -/

namespace Shader

/-- Whether a value with this opcode has the id of a declaration of the module. -/
def Opcode.isDeclared : Opcode → Bool
  | .const | .zeroInit | .undef | .globalVar => true
  | _ => false

def Opcode.isNoted (opcode : Opcode) : Bool :=
  opcode.hasResult && !opcode.isMarker

namespace Instruction

def isBody : Instruction → Bool
  | .load _ _ _ | .store _ _ | .accessChain _ _ _ _ | .compositeConstruct _ _ _
  | .compositeExtract _ _ _ _ | .compositeInsert _ _ _ _ _ | .vectorShuffle _ _ _ _ _ | .unary _ _ _ _
  | .binary _ _ _ _ _ | .dot _ _ _ | .select _ _ _ _ _ | .functionCall _ _ _ _ | .extInst _ _ _ _ _ => true
  | _ => false

def isMerge : Instruction → Bool
  | .loopMerge _ _ | .selectionMerge _ => true
  | _ => false

def isTerminator : Instruction → Bool
  | .branch _ | .branchConditional _ _ _ | .returnVoid | .returnValue _ | .unreachable => true
  | _ => false

end Instruction

def Graph.declared (graph : Graph) : Set ValueId :=
  {value | (graph.value value).opcode.isDeclared = true}

def Graph.IsSource (graph : Graph) (value : ValueId) : Prop :=
  graph.IsPlaced value ∧ (graph.value value).opcode.isOperand = true

structure Progress where
  functions : Set FunctionId
  blocks : Set BlockId
  values : Set ValueId
  loose : Multiset Id

namespace Progress

def hold (progress : Progress) (id : Id) : Progress :=
  { progress with loose := id ::ₘ progress.loose }

def finish (progress : Progress) (value : ValueId) : Progress :=
  { progress with values := insert value progress.values }

def enter (progress : Progress) (block : BlockId) : Progress :=
  { progress with blocks := insert block progress.blocks }

def start (progress : Progress) (function : FunctionId) : Progress :=
  { progress with functions := insert function progress.functions }

theorem finish_of_mem {progress : Progress} {value : ValueId} (isWritten : value ∈ progress.values) :
    progress.finish value = progress := by
  rw [finish, Set.insert_eq_of_mem isWritten]

end Progress

namespace Writer

variable {graph : Graph}

variable {context : WriteContext} {current : Set FunctionId} {progress : Progress}
  {writer middle after : Writer} {id : Id} {value : ValueId} {instruction : Instruction}

/-! ## Owed ids -/

/-- What is owed outside of the module: the ids of values and blocks that are not written, and those that
nothing has. -/
noncomputable def owed (graph : Graph) (progress : Progress) (writer : Writer) : Multiset Id :=
  writer.ids.outside (progress.values ∪ graph.declared) + writer.labels.outside progress.blocks +
    progress.loose

theorem owed_hold : writer.owed graph (progress.hold id) = id ::ₘ writer.owed graph progress :=
  Multiset.add_cons _ _ _

theorem owed_finish_of_unowed (unowed : writer.ids.find? value = none ∨ value ∈ graph.declared) :
    writer.owed graph (progress.finish value) = writer.owed graph progress := by
  simp only [owed, Progress.finish, Set.insert_union]
  rcases unowed with missing | isDeclared
  · rw [Table.outside_insert_known_of_none missing]
  · rw [Set.insert_eq_of_mem (Set.mem_union_right _ isDeclared)]

theorem owed_finish (distinct : writer.ids.Distinct)
    (found : writer.ids.find? value = some id) (new : value ∉ progress.values)
    (isOwn : value ∉ graph.declared) :
    writer.owed graph progress = id ::ₘ writer.owed graph (progress.finish value) := by
  simp only [owed, Progress.finish, Set.insert_union]
  rw [Table.outside_eq_cons distinct found (by simp [new, isOwn]), Multiset.cons_add, Multiset.cons_add]

theorem owed_enter {block : BlockId} (distinct : writer.labels.Distinct)
    (found : writer.labels.find? block = some id) (new : block ∉ progress.blocks) :
    writer.owed graph progress = id ::ₘ writer.owed graph (progress.enter block) := by
  simp only [owed, Progress.enter]
  rw [Table.outside_eq_cons distinct found new, Multiset.add_cons, Multiset.cons_add]

theorem owed_note (missing : writer.ids.find? value = none)
    (new : value ∉ progress.values) (isOwn : value ∉ graph.declared) : { writer with ids := writer.ids.insert value id }.owed graph progress =
      id ::ₘ writer.owed graph progress := by
  simp only [owed]
  rw [Table.outside_insert_of_notMem missing (by simp [new, isOwn]), Multiset.cons_add, Multiset.cons_add]

theorem owed_note_of_known (known : value ∈ progress.values ∪ graph.declared) : { writer with ids := writer.ids.insert value id }.owed graph progress = writer.owed graph progress := by
  simp only [owed, Table.outside_insert_of_mem known]

/-- If an instruction is a call, the graph has it: it calls, by its id, a function that is no entry point. -/
abbrev Calls (context : WriteContext) (writer : Writer) (instruction : Instruction) : Prop :=
  ∀ type result callee args, instruction = .functionCall type result callee args →
    ∃ value function, (context.graph.value value).opcode = .call ∧
      (context.graph.value value).payload = .function function ∧
      (context.program.function function).isEntryPoint = false ∧
      writer.emitter.functionIds.find? function = some callee

/-- The given ids are the results of instructions or owed, and only given ids are used and noted. -/
structure Balanced (context : WriteContext) (progress : Progress) (writer : Writer) : Prop where
  accounts : writer.emitter.Accounts progress.functions
    (Instruction.allResults writer.body + writer.owed context.graph progress)
  used : ∀ instruction ∈ writer.body, ∀ id ∈ instruction.uses, writer.emitter.Has id
  calls : ∀ instruction ∈ writer.body, writer.Calls context instruction
  ids : ∀ value id, writer.ids.find? value = some id → writer.emitter.Has id
  distinct : writer.ids.Distinct
  labels : ∀ block id, writer.labels.find? block = some id →
    writer.emitter.Has id ∧ context.graph.HasBlock block
  distinctLabels : writer.labels.Distinct
  owners : ∀ value id, writer.ids.find? value = some id →
    context.graph.IsPlaced value ∧ (context.graph.value value).opcode.isNoted = true
  /-- What is written has an id, or is the address of some components. -/
  written : ∀ value ∈ progress.values, (context.graph.value value).opcode.isNoted = true →
    (∃ id, writer.ids.find? value = some id) ∨ ∃ swizzle, writer.swizzled.find? value = some swizzle
  parts : ∀ value id, (context.graph.value value).opcode = .elementPtr →
    writer.ids.find? value = some id → value ∈ progress.values
  swizzled : ∀ value swizzle, writer.swizzled.find? value = some swizzle →
    writer.emitter.Has swizzle.pointer ∧ (context.graph.value value).opcode = .elementPtr
  interface : ∀ interface ∈ context.interface, writer.emitter.HasInterface interface

structure Keeps (current : Set FunctionId) (writer after : Writer) : Prop where
  le : writer.emitter.lastId.toNat ≤ after.emitter.lastId.toNat
  emitter : Emitter.Keeps current writer.emitter after.emitter
  ids : ∀ value id, writer.ids.find? value = some id → after.ids.find? value = some id

theorem keeps_refl : Keeps current writer writer := ⟨le_rfl, Emitter.keeps_refl, fun _ _ found => found⟩

theorem Keeps.trans (first : Keeps current writer middle) (second : Keeps current middle after) :
    Keeps current writer after :=
  ⟨first.le.trans second.le, first.emitter.trans second.emitter,
    fun value id found => second.ids value id (first.ids value id found)⟩

@[grind →]
theorem Keeps.has (keeps : Keeps current writer after) (has : writer.emitter.Has id) : after.emitter.Has id :=
  has.mono keeps.le

@[grind →]
theorem Keeps.find (keeps : Keeps current writer after) (found : writer.ids.find? value = some id) :
    after.ids.find? value = some id :=
  keeps.ids value id found

namespace Balanced

variable {last : Progress}

theorem of_emitter (balanced : writer.Balanced context progress) {emitter : Emitter}
    (le : writer.emitter.lastId.toNat ≤ emitter.lastId.toNat)
    (functionIds : ∀ function id, writer.emitter.functionIds.find? function = some id →
      emitter.functionIds.find? function = some id) (accounts : emitter.Accounts last.functions
      (Instruction.allResults writer.body + writer.owed context.graph last))
    (values : last.values = progress.values) : { writer with emitter }.Balanced context last where
  accounts := accounts
  used instruction found id isUsed := (balanced.used instruction found id isUsed).mono le
  calls instruction found type result callee args isCall :=
    have ⟨value, function, opcode, payload, isPlain, isId⟩ :=
      balanced.calls instruction found type result callee args isCall
    ⟨value, function, opcode, payload, isPlain, functionIds function callee isId⟩
  ids value id found := (balanced.ids value id found).mono le
  distinct := balanced.distinct
  labels block id found := (balanced.labels block id found).imp_left fun has => has.mono le
  distinctLabels := balanced.distinctLabels
  owners := balanced.owners
  written := by simpa only [values] using balanced.written
  parts := by simpa only [values] using balanced.parts
  swizzled value swizzle found := (balanced.swizzled value swizzle found).imp_left fun has => has.mono le
  interface interface found := (balanced.interface interface found).mono le

theorem changes (balanced : writer.Balanced context progress) {emitter : Emitter}
    (changes : Emitter.Changes current writer.emitter emitter) :
    { writer with emitter }.Balanced context progress :=
  balanced.of_emitter changes.le changes.keeps.functionIds (changes.accounts balanced.accounts) rfl

theorem fresh (balanced : writer.Balanced context progress) (room : writer.emitter.HasRoom) :
    Balanced context (progress.hold (writer.emitter.lastId + 1))
      { writer with emitter := { writer.emitter with lastId := writer.emitter.lastId + 1 } } := by
  refine balanced.of_emitter ((Nat.le_succ _).trans room.toNat_next.ge) (fun _ _ found => found) ?_ rfl
  have accounts := balanced.accounts.fresh room
  rwa [← Multiset.add_cons, ← owed_hold] at accounts

theorem write (balanced : writer.Balanced context progress)
    (uses : ∀ id ∈ instruction.uses, writer.emitter.Has id)
    (functions : last.functions = progress.functions) (owed : writer.owed context.graph progress =
      (instruction.results : Multiset Id) + writer.owed context.graph last)
    (written : ∀ value ∈ last.values, (context.graph.value value).opcode.isNoted = true →
      (∃ id, writer.ids.find? value = some id) ∨ ∃ swizzle, writer.swizzled.find? value = some swizzle)
    (values : progress.values ⊆ last.values) (calls : writer.Calls context instruction) :
    { writer with body := writer.body ++ [instruction] }.Balanced context last :=
  { balanced with
    accounts := by
      have accounts := balanced.accounts
      rw [owed, ← functions] at accounts
      convert accounts using 1
      rw [Instruction.allResults_append, Instruction.allResults_cons, Instruction.allResults_nil, add_zero,
        add_assoc]
      rfl
    used := List.forall_mem_append.2 ⟨balanced.used, List.forall_mem_singleton.2 uses⟩
    calls := List.forall_mem_append.2 ⟨balanced.calls, List.forall_mem_singleton.2 calls⟩
    written := written
    parts := fun value id isPart found => values (balanced.parts value id isPart found) }

theorem finish (balanced : writer.Balanced context progress)
    (unowed : writer.ids.find? value = none ∨ value ∈ context.graph.declared)
    (written : (context.graph.value value).opcode.isNoted = true → (∃ id, writer.ids.find? value = some id) ∨
        ∃ swizzle, writer.swizzled.find? value = some swizzle) :
    writer.Balanced context (progress.finish value) :=
  { balanced with
    accounts := by
      have same : writer.owed context.graph (progress.finish value) = writer.owed context.graph progress :=
        owed_finish_of_unowed unowed
      rw [same]
      exact balanced.accounts
    written := by
      rintro other (rfl | isWritten)
      · exact written
      · exact balanced.written other isWritten
    parts := fun other id isPart found => .inr (balanced.parts other id isPart found) }

theorem note (balanced : writer.Balanced context progress)
    (has : writer.emitter.Has id) (placed : context.graph.IsPlaced value)
    (isNoted : (context.graph.value value).opcode.isNoted = true)
    (functions : last.functions = progress.functions) (owed : { writer with ids := writer.ids.insert value id }.owed context.graph last =
      writer.owed context.graph progress)
    (more : progress.values ⊆ last.values) (values : last.values ⊆ insert value progress.values)
    (part : (context.graph.value value).opcode = .elementPtr → value ∈ last.values) :
    { writer with ids := writer.ids.insert value id }.Balanced context last := by
  have split {other : ValueId} {found : Id}
      (isFound : (writer.ids.insert value id).find? other = some found) :
      other = value ∨ writer.ids.find? other = some found := by
    by_cases same : other = value
    · exact .inl same
    · rw [Table.find?_insert_of_ne _ _ same] at isFound
      exact .inr isFound
  refine { balanced with
    accounts := ?_, ids := ?_, distinct := balanced.distinct.insert, owners := ?_, written := ?_,
    parts := ?_ }
  · rw [owed, functions]
    exact balanced.accounts
  · exact Emitter.has_insert balanced.ids has
  · intro other found isFound
    rcases split isFound with rfl | old
    · exact ⟨placed, isNoted⟩
    · exact balanced.owners other found old
  · intro other isWritten otherNoted
    by_cases same : other = value
    · exact .inl ⟨id, by rw [same, Table.find?_insert_self]⟩
    · rw [Table.find?_insert_of_ne _ _ same]
      exact balanced.written other ((values isWritten).resolve_left same) otherNoted
  · intro other found isPart isFound
    rcases split isFound with rfl | old
    · exact part isPart
    · exact more (balanced.parts other found isPart old)

theorem swizzle (balanced : writer.Balanced context progress) {swizzle : SwizzledPointer}
    (has : writer.emitter.Has swizzle.pointer)
    (isPart : (context.graph.value value).opcode = .elementPtr) (new : value ∉ progress.values) :
    { writer with swizzled := writer.swizzled.insert value swizzle }.Balanced context
      (progress.finish value) := by
  have missing : writer.ids.find? value = none := by
    cases found : writer.ids.find? value with
    | none => rfl
    | some id => exact absurd (balanced.parts value id isPart found) new
  refine { balanced with
    accounts := ?_, written := ?_, parts := ?_, swizzled := ?_ }
  · have same : writer.owed context.graph (progress.finish value) = writer.owed context.graph progress :=
      owed_finish_of_unowed (.inl missing)
    have accounts := balanced.accounts
    rw [← same] at accounts
    exact accounts
  · intro other isWritten isNoted
    by_cases same : other = value
    · exact .inr ⟨swizzle, by rw [same, Table.find?_insert_self]⟩
    · rw [Table.find?_insert_of_ne _ _ same]
      exact balanced.written other (isWritten.resolve_left same) isNoted
  · exact fun other id isPart found => .inr (balanced.parts other id isPart found)
  · intro other found isFound
    by_cases same : other = value
    · subst same
      rw [Table.find?_insert_self] at isFound
      cases isFound
      exact ⟨has, isPart⟩
    · rw [Table.find?_insert_of_ne _ _ same] at isFound
      exact balanced.swizzled other found isFound

theorem notMem_values (balanced : writer.Balanced context progress)
    (missing : writer.ids.find? value = none)
    (isNoted : (context.graph.value value).opcode.isNoted = true)
    (noPart : (context.graph.value value).opcode ≠ .elementPtr) : value ∉ progress.values := by
  intro isWritten
  rcases balanced.written value isWritten isNoted with ⟨id, found⟩ | ⟨swizzle, found⟩
  · rw [missing] at found
    cases found
  · exact noPart (balanced.swizzled value swizzle found).2

end Balanced

end Writer

namespace Write

open Writer

variable {α β : Type} {context : WriteContext} {current : Set FunctionId} {start : Progress}
  {writer : Writer} {id : Id} {value : ValueId} {instruction : Instruction} {result : α}
  {step : Write α} {next : α → Write β} {finish middle : α → Progress} {ends : β → Progress}
  {good weaker : α → List Instruction → Writer → Prop} {final : β → List Instruction → Writer → Prop}

/-! ## Steps -/

/-- A step that succeeds makes a progress, writes some instructions and has a result with a property. -/
def Gives (context : WriteContext) (current : Set FunctionId) (start : Progress) (step : Write α)
    (writer : Writer) (finish : α → Progress) (good : α → List Instruction → Writer → Prop) : Prop :=
  writer.Balanced context start → ∀ result after, step writer = .ok result after →
    after.Balanced context (finish result) ∧ writer.Keeps current after ∧
      ∃ new, after.body = writer.body ++ new ∧ good result new after

def Quietly (context : WriteContext) (current : Set FunctionId) (start : Progress) (step : Write α)
    (writer : Writer) (good : α → Writer → Prop) : Prop :=
  Gives context current start step writer (fun _ => start) fun result new after =>
    new = [] ∧ good result after

def Plainly (context : WriteContext) (current : Set FunctionId) (start : Progress) (step : Write α)
    (writer : Writer) (finish : α → Progress) (good : α → Writer → Prop) : Prop :=
  Gives context current start step writer finish fun result new after =>
    (∀ instruction ∈ new, instruction.isBody = true) ∧ good result after

theorem gives_pure (same : finish result = start) (holds : good result [] writer) :
    Gives context current start (pure result) writer finish good := by
  rintro balanced _ _ ⟨⟩
  exact ⟨same ▸ balanced, keeps_refl, [], (List.append_nil _).symm, holds⟩

theorem gives_throw {failure : Failure} :
    Gives context current start (throw failure : Write α) writer finish good := by
  rintro _ _ _ ⟨⟩

theorem gives_throw_bind {failure : Failure} :
    Gives context current start ((throw failure : Write α) >>= next) writer ends final := by
  rintro _ _ _ ⟨⟩

theorem gives_get_bind {next : Writer → Write β} (continues : writer.Balanced context start →
      Gives context current start (next writer) writer ends final) :
    Gives context current start (get >>= next) writer ends final :=
  fun balanced => continues balanced balanced

theorem gives_assuming
    (gives : writer.Balanced context start → Gives context current start step writer finish good) :
    Gives context current start step writer finish good :=
  fun balanced => gives balanced balanced

theorem Gives.mono (gives : Gives context current start step writer finish good)
    (implies : ∀ result new after, writer.Keeps current after → good result new after →
      weaker result new after) : Gives context current start step writer finish weaker := by
  intro balanced result after runs
  obtain ⟨balanced, keeps, new, body, holds⟩ := gives balanced result after runs
  exact ⟨balanced, keeps, new, body, implies result new after keeps holds⟩

theorem Gives.bind {between : α → List Instruction → Writer → Prop}
    (first : Gives context current start step writer middle between)
    (second : ∀ result front after, writer.Keeps current after → between result front after →
      Gives context current (middle result) (next result) after ends fun result new last =>
        final result (front ++ new) last) :
    Gives context current start (step >>= next) writer ends final := by
  intro balanced result last runs
  obtain ⟨value, after, stepped, runs⟩ := Emit.bind_eq_ok runs
  obtain ⟨balanced, keeps, front, body, holds⟩ := first balanced value after stepped
  obtain ⟨balanced, keepsOn, new, bodyOn, holds⟩ :=
    second value front after keeps holds balanced result last runs
  exact ⟨balanced, keeps.trans keepsOn, front ++ new, by rw [bodyOn, body, List.append_assoc], holds⟩

theorem Quietly.bind {between : α → Writer → Prop}
    (first : Quietly context current start step writer between)
    (second : ∀ result after, writer.Keeps current after → between result after →
      Gives context current start (next result) after ends final) :
    Gives context current start (step >>= next) writer ends final := by
  refine Gives.bind first fun result front after keeps holds => ?_
  obtain ⟨rfl, holds⟩ := holds
  exact second result after keeps holds

theorem Plainly.bind {between : α → Writer → Prop} {good : β → Writer → Prop}
    (first : Plainly context current start step writer middle between)
    (second : ∀ result after, writer.Keeps current after → between result after →
      Plainly context current (middle result) (next result) after ends good) :
    Plainly context current start (step >>= next) writer ends good := by
  refine Gives.bind first fun result front after keeps ⟨isFront, holds⟩ => ?_
  refine Gives.mono (second result after keeps holds) fun _ new _ _ ⟨isNew, holds⟩ => ⟨?_, holds⟩
  intro instruction found
  exact (List.mem_append.1 found).elim (isFront instruction) (isNew instruction)

theorem Quietly.mono {good weaker : α → Writer → Prop}
    (quietly : Quietly context current start step writer good)
    (implies : ∀ result after, writer.Keeps current after → good result after → weaker result after) :
    Quietly context current start step writer weaker :=
  Gives.mono quietly fun result _ after keeps holds =>
    ⟨holds.1, implies result after keeps holds.2⟩

theorem quietly_pure {good : α → Writer → Prop} (holds : good result writer) :
    Quietly context current start (pure result) writer good :=
  gives_pure rfl ⟨rfl, holds⟩

theorem plainly_pure {good : α → Writer → Prop} (same : finish result = start)
    (holds : good result writer) : Plainly context current start (pure result) writer finish good :=
  gives_pure same ⟨by simp, holds⟩

theorem quietly_mapM {items : List α} {step : α → Write β} (good : α → β → Writer → Prop)
    (stays : ∀ item result middle after, Keeps current middle after → good item result middle →
      good item result after)
    (each : ∀ item ∈ items, ∀ after, writer.Keeps current after →
      Quietly context current start (step item) after (good item)) :
    Quietly context current start (items.mapM step) writer fun results after =>
      List.Forall₂ (fun item result => good item result after) items results := by
  have collect (done rest : List α) (reversed : List β) (middle : Writer)
      (all : items = done ++ rest) (keeps : writer.Keeps current middle)
      (holds : List.Forall₂ (fun item result => good item result middle) done reversed.reverse) :
      Quietly context current start (List.mapM.loop step rest reversed) middle fun results after =>
        List.Forall₂ (fun item result => good item result after) items results := by
    induction rest generalizing done reversed middle with
    | nil =>
      rw [List.append_nil] at all
      exact quietly_pure (all ▸ holds)
    | cons item rest ih =>
      refine Quietly.bind (each item (by simp [all]) middle keeps) fun result after keepsOn isGood => ?_
      refine ih (done ++ [item]) (result :: reversed) after (by simp [all]) (keeps.trans keepsOn) ?_
      rw [List.reverse_cons]
      exact List.rel_append (holds.imp fun old found => stays old found middle after keepsOn)
        (.cons isGood .nil)
  exact collect [] items [] writer rfl keeps_refl .nil

theorem quietly_mapM_all {items : List α} {step : α → Write β} (good : β → Writer → Prop)
    (stays : ∀ result middle after, Keeps current middle after → good result middle → good result after)
    (each : ∀ item ∈ items, ∀ after, writer.Keeps current after →
      Quietly context current start (step item) after good) :
    Quietly context current start (items.mapM step) writer fun results after =>
      ∀ result ∈ results, good result after := by
  refine (quietly_mapM (fun _ => good) (fun _ => stays) each).mono fun results after _ all result found => ?_
  obtain ⟨position, bound, rfl⟩ := List.mem_iff_getElem.1 found
  exact all.get (all.length_eq ▸ bound) bound

/-! ## Parts of the state -/

theorem emitting_keeps_ids {step : Emit α} {good : α → Emitter → Prop}
    (gives : Emit.Gives current step writer.emitter good) :
    Quietly context current start (emitting step) writer fun result after =>
      good result after.emitter ∧ after.ids = writer.ids := by
  intro balanced result after runs
  unfold emitting onPart at runs
  split at runs
  · rename_i value changed stepped
    cases runs
    obtain ⟨changes, holds⟩ := gives balanced.accounts.valid _ _ stepped
    exact ⟨balanced.changes changes, ⟨changes.le, changes.keeps, fun _ _ found => found⟩, [],
      (List.append_nil _).symm, rfl, holds, rfl⟩
  · cases runs

theorem emitting_quietly {step : Emit α} {good : α → Emitter → Prop}
    (gives : Emit.Gives current step writer.emitter good) :
    Quietly context current start (emitting step) writer fun result after =>
      good result after.emitter :=
  (emitting_keeps_ids gives).mono fun _ _ _ holds => holds.1

theorem fresh_gives : Gives context current start (emitting Emit.freshId) writer (fun id => start.hold id)
    fun id new after => new = [] ∧ after.emitter.Has id ∧
      after = { writer with emitter := after.emitter } := by
  intro balanced result last runs
  unfold emitting onPart at runs
  split at runs
  · rename_i value changed fresh
    cases runs
    obtain ⟨room, rfl, rfl⟩ := Emit.freshId_eq_ok fresh
    exact ⟨balanced.fresh room, ⟨(Nat.le_succ _).trans room.toNat_next.ge, { Emitter.keeps_refl with },
      fun _ _ found => found⟩, [], (List.append_nil _).symm, rfl, room.has_next rfl, rfl⟩
  · cases runs

theorem fresh_bind {next : Id → Write β}
    (continues : ∀ id after, writer.Keeps current after → after.emitter.Has id →
      Gives context current (start.hold id) (next id) after ends final) :
    Gives context current start (emitting Emit.freshId >>= next) writer ends final := by
  refine Gives.bind fresh_gives fun id front after keeps ⟨isNone, has, _⟩ => ?_
  subst isNone
  exact continues id after keeps has

theorem noteId_gives (last : Progress)
    (stays : ∀ found, writer.ids.find? value = some found → found = id)
    (notes : writer.Balanced context start →
      { writer with ids := writer.ids.insert value id }.Balanced context last) :
    Gives context current start (noteId value id) writer (fun _ => last) fun _ new after =>
      new = [] ∧ after = { writer with ids := writer.ids.insert value id } := by
  rintro balanced _ _ ⟨⟩
  refine ⟨notes balanced, ⟨le_rfl, Emitter.keeps_refl, fun other found isFound => ?_⟩, [],
    (List.append_nil _).symm, rfl, rfl⟩
  by_cases same : other = value
  · subst same
    rw [stays found isFound]
    exact Table.find?_insert_self _ _ _
  · rwa [Table.find?_insert_of_ne _ _ same]

/-! ### Writing

The instructions that are written are known, so that it is routine to say what they are, define and use. -/

theorem write_value (found : writer.ids.find? value = some id) (new : value ∉ start.values)
    (isOwn : (context.graph.value value).opcode.isDeclared = false)
    (results : instruction.results = [id])
    (uses : ∀ id ∈ instruction.uses, writer.emitter.Has id)
    (calls : writer.Calls context instruction) :
    Gives context current start (write instruction) writer (fun _ => start.finish value) fun _ new _ =>
      new = [instruction] := by
  rintro balanced _ _ ⟨⟩
  refine ⟨balanced.write uses rfl ?_ ?_ (Set.subset_insert _ _) calls, ⟨le_rfl, Emitter.keeps_refl,
    fun _ _ found => found⟩, [instruction], rfl, rfl⟩
  · rw [results, owed_finish balanced.distinct found new (by simp [Graph.declared, isOwn])]
    rfl
  · rintro other (rfl | isWritten) isNoted
    · exact .inl ⟨id, found⟩
    · exact balanced.written other isWritten isNoted

theorem write_held (results : instruction.results = [id])
    (uses : ∀ id ∈ instruction.uses, writer.emitter.Has id)
    (calls : writer.Calls context instruction) :
    Gives context current (start.hold id) (write instruction) writer (fun _ => start) fun _ new _ =>
      new = [instruction] := by
  rintro balanced _ _ ⟨⟩
  refine ⟨balanced.write uses rfl ?_ balanced.written (Set.Subset.refl _) calls, ⟨le_rfl, Emitter.keeps_refl,
    fun _ _ found => found⟩, [instruction], rfl, rfl⟩
  rw [results, owed_hold]
  rfl

theorem write_none (results : instruction.results = [])
    (uses : ∀ id ∈ instruction.uses, writer.emitter.Has id) :
    Gives context current start (write instruction) writer (fun _ => start) fun _ new _ =>
      new = [instruction] := by
  rintro balanced _ _ ⟨⟩
  refine ⟨balanced.write uses rfl ?_ balanced.written (Set.Subset.refl _) ?_, ⟨le_rfl, Emitter.keeps_refl,
    fun _ _ found => found⟩, [instruction], rfl, rfl⟩
  · rw [results]
    exact (zero_add _).symm
  · rintro _ _ _ _ rfl
    cases results

theorem plainly_write {finish : PUnit → Progress}
    (writes : Gives context current start (write instruction) writer finish fun _ new _ =>
      new = [instruction]) (isBody : instruction.isBody = true) :
    Plainly context current start (write instruction) writer finish fun _ _ => True :=
  Gives.mono writes fun _ _ _ _ isNew => by simp [isNew, isBody]

end Write

end Shader
