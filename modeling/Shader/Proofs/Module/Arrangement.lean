import Shader.Module.EntryPoint
import Shader.Proofs.Graph.Transaction

/-! # Graphs that can be written

What writing a function asks of its graph: every value stands once in its block, between phis and an
ending, and all that it uses stands in a block as well. -/

namespace Shader

/-- Whether a value with this opcode reads the interface of an entry point. -/
def Opcode.isInterface : Opcode → Bool
  | .uniformPtr | .stageInput | .makeStruct => true
  | _ => false

theorem Opcode.of_isInterface {opcode : Opcode} (isInterface : opcode.isInterface = true) :
    opcode.isOperand = true ∧ opcode.isNamed = false ∧ opcode ≠ .phi ∧ opcode.isEnding = false := by
  revert isInterface
  cases opcode <;> decide

namespace Graph

variable {start graph after : Graph} {block : BlockId} {operation : Operation}
  {old new value user arg pointer removed : ValueId} {pending : PendingInsert} {log : List Edit.Entry}
  {edit : Edit}

def IsPlaced (graph : Graph) (value : ValueId) : Prop :=
  value ∈ (graph.block (graph.value value).block).values

/-! ## Operands -/

/-- A value only reads or changes memory at the address of a part, behind it in its block. -/
structure Addresses (graph : Graph) (user pointer : ValueId) : Prop where
  access : (graph.value user).opcode = .load ∧ (graph.value user).args = [pointer] ∨
    (graph.value user).opcode = .store ∧ ∃ content, (graph.value user).args = [pointer, content] ∧
      (graph.value content).opcode ≠ .elementPtr
  behind : [pointer, user].Sublist (graph.block (graph.value pointer).block).values

theorem Addresses.exchange (addresses : graph.Addresses user pointer) (change : ValueId → ValueId)
    (opcode : (after.value user).opcode = (graph.value user).opcode)
    (args : (after.value user).args = (graph.value user).args.map change)
    (stays : change pointer = pointer)
    (contents : ∀ content ∈ (graph.value user).args, (graph.value content).opcode ≠ .elementPtr →
      (after.value (change content)).opcode ≠ .elementPtr)
    (behind : [pointer, user].Sublist (after.block (after.value pointer).block).values) :
    after.Addresses user pointer := by
  refine ⟨?_, behind⟩
  rw [opcode, args]
  rcases addresses.access with ⟨isLoad, isArgs⟩ | ⟨isStore, content, isArgs, whole⟩
  · exact .inl ⟨isLoad, by simp [isArgs, stays]⟩
  · exact .inr ⟨isStore, change content, by simp [isArgs, stays], contents content (by simp [isArgs]) whole⟩

structure Served (graph : Graph) : Prop where
  results : ∀ user, ∀ arg ∈ (graph.value user).args, (graph.value arg).opcode.hasResult = true
  addresses : ∀ user, ∀ arg ∈ (graph.value user).args, (graph.value arg).opcode = .elementPtr →
    graph.Addresses user arg
  /-- Constants have literals, and global variables say which ones they are. -/
  proper : ∀ value, (graph.value value).Proper True

theorem hasValue_of_isInterface (isInterface : (graph.value value).opcode.isInterface = true) :
    graph.HasValue value := by
  refine hasValue_of_opcode fun isUndefined => ?_
  rw [isUndefined] at isInterface
  cases isInterface

theorem isPlain_of_isInterface (isInterface : (graph.value value).opcode.isInterface = true) :
    graph.isPlain value = true := by
  obtain ⟨-, -, noPhi, notEnding⟩ := Opcode.of_isInterface isInterface
  simp [isPlain, isPhi, noPhi, notEnding]

theorem Served.allocate (served : graph.Served) (edges : graph.EdgesAgree)
    (isInterface : operation.opcode.isInterface = true)
    (reads : ∀ arg ∈ operation.args, (graph.value arg).opcode.isInterface = true) :
    (graph.allocate block operation).2.Served := by
  have has : ∀ arg ∈ operation.args, graph.HasValue arg := fun arg used =>
    hasValue_of_isInterface (reads arg used)
  have frame := @frames_allocate graph block operation
  have values := value_allocate block operation has
  generalize (graph.allocate block operation).2 = after at *
  have isNew : after.value graph.values.next = { operation with block } := by rw [values, if_pos rfl]
  have kept (value : ValueId) (isOld : value ≠ graph.values.next) :
      (after.value value).toOperation = (graph.value value).toOperation ∧
        (after.value value).block = (graph.value value).block := by
    rw [values, if_neg isOld]
    exact ⟨rfl, rfl⟩
  -- what is used was there, and what the new value uses reads the interface
  have related {user arg : ValueId} (used : arg ∈ (after.value user).args) :
      (after.value arg).toOperation = (graph.value arg).toOperation ∧ arg ≠ graph.values.next ∧
        (user ≠ graph.values.next ∧ arg ∈ (graph.value user).args ∨
          (graph.value arg).opcode.isInterface = true) := by
    by_cases isUser : user = graph.values.next
    · rw [isUser, isNew] at used
      have isOld := (has arg used).ne_next
      exact ⟨(kept arg isOld).1, isOld, .inr (reads arg used)⟩
    · rw [(kept user isUser).1] at used
      have isOld := (hasValue_of_mem_uses (edges.mem_uses_iff.2 used)).ne_next
      exact ⟨(kept arg isOld).1, isOld, .inl ⟨isUser, used⟩⟩
  refine ⟨fun user arg used => ?_, fun user arg used isPart => ?_, fun value => ?_⟩
  · obtain ⟨same, -, ⟨-, before⟩ | isRead⟩ := related used
    · rw [same]
      exact served.results user arg before
    · rw [same]
      exact Opcode.hasResult_of_isOperand (Opcode.of_isInterface isRead).1
  · obtain ⟨same, isOld, ⟨isUser, before⟩ | isRead⟩ := related used
    · rw [same] at isPart
      have addresses := served.addresses user arg before isPart
      refine addresses.exchange id (by rw [(kept user isUser).1])
        (by rw [(kept user isUser).1, List.map_id]) rfl (fun content isContent whole => ?_) ?_
      · rw [id, (related (by rwa [(kept user isUser).1])).1]
        exact whole
      · rw [(kept arg isOld).2, frame.values]
        exact addresses.behind
    · rw [same] at isPart
      rw [isPart] at isRead
      cases isRead
  · by_cases isOld : value = graph.values.next
    · rw [isOld, isNew]
      exact .of_plain (Opcode.of_isInterface isInterface).2.1
    · rw [(kept value isOld).1]
      exact served.proper value

theorem Served.replaceUses (served : graph.Served) (edges : graph.EdgesAgree) (hasOld : graph.HasValue old)
    (hasNew : graph.HasValue new) (differs : old ≠ new)
    (isOperand : (graph.value new).opcode.isOperand = true) : (graph.replaceUses old new).Served := by
  obtain ⟨-, shells, args, -, -⟩ := replaceUses_spec edges hasOld hasNew differs
  have frame := @frames_replaceUses graph old new
  generalize graph.replaceUses old new = after at *
  have opcode (value : ValueId) : (after.value value).opcode = (graph.value value).opcode :=
    congrArg (fun value => value.opcode) (shells value)
  have newPart := Opcode.ne_elementPtr_of_isOperand isOperand
  -- an operand is what it was, or the new value in place of the old one
  have exchanged (user : ValueId) : ∃ change : ValueId → ValueId,
      (after.value user).args = (graph.value user).args.map change ∧
        ∀ arg, change arg = arg ∨ arg = old ∧ change arg = new := by
    by_cases same : user = old
    · exact ⟨id, by simp [args, same], fun arg => .inl rfl⟩
    · refine ⟨exchange old new, by simp [args, same], fun arg => ?_⟩
      unfold exchange
      split_ifs with isOld
      · exact .inr ⟨isOld, rfl⟩
      · exact .inl rfl
  refine ⟨fun user arg used => ?_, fun user arg used isPart => ?_, fun value => ?_⟩
  · obtain ⟨change, isArgs, each⟩ := exchanged user
    rw [isArgs] at used
    obtain ⟨before, usedBefore, rfl⟩ := List.mem_map.1 used
    rw [opcode]
    rcases each before with same | ⟨-, same⟩
    · rw [same]
      exact served.results user before usedBefore
    · rw [same]
      exact Opcode.hasResult_of_isOperand isOperand
  · obtain ⟨change, isArgs, each⟩ := exchanged user
    rw [isArgs] at used
    obtain ⟨before, usedBefore, rfl⟩ := List.mem_map.1 used
    rw [opcode] at isPart
    have same := (each before).resolve_right fun ⟨_, isNew⟩ => newPart (isNew ▸ isPart)
    rw [same] at isPart ⊢
    have addresses := served.addresses user before usedBefore isPart
    refine addresses.exchange change (opcode user) isArgs same (fun content _ whole => ?_) ?_
    · rw [opcode]
      rcases each content with stays | ⟨-, isNew⟩
      · rwa [stays]
      · rwa [isNew]
    · rw [Value.block_eq_of_shell (shells before), frame.values]
      exact addresses.behind
  · have payload : (after.value value).payload = (graph.value value).payload :=
      congrArg (fun value => value.payload) (shells value)
    refine ⟨fun _ => trivial, ?_, ?_⟩
    · rw [opcode, payload]
      exact (served.proper value).const
    · rw [opcode, payload]
      exact (served.proper value).globalVar

/-! ## The layout of blocks -/

/-- A block has phis first, then other values, and its one ending last. -/
def IsLaidOut (graph : Graph) (block : BlockId) : Prop :=
  ∃ phis plain ending, (graph.block block).values = phis ++ plain ++ [ending] ∧
    (graph.block block).ending = some ending ∧
    (∀ value ∈ phis, (graph.value value).opcode = .phi) ∧
    (∀ value ∈ plain, graph.isPlain value = true) ∧ (graph.value ending).opcode.isEnding = true

theorem IsLaidOut.of_frames (laidOut : graph.IsLaidOut block) (frame : graph.Frames after)
    (opcode : ∀ value ∈ (graph.block block).values,
      (after.value value).opcode = (graph.value value).opcode) : after.IsLaidOut block := by
  obtain ⟨phis, plain, ending, parts, isLast, arePhis, arePlain, isEnding⟩ := laidOut
  rw [parts] at opcode
  refine ⟨phis, plain, ending, (frame.values block).trans parts, (frame.ending block).trans isLast,
    fun value found => ?_, fun value found => ?_, ?_⟩
  · rw [opcode value (by simp [found])]
    exact arePhis value found
  · rw [isPlain, isPhi, opcode value (by simp [found])]
    exact arePlain value found
  · rw [opcode ending (by simp)]
    exact isEnding

theorem IsLaidOut.insert (laidOut : graph.IsLaidOut block) (anchor : graph.isPlain pending.before = true)
    (plain : graph.isPlain pending.value = true) (inserts : graph.insert pending = .ok after) :
    after.IsLaidOut block := by
  obtain ⟨phis, others, ending, parts, isLast, arePhis, arePlain, isEnding⟩ := laidOut
  obtain ⟨anchored, reads⟩ := block_insert inserts block
  have values (value : ValueId) : after.value value = graph.value value := by
    rw [(insert_eq_ok inserts).2]
    rfl
  simp only [IsLaidOut, isPlain, isPhi, values] at *
  rw [reads]
  split_ifs with same
  · rw [← same, parts] at anchored
    -- the anchor is neither a phi nor the ending, so the value gets between them
    have before : pending.before ∉ phis := fun isPhi => by
      simp [arePhis _ isPhi] at anchor
    have notEnding : pending.before ≠ ending := by
      rintro rfl
      simp [isEnding] at anchor
    have inside : pending.before ∈ others := by simpa [before, notEnding] using anchored
    refine ⟨phis, insertBefore pending.before pending.value others, ending, ?_, isLast, arePhis,
      fun value found => ?_, isEnding⟩
    · rw [parts, List.append_assoc, insertBefore_append_of_notMem before,
        insertBefore_append_of_mem inside, List.append_assoc]
    · rcases mem_insertBefore.1 found with rfl | found
      · exact plain
      · exact arePlain value found
  · exact ⟨phis, others, ending, parts, isLast, arePhis, arePlain, isEnding⟩

theorem IsLaidOut.removeValue (laidOut : graph.IsLaidOut block) (plain : graph.isPlain removed = true) :
    (graph.removeValue removed).IsLaidOut block := by
  obtain ⟨phis, others, ending, parts, isLast, arePhis, arePlain, isEnding⟩ := laidOut
  obtain ⟨reads, sameEnding⟩ := @block_removeValue graph removed block
  have nature := (@rewrites_removeValue graph removed).nature
  generalize graph.removeValue removed = after at *
  have opcode (value : ValueId) : (after.value value).opcode = (graph.value value).opcode :=
    Value.opcode_of_nature (nature value)
  simp only [IsLaidOut, isPlain, isPhi, opcode] at *
  have notEnding : ending ≠ removed := by
    rintro rfl
    simp [isEnding] at plain
  have stay : phis.filter (· != removed) = phis := by
    refine List.filter_eq_self.2 fun value inside => bne_iff_ne.2 ?_
    rintro rfl
    simp [arePhis _ inside] at plain
  rw [sameEnding (by simpa [isLast] using notEnding), reads]
  split_ifs
  · refine ⟨phis, others.filter (· != removed), ending, ?_, isLast, arePhis, fun value found => ?_, isEnding⟩
    · rw [parts, List.filter_append, List.filter_append, stay]
      simp [notEnding]
    · exact arePlain value (List.mem_of_mem_filter found)
  · exact ⟨phis, others, ending, parts, isLast, arePhis, arePlain, isEnding⟩

end Graph

/-! ## Edits -/

def Graph.IsReplaced (graph : Graph) (value : ValueId) : Prop :=
  (graph.value value).opcode = .functionArg ∨ (graph.value value).opcode = .extractValue

/-- An edit places values that read the interface in front of arguments, and gives up arguments and parts
of them. -/
structure Edit.Aims (edit : Edit) (graph : Graph) : Prop where
  anchors : ∀ pending ∈ edit.inserts, pending.block = graph.entry ∧
    (graph.value pending.before).opcode = .functionArg
  kinds : ∀ value ∈ edit.waiting, (graph.value value).opcode.isInterface = true
  removals : ∀ value ∈ edit.removals, graph.IsReplaced value

namespace Graph

variable {graph after : Graph} {value : ValueId}

theorem IsReplaced.hasValue (isReplaced : graph.IsReplaced value) : graph.HasValue value := by
  refine hasValue_of_opcode fun isUndefined => ?_
  rcases isReplaced with isArgument | isRead
  · rw [isArgument] at isUndefined
    cases isUndefined
  · rw [isRead] at isUndefined
    cases isUndefined

theorem IsReplaced.grows (isReplaced : graph.IsReplaced value) (grows : graph.Grows after) :
    after.IsReplaced value := by
  rw [IsReplaced, grows.opcode isReplaced.hasValue]
  exact isReplaced

theorem IsReplaced.isPlain (isReplaced : graph.IsReplaced value) : graph.isPlain value = true := by
  rcases isReplaced with opcode | opcode <;> simp [Graph.isPlain, isPhi, opcode, Opcode.isEnding]

end Graph

open Shader.Graph in
theorem Edit.Aims.grows {graph after : Graph} {edit : Edit} (aims : edit.Aims graph)
    (grows : graph.Grows after) (entry : after.entry = graph.entry) : edit.Aims after := by
  refine ⟨fun pending waits => ?_, fun value waits => ?_, fun value queued => ?_⟩
  · obtain ⟨isEntry, isArgument⟩ := aims.anchors pending waits
    refine ⟨isEntry.trans entry.symm, ?_⟩
    exact (grows.opcode (IsReplaced.hasValue (.inl isArgument))).trans isArgument
  · have isInterface := aims.kinds value waits
    rwa [grows.opcode (hasValue_of_isInterface isInterface)]
  · exact (aims.removals value queued).grows grows

namespace Graph

variable {start graph after : Graph} {log : List Edit.Entry} {edit : Edit}

theorem laidOut_applyEdit (aims : edit.Aims graph)
    (laidOut : ∀ block, graph.HasBlock block → graph.IsLaidOut block)
    (applied : graph.applyEdit edit = .ok after) :
    after.entry = graph.entry ∧ (∀ block, after.HasBlock block ↔ graph.HasBlock block) ∧
      (∀ value, (after.value value).nature = (graph.value value).nature) ∧
        ∀ block, graph.HasBlock block → after.IsLaidOut block := by
  obtain ⟨placed, last, placing, removing, rfl⟩ := applyEdit_eq_ok applied
  let keeps (after : Graph) : Prop := after.entry = graph.entry ∧
    (∀ block, after.HasBlock block ↔ graph.HasBlock block) ∧
      (∀ value, (after.value value).nature = (graph.value value).nature) ∧
        ∀ block, graph.HasBlock block → after.IsLaidOut block
  have plain {middle : Graph} {value : ValueId}
      (nature : ∀ value, (middle.value value).nature = (graph.value value).nature) :
      middle.isPlain value = graph.isPlain value := by
    simp only [Graph.isPlain, isPhi, Value.opcode_of_nature (nature _)]
  have inserted : keeps placed := by
    refine foldlM_keeps keeps ⟨rfl, fun _ => Iff.rfl, fun _ => rfl, laidOut⟩ ?_ placing
    rintro pending waits middle changed ⟨entry, hasBlock, nature, isLaidOut⟩ inserts
    have anchor : graph.IsReplaced pending.before := .inl (aims.anchors pending waits).2
    have isInterface := aims.kinds pending.value (List.mem_map_of_mem waits)
    refine ⟨?_, fun block => ?_, fun value => ?_, fun block has => (isLaidOut block has).insert
      ((plain nature).trans anchor.isPlain) ((plain nature).trans (isPlain_of_isInterface isInterface))
      inserts⟩
    · rw [(insert_eq_ok inserts).2]
      exact entry
    · rw [(insert_eq_ok inserts).2, hasBlock_modifyBlock]
      exact hasBlock block
    · rw [(insert_eq_ok inserts).2]
      exact nature value
  have removed : keeps last := by
    refine foldlM_keeps keeps inserted ?_ removing
    rintro value queued middle changed ⟨entry, hasBlock, nature, isLaidOut⟩ removes
    obtain ⟨-, rfl⟩ := removeUnused_eq_ok removes
    refine ⟨?_, fun block => ?_, fun other => ?_, fun block has => (isLaidOut block has).removeValue
      ((plain nature).trans (aims.removals value queued).isPlain)⟩
    · rw [removeValue_eq]
      exact entry
    · rw [removeValue_eq, ← hasBlock]
      simp [HasBlock]
    · exact ((rewrites_removeValue value).nature other).trans (nature other)
  exact removed

/-! ## Arranged graphs -/

structure Arranged (graph : Graph) : Prop extends graph.Served where
  entry : graph.entry = ⟨0⟩
  hasEntry : graph.HasBlock graph.entry
  tidy : graph.Tidy
  home : ∀ block, ∀ value ∈ (graph.block block).values, (graph.value value).block = block
  once : ∀ block, (graph.block block).values.Nodup
  laidOut : ∀ block, graph.HasBlock block → graph.IsLaidOut block
  noPhis : ∀ value ∈ (graph.block graph.entry).values, (graph.value value).opcode ≠ .phi

namespace Arranged

theorem isPlaced (arranged : graph.Arranged) {user arg : ValueId}
    (used : arg ∈ (graph.value user).args) : graph.IsPlaced arg := by
  have has := hasValue_of_mem_uses (arranged.tidy.edges.mem_uses_iff.2 used)
  have once := arranged.tidy.once arg ⟨has, (arranged.tidy.removed_eq_false used).1⟩
  exact List.count_pos_iff.1 (once ▸ Nat.zero_lt_one)

theorem applyEdit (arranged : start.Arranged) (reaches : Edit.Reaches start log graph edit)
    (aims : edit.Aims graph) (served : graph.Served) (runs : graph.applyEdit edit = .ok after) :
    after.Arranged := by
  have prepared := Edit.Prepared.of_reaches arranged.tidy reaches
  have applied := prepared.applied arranged.tidy runs
  have frame := prepared.frame
  have kept (block : BlockId) (value : ValueId) (found : value ∈ (start.block block).values) :
      (graph.value value).shell = (start.value value).shell :=
    (prepared.shells value (arranged.tidy.made block value found)).2
  obtain ⟨entry, hasBlock, nature, laidOut⟩ := laidOut_applyEdit aims (fun block has =>
    (arranged.laidOut block ((frame.hasBlock block).1 has)).of_frames frame fun value found =>
      congrArg (fun value => value.opcode) (kept block value found)) runs
  have opcode (value : ValueId) : (after.value value).opcode = (graph.value value).opcode :=
    Value.opcode_of_nature (nature value)
  -- a block has what was placed there and what it had
  have placed (block : BlockId) : ∃ values : List ValueId, (after.block block).values.Sublist values ∧
      values.Perm ((edit.inserts.filter (·.block = block)).map PendingInsert.value ++
        (start.block block).values) := by
    rw [← frame.values]
    exact applied.within block
  have cases {block : BlockId} {value : ValueId} (found : value ∈ (after.block block).values) :
      (∃ pending ∈ edit.inserts, pending.block = block ∧ pending.value = value) ∨
        value ∈ (start.block block).values := by
    obtain ⟨values, inside, perm⟩ := placed block
    refine (List.mem_append.1 (perm.subset (inside.subset found))).imp_left fun waits => ?_
    obtain ⟨pending, isPending, same⟩ := List.mem_map.1 waits
    have both := List.mem_filter.1 isPending
    exact ⟨pending, both.1, by simpa using both.2, same⟩
  -- values that have operands, and those operands, are not given up
  have stays {user arg : ValueId} (used : arg ∈ (after.value user).args) :
      user ∉ edit.removals ∧ arg ∉ edit.removals ∧ arg ∈ (graph.value user).args := by
    obtain ⟨liveArg, liveUser⟩ := applied.tidy.removed_eq_false used
    have isKept (value : ValueId) (live : (after.value value).removed = false) :
        value ∉ edit.removals := fun queued =>
      Bool.false_ne_true (live.symm.trans ((applied.removed value).2 (.inr queued)))
    refine ⟨isKept user liveUser, isKept arg liveArg, ?_⟩
    rwa [Value.args_of_core (applied.core user (isKept user liveUser))] at used
  constructor
  · refine ⟨fun user arg used => ?_, fun user arg used isPart => ?_, fun value => ?_⟩
    · rw [opcode]
      exact served.results user arg (stays used).2.2
    · obtain ⟨isUser, isArg, before⟩ := stays used
      rw [opcode] at isPart
      have addresses := served.addresses user arg before isPart
      refine addresses.exchange id (opcode user) ?_ rfl (fun content _ => ?_) ?_
      · rw [List.map_id, Value.args_of_core (applied.core user isUser)]
      · rw [id, opcode]
        exact id
      · rw [applied.home]
        exact applied.kept _ _ (by simp [isUser, isArg]) addresses.behind
    · have payload := Value.payload_of_nature (nature value)
      refine ⟨fun _ => trivial, ?_, ?_⟩
      · rw [opcode, payload]
        exact (served.proper value).const
      · rw [opcode, payload]
        exact (served.proper value).globalVar
  · exact (entry.trans frame.entry).trans arranged.entry
  · rw [entry, frame.entry, hasBlock, frame.hasBlock]
    exact arranged.hasEntry
  · exact applied.tidy
  · intro block value found
    rw [applied.home]
    rcases cases found with ⟨pending, waits, rfl, rfl⟩ | before
    · exact (prepared.waits pending waits).2.2
    · rw [Value.block_eq_of_shell (kept block value before)]
      exact arranged.home block value before
  · intro block
    obtain ⟨values, inside, perm⟩ := placed block
    refine (perm.nodup_iff.2 (List.nodup_append.2 ⟨?_, arranged.once block, ?_⟩)).sublist inside
    · exact prepared.distinct.sublist (List.filter_sublist.map _)
    · rintro _ waits value before rfl
      obtain ⟨pending, isPending, rfl⟩ := List.mem_map.1 waits
      exact (prepared.waits pending (List.mem_of_mem_filter isPending)).2.1
        (arranged.tidy.made block _ before)
  · exact fun block has => laidOut block ((hasBlock block).1 has)
  · intro value found isPhi
    rw [opcode] at isPhi
    rw [entry, frame.entry] at found
    rcases cases found with ⟨pending, waits, -, rfl⟩ | before
    · exact (Opcode.of_isInterface (aims.kinds pending.value (List.mem_map_of_mem waits))).2.2.1 isPhi
    · have same : (graph.value value).opcode = (start.value value).opcode :=
        congrArg (fun value => value.opcode) (kept _ value before)
      exact arranged.noPhis value before (same.symm.trans isPhi)

end Arranged

end Graph

end Shader
