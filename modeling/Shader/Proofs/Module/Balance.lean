import Shader.Proofs.Module.Emission

/-! # Ids and results

Every id that a module gives is the result of one instruction in the end. Until then some ids are still
owed: a function is called before it is written. -/

namespace Shader

namespace Table

variable {κ α : Type} [DecidableEq κ] {table : Table κ α} {key other : κ} {value : α} {known : Set κ}

def Distinct (table : Table κ α) : Prop :=
  (table.entries.map Prod.fst).Nodup

open Classical in
noncomputable def outside (known : Set κ) (table : Table κ α) : Multiset α :=
  ((table.entries.filter fun entry => entry.1 ∉ known).map Prod.snd : List α)

section Entries

omit [DecidableEq κ]

theorem distinct_empty : ({} : Table κ α).Distinct := List.nodup_nil

theorem outside_cons_of_mem {entries : List (κ × α)} (inside : key ∈ known) :
    (⟨(key, value) :: entries⟩ : Table κ α).outside known = (⟨entries⟩ : Table κ α).outside known := by
  simp [outside, inside]

theorem outside_cons_of_notMem {entries : List (κ × α)} (new : key ∉ known) :
    (⟨(key, value) :: entries⟩ : Table κ α).outside known =
      value ::ₘ (⟨entries⟩ : Table κ α).outside known := by
  simp [outside, new]

end Entries

theorem find?_eq_none_iff : table.find? key = none ↔ ∀ entry ∈ table.entries, entry.1 ≠ key := by
  unfold find?
  induction table.entries with
  | nil => simp
  | cons entry rest ih =>
    obtain ⟨first, value⟩ := entry
    by_cases same : key = first
    · simp [same]
    · have unequal : (key == first) = false := by simpa using same
      simp [List.lookup, unequal, ih, Ne.symm same]

theorem erase_of_find?_eq_none (missing : table.find? key = none) : table.erase key = table := by
  obtain ⟨entries⟩ := table
  refine congrArg Table.mk (List.filter_eq_self.2 fun entry found => ?_)
  simpa using find?_eq_none_iff.1 missing entry found

theorem Distinct.insert (distinct : table.Distinct) : (table.insert key value).Distinct := by
  refine List.nodup_cons.2 ⟨?_, distinct.sublist ((List.filter_sublist).map _)⟩
  simp [erase]

theorem outside_insert_of_mem (inside : key ∈ known) :
    (table.insert key value).outside known = table.outside known := by
  simp only [outside, insert, erase, List.filter_cons, List.filter_filter]
  rw [if_neg (by simpa using inside)]
  refine congrArg (fun entries => ((entries : List (κ × α)).map Prod.snd : Multiset α))
    (List.filter_congr fun entry _ => ?_)
  by_cases same : entry.1 = key
  · simp [same, inside]
  · simp [same]

theorem outside_insert_of_notMem (missing : table.find? key = none) (new : key ∉ known) :
    (table.insert key value).outside known = value ::ₘ table.outside known := by
  rw [insert, erase_of_find?_eq_none missing]
  exact outside_cons_of_notMem new

theorem outside_insert_known_of_none (missing : table.find? key = none) :
    table.outside (Insert.insert key known) = table.outside known := by
  refine congrArg (fun entries => ((entries : List (κ × α)).map Prod.snd : Multiset α))
    (List.filter_congr fun entry found => ?_)
  simp [find?_eq_none_iff.1 missing entry found]

theorem outside_eq_cons (distinct : table.Distinct) (found : table.find? key = some value)
    (new : key ∉ known) :
    table.outside known = value ::ₘ table.outside (Insert.insert key known) := by
  obtain ⟨entries⟩ := table
  induction entries with
  | nil => cases found
  | cons entry rest ih =>
    obtain ⟨first, content⟩ := entry
    obtain ⟨alone, distinct⟩ := List.nodup_cons.1 distinct
    by_cases same : key = first
    · subst same
      obtain rfl : content = value := by simpa [find?] using found
      have missing : (⟨rest⟩ : Table κ α).find? key = none := find?_eq_none_iff.2 fun entry inside isKey =>
          alone (List.mem_map.2 ⟨entry, inside, isKey⟩)
      rw [outside_cons_of_notMem new, outside_cons_of_mem (Set.mem_insert key known),
        outside_insert_known_of_none missing]
    · have unequal : (key == first) = false := by simpa using same
      have goesOn := ih distinct (by simpa [find?, List.lookup, unequal] using found)
      by_cases isKnown : first ∈ known
      · rw [outside_cons_of_mem isKnown, outside_cons_of_mem (Set.mem_insert_of_mem key isKnown), goesOn]
      · have isNew : first ∉ Insert.insert key known := by simp [isKnown, Ne.symm same]
        rw [outside_cons_of_notMem isKnown, outside_cons_of_notMem isNew, goesOn, Multiset.cons_swap]

theorem outside_eq_zero (all : ∀ key value, table.find? key = some value → key ∈ known) :
    table.outside known = 0 := by
  unfold outside
  rw [List.filter_eq_nil_iff.2]
  · rfl
  · intro entry inside
    cases found : table.find? entry.1 with
    | none => exact absurd rfl (find?_eq_none_iff.1 found entry inside)
    | some value => simpa using all _ value found

end Table

def Instruction.allResults (instructions : List Instruction) : Multiset Id :=
  (instructions.flatMap results : List Id)

namespace Instruction

@[simp] theorem allResults_nil : allResults [] = 0 := rfl

@[simp] theorem allResults_append (first second : List Instruction) :
    allResults (first ++ second) = allResults first + allResults second := by
  simp [allResults]

theorem allResults_cons (first : Instruction) (rest : List Instruction) :
    allResults (first :: rest) = (first.results : Multiset Id) + allResults rest := by
  simp [allResults]

theorem allResults_perm {first second : List Instruction} (perm : first.Perm second) :
    allResults first = allResults second :=
  Multiset.coe_eq_coe.2 (perm.flatMap_right _)

end Instruction

def Part.of (sections : Sections) : Part → List Instruction
  | .imports => sections.imports
  | .entryPoints => sections.entryPoints
  | .executionModes => sections.executionModes
  | .names => sections.names
  | .annotations => sections.annotations
  | .globals => sections.globals

/-- Every section has the instructions that belong there. -/
structure Sections.Sorted (sections : Sections) : Prop where
  capabilities : sections.capabilities ≠ []
  parts : ∀ part : Part, ∀ instruction ∈ part.of sections, instruction.opcode ∈ part.opcodes

theorem Sections.sorted_empty : ({} : Sections).Sorted :=
  ⟨by simp, fun part _ found => by cases part <;> cases found⟩

theorem Sections.Sorted.add {sections : Sections} {part : Part} {instruction : Instruction}
    (sorted : sections.Sorted) (kind : instruction.opcode ∈ part.opcodes) :
    (sections.add part instruction).Sorted := by
  refine ⟨?_, fun other found inside => ?_⟩
  · cases part <;> exact sorted.capabilities
  · have split : found ∈ other.of sections ∨ (found = instruction ∧ other = part) := by
      cases part <;> cases other <;>
        simp only [Part.of, Sections.add, List.mem_append, List.mem_singleton] at inside ⊢ <;> tauto
    rcases split with old | ⟨rfl, rfl⟩
    · exact sorted.parts other found old
    · exact kind

theorem appendNew_ne_nil {α : Type} [DecidableEq α] {items : List α} {item : α} (some : items ≠ []) :
    appendNew items item ≠ [] := by
  unfold appendNew
  split_ifs
  · exact some
  · simp

theorem mem_appendNew {α : Type} [DecidableEq α] {items : List α} {item other : α} :
    other ∈ appendNew items item ↔ other ∈ items ∨ other = item := by
  unfold appendNew
  split_ifs with inside
  · exact ⟨.inl, fun found => found.elim id fun same => same ▸ inside⟩
  · simp

namespace Emitter

variable {current written : Set FunctionId} {emitter middle after : Emitter} {id : Id}
  {function : FunctionId} {rest : Multiset Id}

/-! ## What stays -/

/-- What changes outside of functions leave as it is. Functions get ids only where they are called, or
when it is their turn. -/
structure Keeps (current : Set FunctionId) (emitter after : Emitter) : Prop where
  functions : after.sections.functions = emitter.sections.functions
  names : emitter.sections.names ⊆ after.sections.names
  emitted : after.emitted = emitter.emitted
  entryOrder : after.entryOrder = emitter.entryOrder
  called : emitter.called ⊆ after.called
  functionIds : ∀ function id, emitter.functionIds.find? function = some id →
    after.functionIds.find? function = some id
  known : ∀ function id, after.functionIds.find? function = some id →
    emitter.functionIds.find? function = some id ∨ function ∈ after.called ∨ function ∈ current

theorem keeps_refl : Keeps current emitter emitter :=
  ⟨rfl, List.Subset.refl _, rfl, rfl, List.Subset.refl _, fun _ _ found => found, fun _ _ found => .inl found⟩

theorem Keeps.trans (first : Keeps current emitter middle) (second : Keeps current middle after) :
    Keeps current emitter after where
  functions := second.functions.trans first.functions
  names := List.Subset.trans first.names second.names
  emitted := second.emitted.trans first.emitted
  entryOrder := second.entryOrder.trans first.entryOrder
  called := List.Subset.trans first.called second.called
  functionIds function id found := second.functionIds function id (first.functionIds function id found)
  known function id found := by
    rcases second.known function id found with old | known
    · exact (first.known function id old).imp_right (.imp_left fun isCalled => second.called isCalled)
    · exact .inr known

theorem Change.keeps (change : Change current emitter after) : Keeps current emitter after := by
  have add (part : Part) (instruction : Instruction) (lastId : Id) : Keeps current emitter
      { emitter with lastId, sections := emitter.sections.add part instruction } := by
    cases part
    case names =>
      exact { keeps_refl with names := List.subset_append_left _ _ }
    all_goals exact { keeps_refl with }
  cases change with
  | define part room => exact add part _ _
  | put part => exact add part _ _
  | require capability => exact { keeps_refl with }
  | note same =>
    refine ⟨by rw [same.sections], by rw [same.sections]; exact List.Subset.refl _, same.emitted,
      same.entryOrder, by rw [same.called]; exact List.Subset.refl _, ?_, ?_⟩
    · rw [same.functionIds]
      exact fun _ _ found => found
    · rw [same.functionIds]
      exact fun _ _ found => .inl found
  | @functionId function room new known =>
    refine { @keeps_refl current emitter with
      functionIds := fun other id found => ?_, known := fun other id found => ?_ }
    · have differs : other ≠ function := by
        rintro rfl
        rw [new] at found
        cases found
      rwa [Table.find?_insert_of_ne _ _ differs]
    · by_cases same : other = function
      · exact .inr (same ▸ known)
      · rw [Table.find?_insert_of_ne _ _ same] at found
        exact .inl found
  | call function =>
    exact { keeps_refl with called := fun other isCalled => mem_appendNew.2 (.inl isCalled) }
  | interface has => exact { keeps_refl with }

theorem Changes.keeps (changes : Changes current emitter after) : Keeps current emitter after := by
  induction changes with
  | refl => exact keeps_refl
  | tail _ change ih => exact ih.trans change.keeps

/-! ## Given ids -/

def given (last : Id) : Multiset Id :=
  (Multiset.range last.toNat).map fun number => UInt32.ofNat (number + 1)

theorem mem_given {last : Id} : id ∈ given last ↔ 0 < id.toNat ∧ id.toNat ≤ last.toNat := by
  have small := last.toNat_lt
  simp only [given, Multiset.mem_map, Multiset.mem_range]
  constructor
  · rintro ⟨number, bound, rfl⟩
    rw [UInt32.toNat_ofNat_of_lt' (by simp only [UInt32.size]; omega)]
    omega
  · rintro ⟨positive, bound⟩
    refine ⟨id.toNat - 1, by omega, ?_⟩
    rw [Nat.sub_add_cancel positive]
    exact UInt32.ofNat_toNat

theorem nodup_given (last : Id) : (given last).Nodup := by
  have small := last.toNat_lt
  refine Multiset.Nodup.map_on ?_ (Multiset.nodup_range _)
  intro first isFirst second isSecond same
  rw [Multiset.mem_range] at isFirst isSecond
  have numbers := congrArg UInt32.toNat same
  rw [UInt32.toNat_ofNat_of_lt' (by simp only [UInt32.size]; omega),
    UInt32.toNat_ofNat_of_lt' (by simp only [UInt32.size]; omega)] at numbers
  omega

theorem HasRoom.given_next (room : emitter.HasRoom) :
    given (emitter.lastId + 1) = (emitter.lastId + 1) ::ₘ given emitter.lastId := by
  have next : UInt32.ofNat (emitter.lastId.toNat + 1) = emitter.lastId + 1 := by
    rw [← room.toNat_next]
    exact UInt32.ofNat_toNat
  rw [given, room.toNat_next, Multiset.range_succ, Multiset.map_cons, next]
  rfl

theorem HasRoom.bounded_next (room : emitter.HasRoom) : (emitter.lastId + 1).toNat + 1 < UInt32.size := by
  rw [room.toNat_next]
  exact room

/-! ## Owed ids -/

/-- The given ids are the results of instructions, the ids of functions that are not written, and the
rest. -/
structure Accounts (written : Set FunctionId) (rest : Multiset Id) (emitter : Emitter) : Prop where
  valid : emitter.Valid
  sorted : emitter.sections.Sorted
  distinct : emitter.functionIds.Distinct
  noted : ∀ function ∈ written, ∃ id, emitter.functionIds.find? function = some id
  bounded : emitter.lastId.toNat + 1 < UInt32.size
  balance : given emitter.lastId = Instruction.allResults emitter.sections.instructions +
    emitter.functionIds.outside written + rest

theorem accounts_empty : ({} : Emitter).Accounts ∅ 0 where
  valid := by
    refine ⟨?_, ?_, ?_, ?_, ?_, ?_, ?_, ?_, ?_, ?_, ?_, ?_⟩
    · intro instruction found id isUsed
      have all : instruction = .capability .shader ∨ instruction = .memoryModel := by
        simpa [Sections.instructions] using found
      rcases all with rfl | rfl <;> cases isUsed
    · rintro _ ⟨⟩
    all_goals rintro _ _ ⟨⟩
  sorted := Sections.sorted_empty
  distinct := Table.distinct_empty
  noted := fun _ missing => absurd missing (Set.notMem_empty _)
  bounded := by decide
  balance := rfl

theorem allResults_add {sections : Sections} {part : Part} {instruction : Instruction} :
    Instruction.allResults (sections.add part instruction).instructions =
      (instruction.results : Multiset Id) + Instruction.allResults sections.instructions := by
  rw [Instruction.allResults_perm Sections.perm_add, Instruction.allResults_cons]

theorem allResults_capabilities {sections : Sections} {capabilities : List Capability} :
    Instruction.allResults { sections with capabilities }.instructions =
      Instruction.allResults sections.instructions := by
  have none (capabilities : List Capability) : Instruction.allResults (capabilities.map .capability) = 0 := by
    induction capabilities with
    | nil => rfl
    | cons capability rest ih =>
      rw [List.map_cons, Instruction.allResults_cons, ih]
      rfl
  simp only [Sections.instructions, Instruction.allResults_append, none]

theorem Change.accounts (change : Change current emitter after) (accounts : emitter.Accounts written rest) :
    after.Accounts written rest := by
  refine ⟨change.valid accounts.valid, ?_, ?_, ?_, ?_, ?_⟩
  · cases change with
    | define part room results uses kind => exact accounts.sorted.add kind
    | put part results uses kind => exact accounts.sorted.add kind
    | require capability => exact ⟨appendNew_ne_nil accounts.sorted.capabilities, accounts.sorted.parts⟩
    | note same => exact same.sections ▸ accounts.sorted
    | _ => exact accounts.sorted
  · cases change with
    | functionId room new known => exact accounts.distinct.insert
    | note same => exact same.functionIds ▸ accounts.distinct
    | _ => exact accounts.distinct
  · intro function isWritten
    obtain ⟨id, found⟩ := accounts.noted function isWritten
    exact ⟨id, change.keeps.functionIds function id found⟩
  · cases change with
    | define part room => exact room.bounded_next
    | functionId room => exact room.bounded_next
    | note same => exact same.lastId ▸ accounts.bounded
    | _ => exact accounts.bounded
  · have balance := accounts.balance
    cases change with
    | define part room results uses kind =>
      rw [room.given_next, balance, allResults_add, results, Multiset.coe_singleton, ← Multiset.singleton_add]
      ac_rfl
    | put part results uses kind => rw [balance, allResults_add, results, Multiset.coe_nil, zero_add]
    | require capability =>
      have same := @allResults_capabilities emitter.sections
        (appendNew emitter.sections.capabilities capability)
      exact balance.trans (by rw [same])
    | note same => rw [same.lastId, same.sections, same.functionIds, balance]
    | @functionId function room new known =>
      have isNew : function ∉ written := fun isWritten => by
        obtain ⟨id, found⟩ := accounts.noted function isWritten
        rw [new] at found
        cases found
      rw [room.given_next, balance, Table.outside_insert_of_notMem new isNew,
        ← Multiset.singleton_add, ← Multiset.singleton_add]
      ac_rfl
    | call function => exact balance
    | interface has => exact balance

theorem Changes.accounts (changes : Changes current emitter after)
    (accounts : emitter.Accounts written rest) : after.Accounts written rest := by
  induction changes with
  | refl => exact accounts
  | tail _ change ih => exact change.accounts ih

theorem Accounts.fresh (accounts : emitter.Accounts written rest) (room : emitter.HasRoom) :
    { emitter with lastId := emitter.lastId + 1 }.Accounts written ((emitter.lastId + 1) ::ₘ rest) where
  valid := accounts.valid.mono ((Nat.le_succ _).trans room.toNat_next.ge)
  sorted := accounts.sorted
  distinct := accounts.distinct
  noted := accounts.noted
  bounded := room.bounded_next
  balance := by
    rw [room.given_next, accounts.balance, Multiset.add_cons]

theorem Accounts.start (accounts : emitter.Accounts written rest)
    (found : emitter.functionIds.find? function = some id) (new : function ∉ written) :
    emitter.Accounts (insert function written) (id ::ₘ rest) where
  valid := accounts.valid
  sorted := accounts.sorted
  distinct := accounts.distinct
  noted := by
    rintro other (rfl | isWritten)
    · exact ⟨id, found⟩
    · exact accounts.noted other isWritten
  bounded := accounts.bounded
  balance := by
    rw [accounts.balance, Table.outside_eq_cons accounts.distinct found new, Multiset.add_cons,
      Multiset.cons_add, Multiset.add_cons]

theorem Accounts.settled (accounts : emitter.Accounts written 0)
    (all : ∀ function id, emitter.functionIds.find? function = some id → function ∈ written) :
    Instruction.allResults emitter.sections.instructions = given emitter.lastId := by
  rw [accounts.balance, Table.outside_eq_zero all, add_zero, add_zero]

end Emitter

end Shader
