import Shader.Module.Assembly
import Shader.Proofs.Module.Instructed

/-! # The changes of a module

Everything that writing a module does outside of functions is one of few changes: a declaration with a
new id, a name, a decoration, a note of what was declared.

There is one lemma for each step, `Emit.Gives` is what it says. -/

namespace Shader

open Relation (ReflTransGen)

/-! ## Sections -/

/-- The sections that are written one instruction after the other, outside of functions. -/
inductive Part where
  | imports
  | entryPoints
  | executionModes
  | names
  | annotations
  | globals
  deriving DecidableEq

def Part.opcodes : Part → List Word
  | .imports => [11]
  | .entryPoints => [15]
  | .executionModes => [16]
  | .names => [5, 6]
  | .annotations => [71, 72]
  | .globals => [19, 20, 21, 22, 23, 30, 32, 33, 41, 42, 43, 46, 1, 59]

namespace Sections

variable {sections : Sections} {part : Part} {instruction other : Instruction}

def add (sections : Sections) (part : Part) (instruction : Instruction) : Sections :=
  match part with
  | .imports => { sections with imports := sections.imports ++ [instruction] }
  | .entryPoints => { sections with entryPoints := sections.entryPoints ++ [instruction] }
  | .executionModes => { sections with executionModes := sections.executionModes ++ [instruction] }
  | .names => { sections with names := sections.names ++ [instruction] }
  | .annotations => { sections with annotations := sections.annotations ++ [instruction] }
  | .globals => { sections with globals := sections.globals ++ [instruction] }

theorem perm_add : (sections.add part instruction).instructions.Perm
    (instruction :: sections.instructions) := by
  rw [← Multiset.coe_eq_coe, ← Multiset.cons_coe, ← Multiset.singleton_add]
  cases part <;> simp only [add, instructions, ← Multiset.coe_add, Multiset.coe_singleton] <;> abel

theorem mem_add : other ∈ (sections.add part instruction).instructions ↔
    other = instruction ∨ other ∈ sections.instructions := by
  rw [perm_add.mem_iff, List.mem_cons]

end Sections

/-! ## Modules -/

namespace Emitter

variable {current : Set FunctionId} {emitter middle after : Emitter} {id : Id}

def Has (emitter : Emitter) (id : Id) : Prop :=
  0 < id.toNat ∧ id.toNat ≤ emitter.lastId.toNat

def HasRoom (emitter : Emitter) : Prop :=
  emitter.lastId.toNat + 2 < UInt32.size

theorem HasRoom.toNat_next (room : emitter.HasRoom) :
    (emitter.lastId + 1).toNat = emitter.lastId.toNat + 1 := by
  have small : emitter.lastId.toNat + 1 < 2 ^ 32 := by
    have := room
    unfold HasRoom UInt32.size at this
    omega
  rw [UInt32.toNat_add]
  exact Nat.mod_eq_of_lt small

def HasInterface (emitter : Emitter) (interface : EntryInterface) : Prop :=
  (∀ var id, interface.uniforms.find? var = some id → emitter.Has id) ∧
    (∀ id ∈ interface.inputs, emitter.Has id) ∧ ∀ output ∈ interface.outputs, emitter.Has output.2

structure Valid (emitter : Emitter) : Prop where
  used : ∀ instruction ∈ emitter.sections.instructions, ∀ id ∈ instruction.uses, emitter.Has id
  extendedSet : ∀ id, emitter.extendedSet = some id → emitter.Has id
  types : ∀ key id, emitter.types.find? key = some id → emitter.Has id
  pointerTypes : ∀ key id, emitter.pointerTypes.find? key = some id → emitter.Has id
  functionTypes : ∀ key id, emitter.functionTypes.find? key = some id → emitter.Has id
  constants : ∀ key id, emitter.constants.find? key = some id → emitter.Has id
  nulls : ∀ key id, emitter.nulls.find? key = some id → emitter.Has id
  undefs : ∀ key id, emitter.undefs.find? key = some id → emitter.Has id
  wrappers : ∀ key id, emitter.wrappers.find? key = some id → emitter.Has id
  globalVars : ∀ key id, emitter.globalVars.find? key = some id → emitter.Has id
  functionIds : ∀ key id, emitter.functionIds.find? key = some id → emitter.Has id
  interfaces : ∀ key interface, emitter.interfaces.find? key = some interface → emitter.HasInterface interface

/-- Two modules differ only in what is noted of declarations. -/
structure SameBut (emitter after : Emitter) : Prop where
  lastId : after.lastId = emitter.lastId
  sections : after.sections = emitter.sections
  functionIds : after.functionIds = emitter.functionIds
  interfaces : after.interfaces = emitter.interfaces
  emitted : after.emitted = emitter.emitted
  called : after.called = emitter.called
  entryOrder : after.entryOrder = emitter.entryOrder

/-- One change of a module outside of functions. Functions get their ids when they are called, or when it
is their turn to be written. -/
inductive Change (current : Set FunctionId) : Emitter → Emitter → Prop where
  | define {emitter : Emitter} (part : Part) {instruction : Instruction} (room : emitter.HasRoom)
      (results : instruction.results = [emitter.lastId + 1])
      (uses : ∀ id ∈ instruction.uses, emitter.Has id) (kind : instruction.opcode ∈ part.opcodes) :
    Change current emitter
      { emitter with
        lastId := emitter.lastId + 1
        sections := emitter.sections.add part instruction }
  | put {emitter : Emitter} (part : Part) {instruction : Instruction}
      (results : instruction.results = []) (uses : ∀ id ∈ instruction.uses, emitter.Has id)
      (kind : instruction.opcode ∈ part.opcodes) :
    Change current emitter { emitter with sections := emitter.sections.add part instruction }
  | require {emitter : Emitter} (capability : Capability) :
    Change current emitter
      { emitter with
        sections :=
          { emitter.sections with
            capabilities := appendNew emitter.sections.capabilities capability } }
  | note {emitter after : Emitter} (same : emitter.SameBut after)
      (valid : emitter.Valid → after.Valid) : Change current emitter after
  | functionId {emitter : Emitter} {function : FunctionId} (room : emitter.HasRoom)
      (new : emitter.functionIds.find? function = none)
      (known : function ∈ emitter.called ∨ function ∈ current) :
    Change current emitter
      { emitter with
        lastId := emitter.lastId + 1
        functionIds := emitter.functionIds.insert function (emitter.lastId + 1) }
  | call {emitter : Emitter} (function : FunctionId) :
    Change current emitter { emitter with called := appendNew emitter.called function }
  | interface {emitter : Emitter} {function : FunctionId} {interface : EntryInterface}
      (has : emitter.HasInterface interface) :
    Change current emitter
      { emitter with interfaces := emitter.interfaces.insert function interface }

abbrev Changes (current : Set FunctionId) : Emitter → Emitter → Prop :=
  ReflTransGen (Change current)

/-! ### What changes keep -/

theorem Change.le (change : Change current emitter after) : emitter.lastId.toNat ≤ after.lastId.toNat := by
  cases change with
  | define _ room => exact (Nat.le_succ _).trans room.toNat_next.ge
  | functionId room => exact (Nat.le_succ _).trans room.toNat_next.ge
  | note same => rw [same.lastId]
  | _ => exact le_rfl

theorem Changes.le (changes : Changes current emitter after) : emitter.lastId.toNat ≤ after.lastId.toNat := by
  induction changes with
  | refl => exact le_rfl
  | tail _ change ih => exact ih.trans change.le

theorem Has.mono (has : emitter.Has id) (le : emitter.lastId.toNat ≤ after.lastId.toNat) : after.Has id :=
  ⟨has.1, has.2.trans le⟩

theorem Has.changes (has : emitter.Has id) (changes : Changes current emitter after) : after.Has id :=
  has.mono changes.le

theorem HasInterface.mono {interface : EntryInterface} (has : emitter.HasInterface interface)
    (le : emitter.lastId.toNat ≤ after.lastId.toNat) : after.HasInterface interface :=
  ⟨fun var id found => (has.1 var id found).mono le, fun id found => (has.2.1 id found).mono le,
    fun output found => (has.2.2 output found).mono le⟩

theorem HasRoom.has_next (room : emitter.HasRoom) (isNext : after.lastId = emitter.lastId + 1) :
    after.Has (emitter.lastId + 1) := by
  refine ⟨?_, by rw [isNext]⟩
  rw [room.toNat_next]
  exact Nat.succ_pos _

theorem Valid.mono {lastId : Id} {emitted called entryOrder : List FunctionId} (valid : emitter.Valid)
    (le : emitter.lastId.toNat ≤ lastId.toNat) :
    Valid { emitter with lastId, emitted, called, entryOrder } where
  used instruction found id isUsed := (valid.used instruction found id isUsed).mono le
  extendedSet id found := (valid.extendedSet id found).mono le
  types key id found := (valid.types key id found).mono le
  pointerTypes key id found := (valid.pointerTypes key id found).mono le
  functionTypes key id found := (valid.functionTypes key id found).mono le
  constants key id found := (valid.constants key id found).mono le
  nulls key id found := (valid.nulls key id found).mono le
  undefs key id found := (valid.undefs key id found).mono le
  wrappers key id found := (valid.wrappers key id found).mono le
  globalVars key id found := (valid.globalVars key id found).mono le
  functionIds key id found := (valid.functionIds key id found).mono le
  interfaces key interface found := (valid.interfaces key interface found).mono le

theorem has_insert {κ : Type} [DecidableEq κ] {table : Table κ Id} {key : κ} {id : Id}
    (valid : ∀ key id, table.find? key = some id → emitter.Has id) (has : emitter.Has id) (other : κ)
    (found : Id) (isFound : (table.insert key id).find? other = some found) : emitter.Has found := by
  by_cases isKey : other = key
  · subst isKey
    rw [Table.find?_insert_self] at isFound
    cases isFound
    exact has
  · rw [Table.find?_insert_of_ne _ _ isKey] at isFound
    exact valid other found isFound

theorem Valid.add {part : Part} {instruction : Instruction} (valid : emitter.Valid)
    (uses : ∀ id ∈ instruction.uses, emitter.Has id) :
    Valid { emitter with sections := emitter.sections.add part instruction } := by
  refine { valid with used := fun other found => ?_ }
  rcases Sections.mem_add.1 found with rfl | found
  · exact uses
  · exact valid.used other found

theorem Change.valid (change : Change current emitter after) (valid : emitter.Valid) : after.Valid := by
  have le := change.le
  cases change with
  | define part room results uses kind =>
    exact (valid.mono le).add fun id isUsed => (uses id isUsed).mono le
  | put part results uses kind => exact valid.add uses
  | require capability =>
    refine { valid with used := fun other found => ?_ }
    by_cases isCapability : ∃ capability, other = .capability capability
    · obtain ⟨capability, rfl⟩ := isCapability
      exact fun id isUsed => absurd isUsed List.not_mem_nil
    · refine valid.used other ?_
      simp only [Sections.instructions, List.mem_append, List.mem_map] at found ⊢
      grind
  | note same keeps => exact keeps valid
  | functionId room new known =>
    have more : Valid { emitter with lastId := emitter.lastId + 1 } := valid.mono le
    exact { more with functionIds := has_insert more.functionIds (room.has_next rfl) }
  | call function => exact valid.mono le
  | @interface function interface has =>
    refine { valid with interfaces := fun key other found => ?_ }
    by_cases isKey : key = function
    · subst isKey
      rw [Table.find?_insert_self] at found
      cases found
      exact has
    · rw [Table.find?_insert_of_ne _ _ isKey] at found
      exact valid.interfaces key other found

theorem Changes.valid (changes : Changes current emitter after) (valid : emitter.Valid) : after.Valid := by
  induction changes with
  | refl => exact valid
  | tail _ change ih => exact change.valid ih

end Emitter

namespace Emit

variable {target : Id} {text : String} {type : TypeId} {function : Function}

open Emitter

variable {α β : Type} {current : Set FunctionId} {emitter : Emitter} {program : Program}

/-! ## Steps -/

/-- If a step on a valid module succeeds, the module has only changed in the known ways, and the result
has a property. -/
def Gives (current : Set FunctionId) (step : Emit α) (emitter : Emitter)
    (good : α → Emitter → Prop) : Prop :=
  emitter.Valid → ∀ result after, step emitter = .ok result after →
    Changes current emitter after ∧ good result after

theorem gives_pure {result : α} {good : α → Emitter → Prop} (holds : good result emitter) :
    Gives current (pure result) emitter good := by
  rintro - _ _ ⟨⟩
  exact ⟨.refl, holds⟩

theorem gives_refuse {diagnostic : Diagnostic} {good : α → Emitter → Prop} :
    Gives current (refuse diagnostic) emitter good := by
  rintro - _ _ ⟨⟩

theorem gives_fail {fault : Fault} {good : α → Emitter → Prop} : Gives current (fail fault) emitter good := by
  rintro - _ _ ⟨⟩

theorem gives_get_bind {next : Emitter → Emit β} {good : β → Emitter → Prop}
    (continues : Gives current (next emitter) emitter good) :
    Gives current (get >>= next) emitter good :=
  continues

theorem bind_eq_ok {σ : Type} {step : EStateM Failure σ α} {next : α → EStateM Failure σ β}
    {state last : σ} {result : β} (runs : (step >>= next) state = .ok result last) :
    ∃ value middle, step state = .ok value middle ∧ next value middle = .ok result last := by
  change EStateM.bind step next state = .ok result last at runs
  unfold EStateM.bind at runs
  split at runs
  · rename_i value middle stepped
    exact ⟨value, middle, stepped, runs⟩
  · cases runs

theorem Gives.bind {step : Emit α} {next : α → Emit β} {between : α → Emitter → Prop}
    {good : β → Emitter → Prop} (first : Gives current step emitter between)
    (second : ∀ result after, Changes current emitter after → between result after →
      Gives current (next result) after good) : Gives current (step >>= next) emitter good := by
  intro valid result last runs
  obtain ⟨value, middle, stepped, runs⟩ := bind_eq_ok runs
  obtain ⟨changes, holds⟩ := first valid value middle stepped
  obtain ⟨changesOn, holds⟩ := second value middle changes holds (changes.valid valid) result last runs
  exact ⟨changes.trans changesOn, holds⟩

theorem gives_forM {items : List α} {step : α → Emit PUnit}
    (each : ∀ item after, Changes current emitter after → Gives current (step item) after fun _ _ => True) :
    Gives current (items.forM step) emitter fun _ _ => True := by
  induction items generalizing emitter with
  | nil => exact gives_pure trivial
  | cons item rest ih =>
    exact Gives.bind (each item emitter .refl) fun _ after changes _ =>
      ih fun other last changesOn => each other last (changes.trans changesOn)

theorem gives_mapM {items : List α} {step : α → Emit β} {good : β → Emitter → Prop}
    (stays : ∀ result emitter after, Changes current emitter after → good result emitter → good result after)
    (each : ∀ item after, Changes current emitter after → Gives current (step item) after good) :
    Gives current (items.mapM step) emitter fun results after =>
      ∀ result ∈ results, good result after := by
  have collect (items : List α) (reversed : List β) (middle : Emitter)
      (changes : Changes current emitter middle) (holds : ∀ result ∈ reversed, good result middle) :
      Gives current (List.mapM.loop step items reversed) middle fun results after =>
        ∀ result ∈ results, good result after := by
    induction items generalizing reversed middle with
    | nil => exact gives_pure (by simpa using holds)
    | cons item rest ih =>
      refine Gives.bind (each item middle changes) fun result after changesOn isGood => ?_
      refine ih (result :: reversed) after (changes.trans changesOn) fun other found => ?_
      rcases List.mem_cons.1 found with rfl | found
      · exact isGood
      · exact stays other middle after changesOn (holds other found)
  exact collect items [] emitter .refl (by simp)

/-- A step makes an id. -/
abbrev Makes (current : Set FunctionId) (step : Emit Id) (emitter : Emitter) : Prop :=
  Gives current step emitter fun id after => after.Has id

abbrev Alters (current : Set FunctionId) (step : Emit α) (emitter : Emitter) : Prop :=
  Gives current step emitter fun _ _ => True

theorem Alters.bind_has {step : Emit α} {next : α → Emit β} {good : β → Emitter → Prop} {id : Id}
    (first : Alters current step emitter) (has : emitter.Has id)
    (second : ∀ result after, after.Has id → Gives current (next result) after good) :
    Gives current (step >>= next) emitter good :=
  Gives.bind first fun result after changes _ => second result after (has.changes changes)

theorem gives_change {step : Emit PUnit} {change : Emitter → Emitter}
    (steps : step emitter = .ok .unit (change emitter))
    (changes : Change current emitter (change emitter)) : Alters current step emitter := by
  intro _ result after runs
  rw [steps] at runs
  cases runs
  exact ⟨.single changes, trivial⟩

/-! ## Writing -/

theorem freshId_eq_ok {after : Emitter} {id : Id} (runs : freshId emitter = .ok id after) :
    emitter.HasRoom ∧ id = emitter.lastId + 1 ∧
      after = { emitter with lastId := emitter.lastId + 1 } := by
  unfold freshId at runs
  obtain ⟨_, _, ⟨⟩, runs⟩ := bind_eq_ok runs
  split_ifs at runs with room
  · cases runs
    exact ⟨room, rfl, rfl⟩
  · cases runs

theorem define_gives {write : Id → Emit PUnit} (part : Part) {instruction : Id → Instruction}
    (writes : ∀ id emitter, write id emitter =
      .ok .unit { emitter with sections := emitter.sections.add part (instruction id) })
    (results : ∀ id, (instruction id).results = [id])
    (uses : ∀ result, ∀ id ∈ (instruction result).uses, emitter.Has id)
    (kind : ∀ result, part.opcodes.contains (instruction result).opcode = true) :
    Makes current (do
      let id ← freshId
      write id
      return id) emitter := by
  intro _ result after runs
  obtain ⟨id, middle, fresh, runs⟩ := bind_eq_ok runs
  obtain ⟨room, rfl, rfl⟩ := freshId_eq_ok fresh
  obtain ⟨_, last, written, runs⟩ := bind_eq_ok runs
  rw [writes] at written
  cases written
  cases runs
  exact ⟨.single (.define part room (results _) (uses _) (List.contains_iff_mem.1 (kind _))),
    room.has_next rfl⟩

theorem declareFresh_gives {instruction : Id → Instruction}
    (results : ∀ id, (instruction id).results = [id])
    (uses : ∀ result, ∀ id ∈ (instruction result).uses, emitter.Has id)
    (kind : ∀ result, Part.globals.opcodes.contains (instruction result).opcode = true) :
    Makes current (declareFresh instruction) emitter :=
  define_gives .globals (fun _ _ => rfl) results uses kind

theorem put_gives {step : Emit PUnit} (part : Part) {instruction : Instruction} (steps : step emitter =
      .ok .unit { emitter with sections := emitter.sections.add part instruction })
    (results : instruction.results = []) (uses : ∀ id ∈ instruction.uses, emitter.Has id)
    (kind : part.opcodes.contains instruction.opcode = true) : Alters current step emitter :=
  @gives_change _ emitter step
    (fun emitter => { emitter with sections := emitter.sections.add part instruction }) steps
    (.put part results uses (List.contains_iff_mem.1 kind))

theorem require_gives {capability : Capability} :
    Alters current (require capability) emitter := by
  intro _ _ _ runs
  cases runs
  exact ⟨.single (.require capability), trivial⟩

theorem name_gives (has : emitter.Has target) : Alters current (name target text) emitter :=
  put_gives .names rfl (by simp [Instruction.results]) (by simpa using has) rfl

theorem memberName_gives {member : Word} (has : emitter.Has target) :
    Alters current (addName (.memberName target member text)) emitter :=
  put_gives .names rfl (by simp [Instruction.results]) (by simpa using has) rfl

theorem decorate_gives {decoration : Decoration} (has : emitter.Has target) :
    Alters current (decorate target decoration) emitter :=
  put_gives .annotations rfl (by simp [Instruction.results]) (by simpa using has) rfl

theorem memberDecorate_gives {member : Nat} {decoration : Decoration} (has : emitter.Has target) :
    Alters current (memberDecorate target member decoration) emitter :=
  put_gives .annotations rfl (by simp [Instruction.results]) (by simpa using has) rfl

theorem intern_gives {find? : Emitter → Option Id} {note : Emitter → Id → Emitter} {make : Emit Id}
    (found : ∀ id, find? emitter = some id → emitter.Valid → emitter.Has id)
    (makes : Makes current make emitter)
    (notes : ∀ after id, after.Has id → Change current after (note after id)) :
    Makes current (intern find? note make) emitter := by
  unfold intern
  refine gives_get_bind ?_
  split
  · rename_i id isFound
    exact fun valid => gives_pure (found id isFound valid) valid
  · refine Gives.bind makes fun id after _ has => ?_
    have change := notes after id has
    refine Gives.bind (@gives_change _ after _ (fun after => note after id) rfl change) ?_
    exact fun _ last changes _ => gives_pure (has.changes changes)

/-! ## Notes -/

theorem extendedSet_gives : Makes current extendedSet emitter := by
  refine intern_gives (fun id found valid => valid.extendedSet id found) ?_ fun after id has => ?_
  · refine @define_gives _ _ _ .imports (fun id => .extInstImport id "GLSL.std.450") (fun _ _ => rfl)
      (by simp [Instruction.results]) (by simp) fun _ => rfl
  · refine .note ⟨rfl, rfl, rfl, rfl, rfl, rfl, rfl⟩ fun valid => { valid with extendedSet := ?_ }
    rintro _ ⟨⟩
    exact has

/-! ## Types -/

theorem pointerType_gives {memory : MemoryClass} {pointee : Id} (has : emitter.Has pointee) :
    Makes current (pointerType memory pointee) emitter := by
  refine intern_gives (fun id found valid => valid.pointerTypes _ id found)
    (declareFresh_gives (fun _ => rfl) (by simpa using has) fun _ => rfl)
    fun after id has => .note ⟨rfl, rfl, rfl, rfl, rfl, rfl, rfl⟩ fun valid =>
      { valid with pointerTypes := has_insert valid.pointerTypes has }

theorem functionType_gives {returnType : Id} {parameters : List Id} (has : emitter.Has returnType)
    (all : ∀ parameter ∈ parameters, emitter.Has parameter) :
    Makes current (functionType returnType parameters) emitter := by
  refine intern_gives (fun id found valid => valid.functionTypes _ id found)
    (declareFresh_gives (by simp [Instruction.results]) (by simpa using ⟨has, all⟩) fun _ => rfl)
    fun after id has => .note ⟨rfl, rfl, rfl, rfl, rfl, rfl, rfl⟩ fun valid =>
      { valid with functionTypes := has_insert valid.functionTypes has }

theorem requireInteger_gives {bits : Nat} : Alters current (requireInteger bits) emitter := by
  unfold requireInteger
  split
  · exact require_gives
  · exact require_gives
  · exact require_gives
  · exact gives_pure trivial

theorem primitiveType_gives {primitive : PrimitiveType} :
    Makes current (primitiveType primitive) emitter := by
  have declares {emitter : Emitter} {instruction : Id → Instruction}
      (results : ∀ id, (instruction id).results = [id]) (uses : ∀ id, (instruction id).uses = [])
      (kind : ∀ id, Part.globals.opcodes.contains (instruction id).opcode = true) :
      Makes current (declareFresh instruction) emitter :=
    declareFresh_gives results (by simp [uses]) kind
  cases primitive with
  | void => exact declares (fun _ => rfl) (fun _ => rfl) fun _ => rfl
  | bool => exact declares (fun _ => rfl) (fun _ => rfl) fun _ => rfl
  | int bits signed =>
    exact Gives.bind requireInteger_gives fun _ _ _ _ =>
      declares (fun _ => rfl) (fun _ => rfl) fun _ => rfl
  | float bits =>
    unfold primitiveType
    dsimp only
    split_ifs
    · exact Gives.bind require_gives fun _ _ _ _ =>
        declares (fun _ => rfl) (fun _ => rfl) fun _ => rfl
    · exact declares (fun _ => rfl) (fun _ => rfl) fun _ => rfl

theorem structType_gives {members : List Member} {types : List Id}
    (all : ∀ type ∈ types, emitter.Has type) :
    Makes current (structType text members types) emitter := by
  refine Gives.bind (declareFresh_gives (by simp [Instruction.results]) (by simpa using all)
    fun _ => rfl) fun id made _ has => ?_
  refine (name_gives has).bind_has has fun _ named has => ?_
  refine Alters.bind_has (gives_forM ?_) has fun _ last has => gives_pure has
  rintro ⟨member, index⟩ after changes
  exact memberName_gives (has.changes changes)

theorem typeIdWithin_gives (depth : Nat) (type : TypeId) (emitter : Emitter) :
    Makes current (typeIdWithin program depth type) emitter := by
  induction depth generalizing type emitter with
  | zero => exact gives_fail
  | succ depth ih =>
    refine intern_gives (fun id found valid => valid.types _ id found) ?_ fun after id has =>
      .note ⟨rfl, rfl, rfl, rfl, rfl, rfl, rfl⟩ fun valid =>
        { valid with types := has_insert valid.types has }
    split
    · exact primitiveType_gives
    · refine Gives.bind (ih _ _) fun component after _ has => 
        declareFresh_gives (fun _ => rfl) (by simpa using has) fun _ => rfl
    · refine Gives.bind (gives_mapM (fun _ _ _ changes has => has.changes changes) ?_)
        fun types after _ all => structType_gives all
      intro member after _
      split_ifs
      · exact gives_refuse
      · exact ih _ _
    · exact Gives.bind (ih _ _) fun pointee after _ has => pointerType_gives has

theorem typeId_gives : Makes current (typeId program type) emitter :=
  typeIdWithin_gives _ type emitter

/-! ## Buffers -/

theorem decorateMembers_gives {offsets : List Nat} :
    Alters current (decorateMembers program type offsets) emitter := by
  refine gives_get_bind ?_
  split_ifs
  · exact gives_pure trivial
  · have notes : Change current emitter { emitter with laidOut := emitter.laidOut ++ [type] } :=
      .note ⟨rfl, rfl, rfl, rfl, rfl, rfl, rfl⟩ fun valid => { valid with }
    refine Gives.bind (@gives_change _ emitter _ (fun emitter =>
      { emitter with laidOut := emitter.laidOut ++ [type] }) rfl notes) fun _ _ _ _ => ?_
    refine Gives.bind typeId_gives fun id after _ has => gives_forM ?_
    rintro ⟨offset, index⟩ last changes
    exact memberDecorate_gives (has.changes changes)

theorem uniformLayoutWithin_gives (depth : Nat) (type : TypeId) (emitter : Emitter) :
    Alters current (uniformLayoutWithin program depth type) emitter := by
  induction depth generalizing type emitter with
  | zero => exact gives_fail
  | succ depth ih =>
    unfold uniformLayoutWithin
    split
    iterate 5 exact gives_pure trivial
    · refine Gives.bind (gives_mapM (fun _ _ _ _ _ => trivial) fun member after _ =>
        ih _ _) fun layouts after _ _ => ?_
      exact Gives.bind decorateMembers_gives fun _ _ _ _ => gives_pure trivial
    · exact gives_refuse

theorem uniformWrapper_gives {pointee : TypeId} :
    Makes current (uniformWrapper program pointee) emitter := by
  refine intern_gives (fun id found valid => valid.wrappers _ id found) ?_ fun after id has =>
    .note ⟨rfl, rfl, rfl, rfl, rfl, rfl, rfl⟩ fun valid =>
      { valid with wrappers := has_insert valid.wrappers has }
  refine Gives.bind (uniformLayoutWithin_gives _ _ _) fun _ _ _ _ => ?_
  refine Gives.bind typeId_gives fun inner _ _ hasInner => ?_
  refine Gives.bind (declareFresh_gives (fun _ => rfl) (by simpa using hasInner) fun _ => rfl) fun id _ _ has => ?_
  refine (decorate_gives has).bind_has has fun _ _ has => ?_
  refine (memberDecorate_gives has).bind_has has fun _ _ has => ?_
  exact (name_gives has).bind_has has fun _ _ has => gives_pure has

/-! ## Constants and variables -/

theorem constantInstruction_ids {primitive : PrimitiveType} {type result : Id} {bits : UInt64} :
    (constantInstruction primitive type bits result).results = [result] ∧
      (constantInstruction primitive type bits result).uses = [type] ∧
      Part.globals.opcodes.contains (constantInstruction primitive type bits result).opcode = true := by
  unfold constantInstruction
  split
  · cases bits != 0 <;> exact ⟨rfl, rfl, rfl⟩
  iterate 3 exact ⟨rfl, rfl, rfl⟩

theorem constant_gives {literal : Literal} :
    Makes current (constant program type literal) emitter := by
  refine Gives.bind typeId_gives fun typeWord after _ hasType => ?_
  split
  · exact gives_refuse
  · split
    · exact gives_refuse
    · refine intern_gives (fun id found valid => valid.constants _ id found)
        (declareFresh_gives (fun _ => constantInstruction_ids.1) ?_ fun _ =>
          constantInstruction_ids.2.2) fun after id has =>
        .note ⟨rfl, rfl, rfl, rfl, rfl, rfl, rfl⟩ fun valid =>
          { valid with constants := has_insert valid.constants has }
      intro result id isUsed
      rw [constantInstruction_ids.2.1, List.mem_singleton] at isUsed
      rwa [isUsed]

theorem constantIndex_gives {index : Nat} :
    Makes current (constantIndex program index) emitter :=
  constant_gives

theorem constantNull_gives :
    Makes current (constantNull program type) emitter := by
  refine Gives.bind typeId_gives fun typeWord after _ hasType => ?_
  refine intern_gives (fun id found valid => valid.nulls _ id found) (declareFresh_gives (fun _ => rfl) (by simpa using hasType) fun _ => rfl)
    fun after id has => .note ⟨rfl, rfl, rfl, rfl, rfl, rfl, rfl⟩ fun valid =>
      { valid with nulls := has_insert valid.nulls has }

theorem undef_gives : Makes current (undef program type) emitter := by
  refine Gives.bind typeId_gives fun typeWord after _ hasType => ?_
  refine intern_gives (fun id found valid => valid.undefs _ id found) (declareFresh_gives (fun _ => rfl) (by simpa using hasType) fun _ => rfl)
    fun after id has => .note ⟨rfl, rfl, rfl, rfl, rfl, rfl, rfl⟩ fun valid =>
      { valid with undefs := has_insert valid.undefs has }

theorem initializer?_gives {init : Option ExprId} :
    Gives current (initializer? program init) emitter fun id after => ∀ word ∈ id, after.Has word := by
  cases init with
  | none => exact gives_pure (by simp)
  | some init =>
    have initializes : Makes current (initializer program init) emitter := by
      unfold initializer
      dsimp only
      split
      · exact constant_gives
      · exact gives_refuse
    exact Gives.bind initializes fun id after _ has => gives_pure (by simpa using has)

theorem globalVar_gives {var : VarId} :
    Makes current (globalVar program var) emitter := by
  refine intern_gives (fun id found valid => valid.globalVars _ id found) ?_ fun after id has =>
    .note ⟨rfl, rfl, rfl, rfl, rfl, rfl, rfl⟩ fun valid =>
      { valid with globalVars := has_insert valid.globalVars has }
  refine Gives.bind typeId_gives fun pointee _ _ hasPointee => ?_
  refine Gives.bind (pointerType_gives hasPointee) fun pointer _ _ hasPointer => ?_
  refine Gives.bind initializer?_gives fun init _ changes hasInit => ?_
  refine Gives.bind (declareFresh_gives (by simp [Instruction.results])
    (by simpa using ⟨hasPointer.changes changes, hasInit⟩) fun _ => rfl) fun id _ _ has => ?_
  exact (name_gives has).bind_has has fun _ _ has => gives_pure has

/-! ## Functions and entry points -/

theorem functionId_gives {function : FunctionId}
    (known : function ∈ emitter.called ∨ function ∈ current) :
    Gives current (functionId function) emitter fun id after =>
      after.Has id ∧ after.functionIds.find? function = some id := by
  intro valid result after runs
  unfold functionId intern at runs
  obtain ⟨_, _, ⟨⟩, runs⟩ := bind_eq_ok runs
  cases found : emitter.functionIds.find? function with
  | some id =>
    simp only [found] at runs
    cases runs
    exact ⟨.refl, valid.functionIds _ _ found, found⟩
  | none =>
    simp only [found] at runs
    obtain ⟨id, middle, fresh, runs⟩ := bind_eq_ok runs
    obtain ⟨room, rfl, rfl⟩ := freshId_eq_ok fresh
    cases runs
    exact ⟨.single (.functionId room found known), room.has_next rfl, Table.find?_insert_self _ _ _⟩

theorem noteCall_gives {function : FunctionId} :
    Gives current (noteCall function) emitter fun _ after => function ∈ after.called := by
  rintro - _ _ ⟨⟩
  refine ⟨.single (.call function), ?_⟩
  simp only [appendNew]
  split_ifs with isCalled
  · exact isCalled
  · simp

theorem declareVariable_gives {pointer : Id} {memory : MemoryClass} (has : emitter.Has pointer) :
    Makes current (declareVariable pointer memory) emitter := by
  exact declareFresh_gives (fun _ => rfl) (by simpa using has) fun _ => rfl

theorem declareUniform_gives {set place : UInt32} {argument : VarId} :
    Gives current (declareUniform program set place argument) emitter fun uniform after =>
      after.Has uniform.2 := by
  unfold declareUniform
  dsimp only
  split
  · exact gives_refuse
  · refine Gives.bind uniformWrapper_gives fun wrapper _ _ hasWrapper => ?_
    refine Gives.bind (pointerType_gives hasWrapper) fun pointer _ _ hasPointer => ?_
    refine Gives.bind (declareVariable_gives hasPointer) fun var _ _ has => ?_
    refine (decorate_gives has).bind_has has fun _ _ has => ?_
    refine (decorate_gives has).bind_has has fun _ _ has => ?_
    exact (name_gives has).bind_has has fun _ _ has => gives_pure has

theorem declareUniforms_gives : Gives current (declareUniforms program function) emitter fun uniforms after =>
      ∀ var id, uniforms.find? var = some id → after.Has id := by
  have declares : Gives current (function.vkBindings.entries.mapM fun entry =>
      declareUniform program entry.1.1 entry.1.2 entry.2.argument) emitter fun uniforms after =>
        ∀ uniform ∈ uniforms, after.Has uniform.2 := by
    refine gives_mapM (fun _ _ _ changes has => Has.changes has changes) ?_
    rintro ⟨⟨set, place⟩, bound⟩ after _
    exact declareUniform_gives
  refine Gives.bind declares fun uniforms after _ all => gives_pure ?_
  have collect (uniforms : List (VarId × Id)) (table : Table VarId Id)
      (all : ∀ uniform ∈ uniforms, after.Has uniform.2)
      (valid : ∀ var id, table.find? var = some id → after.Has id) (var : VarId) (id : Id)
      (found : (uniforms.foldl (fun table uniform => table.insert uniform.1 uniform.2)
        table).find? var = some id) : after.Has id := by
    induction uniforms generalizing table with
    | nil => exact valid var id found
    | cons uniform rest ih =>
      exact ih _ (fun other inside => all other (List.mem_cons_of_mem _ inside))
        (has_insert valid (all uniform List.mem_cons_self)) found
  exact collect uniforms {} all fun _ _ found => by cases found

theorem decorateInput_gives {member : Member} {var : Id} {location : Nat} (has : emitter.Has var) :
    Alters current (decorateInput program function member var location) emitter := by
  unfold decorateInput
  split_ifs
  · exact Gives.bind (decorate_gives has) fun _ _ _ _ => gives_pure trivial
  · refine (decorate_gives has).bind_has has fun _ _ has => ?_
    exact Gives.bind (decorate_gives has) fun _ _ _ _ => gives_pure trivial
  · exact Gives.bind (decorate_gives has) fun _ _ _ _ => gives_pure trivial

theorem declareInputs_gives {argument : String} {location : Nat} {members : List Member} :
    Gives current (declareInputs program function argument location members) emitter
      fun inputs after => ∀ id ∈ inputs, after.Has id := by
  induction members generalizing location emitter with
  | nil => exact gives_pure (by simp)
  | cons member rest ih =>
    refine Gives.bind typeId_gives fun type _ _ hasType => ?_
    refine Gives.bind (pointerType_gives hasType) fun pointer _ _ hasPointer => ?_
    refine Gives.bind (declareVariable_gives hasPointer) fun var _ _ has => ?_
    refine (decorateInput_gives has).bind_has has fun next _ has => ?_
    refine (name_gives has).bind_has has fun _ _ has => ?_
    refine Gives.bind ih fun vars _ changes others => gives_pure ?_
    intro id found
    rcases List.mem_cons.1 found with rfl | found
    · exact has.changes changes
    · exact others id found

theorem declareStageIn_gives : Gives current (declareStageIn program function) emitter fun inputs after =>
      ∀ id ∈ inputs, after.Has id := by
  unfold declareStageIn
  split
  · exact gives_pure (by simp)
  · exact declareInputs_gives

theorem declareOutput_gives {location : UInt32} :
    Makes current (declareOutput program type location text) emitter := by
  refine Gives.bind typeId_gives fun type _ _ hasType => ?_
  refine Gives.bind (pointerType_gives hasType) fun pointer _ _ hasPointer => ?_
  refine Gives.bind (declareVariable_gives hasPointer) fun var _ _ has => ?_
  refine (decorate_gives has).bind_has has fun _ _ has => ?_
  exact (name_gives has).bind_has has fun _ _ has => gives_pure has

theorem declareOutputs_gives : Gives current (declareOutputs program function) emitter fun outputs after =>
      ∀ output ∈ outputs, after.Has output.2 := by
  unfold declareOutputs
  split_ifs
  · exact gives_pure (by simp)
  · exact Gives.bind declareOutput_gives fun var _ _ has => gives_pure (by simpa using has)
  · refine gives_mapM (fun _ _ _ changes has => Has.changes has changes) ?_
    rintro ⟨member, index⟩ after _
    unfold declareOutputMember
    dsimp only
    split
    · exact gives_refuse
    · exact Gives.bind declareOutput_gives fun var _ _ has => gives_pure has

theorem entryHeader_gives {function : FunctionId} (isCurrent : function ∈ current) :
    Alters current (entryHeader program function) emitter := by
  unfold entryHeader
  dsimp only
  split_ifs
  · refine Gives.bind declareUniforms_gives fun uniforms _ _ hasUniforms => ?_
    refine Gives.bind declareStageIn_gives fun inputs _ first hasInputs => ?_
    refine Gives.bind declareOutputs_gives fun outputs _ second hasOutputs => ?_
    refine Gives.bind (functionId_gives (.inr isCurrent)) fun _ last third _ => ?_
    have has : last.HasInterface { uniforms, inputs, outputs } := by
      have changes := (first.trans second).trans third
      exact ⟨fun var id found => (hasUniforms var id found).changes changes,
        fun id found => (hasInputs id found).changes (second.trans third),
        fun output found => (hasOutputs output found).changes third⟩
    exact @gives_change _ last _ (fun emitter =>
      { emitter with
        interfaces := emitter.interfaces.insert function { uniforms, inputs, outputs } }) rfl
      (.interface has)
  · exact gives_pure trivial

theorem declareEntryPoint_gives {function : FunctionId} (isCurrent : function ∈ current) :
    Alters current (declareEntryPoint program function) emitter := by
  refine Gives.bind (functionId_gives (.inr isCurrent)) fun id middle _ ⟨has, _⟩ => ?_
  intro valid
  refine gives_get_bind (Gives.bind (put_gives .entryPoints rfl ?_ ?_ ?_) fun _ last changes _ => ?_) valid
  · simp [Instruction.results]
  · intro other isUsed
    obtain rfl | inside : other = id ∨ _ := by simpa using isUsed
    · exact has
    · cases found : middle.interfaces.find? function with
      | none => simp [found] at inside
      | some interface =>
        obtain ⟨-, inputs, outputs⟩ := valid.interfaces function interface found
        simp only [found, Option.map_some, Option.getD_some, EntryInterface.ids, List.mem_append,
          List.mem_map] at inside
        rcases inside with inside | ⟨output, inside, rfl⟩
        · exact inputs other inside
        · exact outputs output inside
  · rfl
  · split_ifs
    · exact put_gives .executionModes rfl (by simp [Instruction.results])
        (by simpa using has.changes changes) rfl
    · exact gives_pure trivial

end Emit

end Shader
