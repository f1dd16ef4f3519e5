import Shader.Proofs.Module.Emission

/-! # The layout of uniform buffers

Where the members of a struct in a uniform buffer stand, and what a module says about it.

* `Arranged` says that members at offsets are aligned, in order and apart from each other.
* `Program.layout?` is the layout of a type, without the module that it is written to.
* `Emitter.Arises` are the modules that come about by declaring types and buffers.
* `uniformLayout_sound` says that layouts are sound and that a struct has its offsets once, however
  often it is asked for. `uniformLayout_float3` is the one type whose size is no multiple of its
  alignment. -/

namespace Shader

/-! ## Offsets -/

/-- Members at offsets in a struct: each is aligned and ends before the next one starts and before the
struct ends, and the struct is aligned so that any number of them can stand in a row. -/
structure Arranged (members : List Layout) (offsets : List Nat) (whole : Layout) : Prop where
  length : offsets.length = members.length
  aligned : ∀ member ∈ offsets.zip members, member.2.alignment ∣ member.1
  inOrder : (offsets.zip members).Pairwise fun first second => first.1 + first.2.size ≤ second.1
  inside : ∀ member ∈ offsets.zip members, member.1 + member.2.size ≤ whole.size
  repeats : whole.alignment ∣ whole.size
  wide : 16 ≤ whole.alignment
  widest : ∀ member ∈ members, member.alignment ≤ whole.alignment

section Offsets

variable {members : List Layout} {start : Nat}

theorem length_placeMembers : (placeMembers start members).1.length = members.length := by
  induction members generalizing start with
  | nil => rfl
  | cons member rest ih => simp [placeMembers, ih]

theorem placeMembers_spec (positive : ∀ member ∈ members, 0 < member.alignment) :
    start ≤ (placeMembers start members).2 ∧
      (∀ member ∈ (placeMembers start members).1.zip members, member.2.alignment ∣ member.1 ∧
        start ≤ member.1 ∧ member.1 + member.2.size ≤ (placeMembers start members).2) ∧
      ((placeMembers start members).1.zip members).Pairwise fun first second =>
        first.1 + first.2.size ≤ second.1 := by
  induction members generalizing start with
  | nil => simp [placeMembers]
  | cons member rest ih =>
    have first := le_roundUp start (positive member List.mem_cons_self)
    obtain ⟨le, bounds, inOrder⟩ := @ih (roundUp start member.alignment + member.size)
      fun other found => positive other (List.mem_cons_of_mem _ found)
    simp only [placeMembers, List.zip_cons_cons, List.mem_cons, forall_eq_or_imp]
    refine ⟨by omega, ⟨⟨dvd_roundUp _ _, first, le⟩, fun other found => ?_⟩,
      .cons (fun other found => (bounds other found).2.1) inOrder⟩
    obtain ⟨aligned, behind, inside⟩ := bounds other found
    exact ⟨aligned, by omega, inside⟩

theorem le_structAlignment :
    16 ≤ structAlignment members ∧ ∀ member ∈ members, member.alignment ≤ structAlignment members := by
  have folds (members : List Layout) (bound : Nat) :
      bound ≤ members.foldl (fun alignment layout => max alignment layout.alignment) bound ∧
        ∀ member ∈ members, member.alignment ≤
          members.foldl (fun alignment layout => max alignment layout.alignment) bound := by
    induction members generalizing bound with
    | nil => simp
    | cons member rest ih =>
      obtain ⟨least, all⟩ := ih (max bound member.alignment)
      simp only [List.foldl_cons, List.mem_cons, forall_eq_or_imp]
      exact ⟨(le_max_left _ _).trans least, (le_max_right _ _).trans least, all⟩
  exact folds members 16

theorem structLayout_arranged (positive : ∀ member ∈ members, 0 < member.alignment) :
    Arranged members (placeMembers 0 members).1 (structLayout members) where
  length := length_placeMembers
  aligned member found := ((placeMembers_spec positive).2.1 member found).1
  inOrder := (placeMembers_spec positive).2.2
  inside member found := ((placeMembers_spec positive).2.1 member found).2.2.trans
    (le_roundUp _ (Nat.zero_lt_of_lt le_structAlignment.1))
  repeats := dvd_roundUp _ _
  wide := le_structAlignment.1
  widest := le_structAlignment.2

end Offsets

/-! ## Layouts -/

namespace Program

variable {program : Program} {type : TypeId} {layout : Layout} {layouts : List Layout} {depth : Nat}

/-- The layout of a type whose parts are nested less than `depth` deep. -/
def layoutWithin? (program : Program) : Nat → TypeId → Option Layout
  | 0, _ => none
  | depth + 1, type =>
    match (program.type type).kind with
    | .primitive (.int 32 _) | .primitive (.float 32) => some ⟨4, 4⟩
    | .primitive (.int 64 _) | .primitive (.float 64) => some ⟨8, 8⟩
    | .struct _ (some width) => some (vectorLayout width)
    | .struct members none =>
      (members.mapM fun member => program.layoutWithin? depth member.type).map structLayout
    | _ => none

/-- The layout of a type in a uniform buffer, if it can stand in one. -/
def layout? (program : Program) (type : TypeId) : Option Layout :=
  program.layoutWithin? (program.types.size + 1) type

def DeclaresStruct (program : Program) (type : TypeId) : Prop :=
  ∃ members, (program.type type).kind = .struct members none

def HasMember (program : Program) (struct type : TypeId) : Prop :=
  ∃ members, (program.type struct).kind = .struct members none ∧ ∃ member ∈ members, member.type = type

/-- The members of a struct have layouts, which make up that of the struct. -/
def Lays (program : Program) (type : TypeId) (layouts : List Layout) : Prop :=
  program.layout? type = some (structLayout layouts) ∧
    ∃ members, (program.type type).kind = .struct members none ∧
      members.mapM (fun member => program.layout? member.type) = some layouts

@[grind →]
theorem Lays.declaresStruct (lays : program.Lays type layouts) : program.DeclaresStruct type :=
  lays.2.imp fun _ holds => holds.1

theorem mapM_mono {α β : Type} {first second : α → Option β} {items : List α} {results : List β}
    (agree : ∀ item result, first item = some result → second item = some result)
    (found : items.mapM first = some results) : items.mapM second = some results := by
  induction items generalizing results with
  | nil => exact found
  | cons item rest ih =>
    simp only [List.mapM_cons, Option.bind_eq_bind, Option.bind_eq_some_iff] at found ⊢
    obtain ⟨result, head, others, tail, whole⟩ := found
    exact ⟨result, agree item result head, others, ih tail, whole⟩

theorem mem_of_mapM {α β : Type} {step : α → Option β} {items : List α} {results : List β}
    (found : items.mapM step = some results) : ∀ result ∈ results, ∃ item, step item = some result := by
  induction items generalizing results with
  | nil =>
    cases found
    simp
  | cons item rest ih =>
    simp only [List.mapM_cons, Option.bind_eq_bind, Option.bind_eq_some_iff] at found
    obtain ⟨first, head, others, tail, whole⟩ := found
    cases whole
    exact List.forall_mem_cons.2 ⟨⟨item, head⟩, ih tail⟩

theorem layoutWithin?_mono {more : Nat} (le : depth ≤ more)
    (found : program.layoutWithin? depth type = some layout) :
    program.layoutWithin? more type = some layout := by
  induction depth generalizing more type layout with
  | zero => cases found
  | succ depth ih =>
    obtain ⟨more, rfl⟩ : ∃ less, more = less + 1 := ⟨more - 1, by omega⟩
    unfold layoutWithin? at found ⊢
    split at found
    iterate 5
      rename_i kind
      simpa only [kind] using found
    · obtain ⟨layouts, each, rfl⟩ := Option.map_eq_some_iff.1 found
      have deeper := mapM_mono (fun _ _ => ih (Nat.le_of_succ_le_succ le)) each
      simp only [deeper, Option.map_some]
    · cases found

theorem lays_of_mapM {members : List Member} (enough : depth ≤ program.types.size)
    (kind : (program.type type).kind = .struct members none)
    (found : members.mapM (fun member => program.layoutWithin? depth member.type) = some layouts) :
    program.Lays type layouts := by
  refine ⟨layoutWithin?_mono (Nat.succ_le_succ enough) ?_, members, kind,
    mapM_mono (fun _ _ => layoutWithin?_mono (enough.trans (Nat.le_succ _))) found⟩
  unfold layoutWithin?
  simp only [kind, found, Option.map_some]

theorem alignment_of_layout (found : program.layoutWithin? depth type = some layout) :
    0 < layout.alignment ∧ ((∀ members, (program.type type).kind ≠ .struct members (some 3)) →
      layout.alignment ∣ layout.size) := by
  cases depth with
  | zero => cases found
  | succ depth =>
    unfold layoutWithin? at found
    split at found
    iterate 4 cases found; exact ⟨by decide, fun _ => by decide⟩
    · rename_i kind
      cases found
      unfold vectorLayout
      split
      · exact ⟨by decide, fun _ => by decide⟩
      · exact ⟨by decide, fun other => absurd kind (other _)⟩
      · exact ⟨by decide, fun _ => by decide⟩
    · obtain ⟨layouts, -, rfl⟩ := Option.map_eq_some_iff.1 found
      exact ⟨Nat.zero_lt_of_lt le_structAlignment.1, fun _ => dvd_roundUp _ _⟩
    · cases found

theorem Lays.arranged (lays : program.Lays type layouts) :
    Arranged layouts (placeMembers 0 layouts).1 (structLayout layouts) := by
  obtain ⟨-, members, -, each⟩ := lays
  refine structLayout_arranged fun layout found => ?_
  obtain ⟨member, isLayout⟩ := mem_of_mapM each layout found
  exact (alignment_of_layout isLayout).1

end Program

/-! ## Modules -/

/-- Offsets as they are given to the members of a struct, one to each. -/
def offsetMarks (offsets : List Nat) : List (Word × Word) :=
  offsets.zipIdx.map fun item => (item.2.toUInt32, item.1.toUInt32)

/-- Structs have ids of their own. Those that are done have their offsets, and the others have none. -/
structure Placed (program : Program) (done : TypeId → Prop) (ids : TypeId → Option Id)
    (offsets : Id → List (Word × Word)) (last : Nat) : Prop where
  given : ∀ type id, program.DeclaresStruct type → ids type = some id → id.toNat ≤ last
  marked : ∀ id, offsets id ≠ [] → id.toNat ≤ last
  apart : ∀ type other id, program.DeclaresStruct type → program.DeclaresStruct other →
    ids type = some id → ids other = some id → type = other
  bare : ∀ type id, program.DeclaresStruct type → ¬done type → ids type = some id → offsets id = []
  placed : ∀ type, done type → ∃ layouts id, program.Lays type layouts ∧ ids type = some id ∧
    offsets id = offsetMarks (placeMembers 0 layouts).1
  nested : ∀ type member, done type → program.HasMember type member → program.DeclaresStruct member →
    done member

namespace Placed

variable {program : Program} {done : TypeId → Prop} {ids : TypeId → Option Id}
  {offsets : Id → List (Word × Word)} {last more : Nat} {type : TypeId} {id : Id}
  {layouts : List Layout}

theorem mono (placed : Placed program done ids offsets last) (le : last ≤ more) :
    Placed program done ids offsets more where
  __ := placed
  given type id isStruct found := (placed.given type id isStruct found).trans le
  marked id some := (placed.marked id some).trans le

/-- A type gets an id. If it is a struct, the id is a new one. -/
theorem insert (placed : Placed program done ids offsets last)
    (isNew : program.DeclaresStruct type → ¬done type ∧ id.toNat ≤ last ∧ offsets id = [] ∧
      ∀ other, program.DeclaresStruct other → ids other ≠ some id) :
    Placed program done (fun other => if other = type then some id else ids other) offsets last := by
  obtain ⟨given, marked, apart, bare, placed, nested⟩ := placed
  constructor <;> grind

/-- A struct gets its offsets. -/
theorem mark (placed : Placed program done ids offsets last) (lays : program.Lays type layouts)
    (notDone : ¬done type) (found : ids type = some id)
    (inner : ∀ member, program.HasMember type member → program.DeclaresStruct member → done member) :
    Placed program (fun other => done other ∨ other = type) ids
      (fun other => offsets other ++ if other = id then offsetMarks (placeMembers 0 layouts).1 else [])
      last := by
  obtain ⟨given, marked, apart, bare, placed, nested⟩ := placed
  constructor <;> grind

/-- Something that is no struct of the program gets offsets. -/
theorem elsewhere (placed : Placed program done ids offsets last) (isGiven : id.toNat ≤ last)
    (isFree : ∀ type, program.DeclaresStruct type → ids type ≠ some id) (new : List (Word × Word)) :
    Placed program done ids (fun other => offsets other ++ if other = id then new else []) last := by
  obtain ⟨given, marked, apart, bare, placed, nested⟩ := placed
  constructor <;> grind

theorem done_of_reaches {pointee : TypeId} (placed : Placed program done ids offsets last)
    (isDone : program.DeclaresStruct pointee → done pointee)
    (reaches : Relation.ReflTransGen program.HasMember pointee type)
    (isStruct : program.DeclaresStruct type) : done type := by
  induction reaches with
  | refl => exact isDone isStruct
  | tail _ step ih =>
    exact placed.nested _ _ (ih (step.imp fun _ holds => holds.1)) step isStruct

end Placed

namespace Emitter

variable {program : Program} {emitter middle after : Emitter} {id : Id}

/-- The members of a struct that a module gives offsets to, with the offsets. -/
def offsetsOf (emitter : Emitter) (id : Id) : List (Word × Word) :=
  emitter.sections.annotations.filterMap fun
    | .memberDecorate target member (.offset bytes) =>
      if target = id then some (member, bytes) else none
    | _ => none

/-- The structs that are done have their offsets in a module. -/
abbrev Places (emitter : Emitter) (program : Program) (done : TypeId → Prop) : Prop :=
  Placed program done emitter.types.find? emitter.offsetsOf emitter.lastId.toNat

/-- The structs that are noted to have offsets have them, among them all that stand in buffers. -/
structure LaidOut (emitter : Emitter) (program : Program) : Prop where
  places : emitter.Places program fun type => type ∈ emitter.laidOut
  wrapped : ∀ type id, emitter.wrappers.find? type = some id → program.DeclaresStruct type →
    type ∈ emitter.laidOut

/-- A change that has nothing to do with types and offsets. -/
structure Calm (emitter after : Emitter) : Prop where
  types : after.types = emitter.types
  laidOut : after.laidOut = emitter.laidOut
  wrappers : after.wrappers = emitter.wrappers
  offsets : after.offsetsOf = emitter.offsetsOf
  lastId : emitter.lastId.toNat ≤ after.lastId.toNat

/-- The modules that come about by declaring types and buffers, with anything else in between. -/
inductive Arises (program : Program) : Emitter → Prop where
  | start : Arises program {}
  | calm {emitter after : Emitter} (arises : Arises program emitter) (calm : emitter.Calm after) :
    Arises program after
  | declare {emitter after : Emitter} {type : TypeId} {id : Id} (arises : Arises program emitter)
      (runs : Emit.typeId program type emitter = .ok id after) : Arises program after
  | wrap {emitter after : Emitter} {pointee : TypeId} {id : Id} (arises : Arises program emitter)
      (runs : Emit.uniformWrapper program pointee emitter = .ok id after) : Arises program after

theorem Calm.refl (emitter : Emitter) : emitter.Calm emitter := ⟨rfl, rfl, rfl, rfl, le_rfl⟩

theorem Calm.trans (first : emitter.Calm middle) (second : middle.Calm after) : emitter.Calm after :=
  ⟨second.types.trans first.types, second.laidOut.trans first.laidOut,
    second.wrappers.trans first.wrappers, second.offsets.trans first.offsets,
    first.lastId.trans second.lastId⟩

theorem Calm.places {done : TypeId → Prop} (calm : emitter.Calm after)
    (places : emitter.Places program done) : after.Places program done := by
  rw [Places, calm.types, calm.offsets]
  exact places.mono calm.lastId

theorem offsetsOf_append (emitter : Emitter) (id : Id) (marks : List (Word × Word)) :
    { emitter with sections := { emitter.sections with
        annotations := emitter.sections.annotations ++ marks.map fun (mark : Word × Word) =>
          Instruction.memberDecorate id mark.1 (.offset mark.2) } }.offsetsOf =
      fun other => emitter.offsetsOf other ++ if other = id then marks else [] := by
  funext other
  by_cases same : other = id
  · simp [offsetsOf, same]
  · simp [offsetsOf, same, Ne.symm same]

end Emitter

namespace Emit

open Emitter

variable {α β : Type} {program : Program} {emitter after : Emitter} {members : List Member} {id : Id}
  {type : TypeId} {moves : Emitter → Emitter → Prop}

/-! ## Steps that have nothing to do with offsets -/

/-- Steps that have nothing to do with offsets are of a kind, and steps of that kind can follow each
other. -/
class Lasting (moves : Emitter → Emitter → Prop) : Prop where
  calm : ∀ {emitter after : Emitter}, emitter.Calm after → moves emitter after
  trans : ∀ {emitter middle after : Emitter}, moves emitter middle → moves middle after → moves emitter after

instance : Lasting Calm :=
  ⟨fun calm => calm, .trans⟩

def Does (moves : Emitter → Emitter → Prop) (step : Emit α) : Prop :=
  ∀ emitter result after, step emitter = .ok result after → moves emitter after

theorem does_refuse (diagnostic : Diagnostic) : Does moves (refuse diagnostic : Emit α) := by
  rintro _ _ _ ⟨⟩

section Lasting

variable [Lasting moves]

@[grind ←]
theorem does_pure (result : α) : Does moves (pure result) := by
  rintro emitter _ _ ⟨⟩
  exact Lasting.calm (.refl emitter)

@[grind ←]
theorem does_get : Does moves get := by
  rintro emitter _ _ ⟨⟩
  exact Lasting.calm (.refl emitter)

@[grind ←]
theorem Does.bind {step : Emit α} {next : α → Emit β} (first : Does moves step)
    (second : ∀ result, Does moves (next result)) : Does moves (step >>= next) := by
  intro emitter result after runs
  obtain ⟨value, middle, stepped, runs⟩ := bind_eq_ok runs
  exact Lasting.trans (first emitter value middle stepped) (second value middle result after runs)

theorem does_forM {items : List α} {step : α → Emit PUnit} (each : ∀ item, Does moves (step item)) :
    Does moves (items.forM step) := by
  induction items with
  | nil => exact does_pure _
  | cons item rest ih => exact (each item).bind fun _ => ih

@[grind ←]
theorem does_mapM {items : List α} {step : α → Emit β} (each : ∀ item, Does moves (step item)) :
    Does moves (items.mapM step) := by
  induction items with
  | nil => exact does_pure _
  | cons item rest ih =>
    rw [List.mapM_cons]
    exact (each item).bind fun _ => ih.bind fun _ => does_pure _

theorem does_modify {change : Emitter → Emitter}
    (calm : ∀ emitter : Emitter, emitter.Calm (change emitter)) : Does moves (modify change) := by
  rintro emitter _ _ ⟨⟩
  exact Lasting.calm (calm emitter)

theorem does_modifySections {change : Sections → Sections}
    (same : ∀ sections, (change sections).annotations = sections.annotations) :
    Does moves (modifySections change) :=
  does_modify fun _ => ⟨rfl, rfl, rfl, by funext id; simp only [offsetsOf, same], le_rfl⟩

theorem does_intern {find? : Emitter → Option Id} {note : Emitter → Id → Emitter} {make : Emit Id}
    (makes : Does moves make) (notes : ∀ (emitter : Emitter) id, emitter.Calm (note emitter id)) :
    Does moves (intern find? note make) := by
  unfold intern
  refine does_get.bind fun emitter => ?_
  split
  · exact does_pure _
  · exact makes.bind fun id => (does_modify fun emitter => notes emitter id).bind fun _ => does_pure id

theorem does_freshId : Does moves freshId := by
  intro emitter id after runs
  obtain ⟨room, -, rfl⟩ := freshId_eq_ok runs
  exact Lasting.calm ⟨rfl, rfl, rfl, rfl, by simp [room.toNat_next]⟩

@[grind ←]
theorem does_declareFresh (instruction : Id → Instruction) : Does moves (declareFresh instruction) := by
  have declares (id : Id) : Does moves (declare (instruction id)) := does_modifySections fun _ => rfl
  exact does_freshId.bind fun id => (declares id).bind fun _ => does_pure id

theorem does_addName (instruction : Instruction) : Does moves (addName instruction) :=
  does_modifySections fun _ => rfl

@[grind ←]
theorem does_name (target : Id) (text : String) : Does moves (name target text) := does_addName _

@[grind ←]
theorem does_require (capability : Capability) : Does moves (require capability) :=
  does_modifySections fun _ => rfl

@[grind ←]
theorem does_decorate (target : Id) (decoration : Decoration) : Does moves (decorate target decoration) :=
  does_modify fun _ => ⟨rfl, rfl, rfl, by funext id; simp [offsetsOf], le_rfl⟩

@[grind ←]
theorem does_pointerType (memory : MemoryClass) (pointee : Id) : Does moves (pointerType memory pointee) :=
  does_intern (does_declareFresh _) fun _ _ => ⟨rfl, rfl, rfl, rfl, le_rfl⟩

theorem does_primitiveType (primitive : PrimitiveType) : Does moves (primitiveType primitive) := by
  unfold primitiveType requireInteger
  grind

end Lasting

attribute [grind ←] does_refuse

/-! ## Types -/

theorem declareFresh_eq_ok {instruction : Id → Instruction}
    (runs : declareFresh instruction emitter = .ok id after) :
    emitter.Calm after ∧ emitter.lastId.toNat < id.toNat ∧ id.toNat ≤ after.lastId.toNat := by
  refine ⟨does_declareFresh _ _ _ _ runs, ?_⟩
  obtain ⟨_, _, isFresh, runs⟩ := bind_eq_ok runs
  obtain ⟨room, rfl, rfl⟩ := freshId_eq_ok isFresh
  cases runs
  exact ⟨by simp [room.toNat_next], le_rfl⟩

theorem structType_eq_ok {text : String} {types : List Id}
    (runs : structType text members types emitter = .ok id after) :
    emitter.Calm after ∧ emitter.lastId.toNat < id.toNat ∧ id.toNat ≤ after.lastId.toNat := by
  obtain ⟨new, middle, fresh, runs⟩ := bind_eq_ok runs
  obtain ⟨calm, isNext, isGiven⟩ := declareFresh_eq_ok fresh
  obtain ⟨_, named, isNamed, runs⟩ := bind_eq_ok runs
  obtain ⟨_, last, isLast, runs⟩ := bind_eq_ok runs
  cases runs
  have names : middle.Calm after := .trans (does_name _ _ _ _ _ isNamed)
    (does_forM (fun _ => does_addName _) _ _ _ isLast)
  exact ⟨calm.trans names, isNext, isGiven.trans names.lastId⟩

def Settles (program : Program) (emitter after : Emitter) : Prop :=
  (∀ done, emitter.Places program done → after.Places program done) ∧
    after.laidOut = emitter.laidOut ∧ after.wrappers = emitter.wrappers

instance : Lasting (Settles program) where
  calm calm := ⟨fun _ => calm.places, calm.laidOut, calm.wrappers⟩
  trans first second := ⟨fun done places => second.1 done (first.1 done places),
    second.2.1.trans first.2.1, second.2.2.trans first.2.2⟩

theorem Settles.laidOut (settles : Settles program emitter after) (laid : emitter.LaidOut program) :
    after.LaidOut program := by
  obtain ⟨keeps, laidOut, wrappers⟩ := settles
  refine ⟨?_, ?_⟩
  · rw [laidOut]
    exact keeps _ laid.places
  · rw [laidOut, wrappers]
    exact laid.wrapped

theorem intern_eq_ok {find? : Emitter → Option Id} {note : Emitter → Id → Emitter} {make : Emit Id}
    (runs : intern find? note make emitter = .ok id after) :
    find? emitter = some id ∧ after = emitter ∨
      find? emitter = none ∧ ∃ made, make emitter = .ok id made ∧ after = note made id := by
  obtain ⟨_, _, ⟨⟩, runs⟩ := bind_eq_ok runs
  cases found : find? emitter with
  | some old =>
    simp only [found] at runs
    cases runs
    exact .inl ⟨rfl, rfl⟩
  | none =>
    simp only [found] at runs
    obtain ⟨made, middle, makes, runs⟩ := bind_eq_ok runs
    cases runs
    exact .inr ⟨rfl, middle, makes, rfl⟩

theorem Settles.insert {middle made : Emitter} (settles : Settles program emitter middle)
    (calm : middle.Calm made)
    (isNew : program.DeclaresStruct type → emitter.types.find? type = none ∧
      middle.lastId.toNat < id.toNat ∧ id.toNat ≤ made.lastId.toNat) :
    Settles program emitter { made with types := made.types.insert type id } := by
  obtain ⟨keeps, laidOut, wrappers⟩ := settles
  refine ⟨fun done places => ?_, calm.laidOut.trans laidOut, calm.wrappers.trans wrappers⟩
  have finds : (made.types.insert type id).find? =
      fun other => if other = type then some id else made.types.find? other := by
    funext other
    split_ifs with same
    · rw [same, Table.find?_insert_self]
    · exact Table.find?_insert_of_ne _ _ same
  have before := keeps done places
  have inserted := (calm.places before).insert fun isStruct => by
    obtain ⟨isNew, isNext, isGiven⟩ := isNew isStruct
    refine ⟨fun isDone => ?_, isGiven, ?_, fun other isOther found => ?_⟩
    · obtain ⟨_, _, -, found, -⟩ := places.placed type isDone
      rw [isNew] at found
      cases found
    · by_contra some
      have := before.marked id (calm.offsets ▸ some)
      omega
    · have := before.given other id isOther (calm.types ▸ found)
      omega
  rwa [Places, finds]

theorem typeIdWithin_settles (depth : Nat) (type : TypeId) :
    Does (Settles program) (typeIdWithin program depth type) := by
  induction depth generalizing type with
  | zero => rintro _ _ _ ⟨⟩
  | succ depth ih =>
    intro emitter id after runs
    rcases intern_eq_ok runs with ⟨-, rfl⟩ | ⟨new, made, makes, rfl⟩
    · exact Lasting.calm (.refl after)
    have other {make : Emit Id} (settles : Does (Settles program) make)
        (makes : make emitter = .ok id made) (isOther : ¬program.DeclaresStruct type) :
        Settles program emitter { made with types := made.types.insert type id } :=
      (settles emitter id made makes).insert (.refl made) fun isStruct => absurd isStruct isOther
    cases kind : (program.type type).kind with
    | primitive primitive =>
      simp only [kind] at makes
      exact other (does_primitiveType primitive) makes (by simp [Program.DeclaresStruct, kind])
    | pointer pointee storage =>
      simp only [kind] at makes
      exact other ((ih pointee).bind fun _ => does_pointerType _ _) makes
        (by simp [Program.DeclaresStruct, kind])
    | struct members width =>
      cases width with
      | some width =>
        simp only [kind] at makes
        exact other ((ih .f32).bind fun _ => does_declareFresh _) makes
          (by simp [Program.DeclaresStruct, kind])
      | none =>
        simp only [kind] at makes
        obtain ⟨types, middle, each, makes⟩ := bind_eq_ok makes
        have inner : Does (Settles program) (members.mapM fun member => do
            if program.isPointer member.type then refuse (.emissionAt member.span .pointerMember)
            else typeIdWithin program depth member.type) := by
          grind
        obtain ⟨calm, isNext⟩ := structType_eq_ok makes
        exact (inner emitter types middle each).insert calm fun _ => ⟨new, isNext⟩

theorem typeId_finds (runs : typeId program type emitter = .ok id after) :
    after.types.find? type = some id := by
  rcases intern_eq_ok runs with ⟨found, rfl⟩ | ⟨-, made, -, rfl⟩
  · exact found
  · exact Table.find?_insert_self _ _ _

/-! ## Buffers -/

theorem annotate_forM (items : List α) (instruction : α → Instruction) (emitter : Emitter) :
    items.forM (fun item => annotate (instruction item)) emitter =
      .ok () { emitter with
        sections := { emitter.sections with
          annotations := emitter.sections.annotations ++ items.map instruction } } := by
  induction items generalizing emitter with
  | nil =>
    rw [List.map_nil, List.append_nil]
    rfl
  | cons item rest ih =>
    refine (ih _).trans ?_
    simp only [List.append_assoc, List.singleton_append, List.map_cons]

/-- The struct of a type is laid out, and whatever was is still. -/
structure LaysOut (program : Program) (type : TypeId) (emitter after : Emitter) : Prop where
  laid : after.LaidOut program
  grows : emitter.laidOut ⊆ after.laidOut
  isDone : program.DeclaresStruct type → type ∈ after.laidOut

theorem decorateMembers_laysOut {layouts : List Layout} (laid : emitter.LaidOut program)
    (lays : program.Lays type layouts)
    (inner : ∀ member, program.HasMember type member → program.DeclaresStruct member →
      member ∈ emitter.laidOut)
    (runs : decorateMembers program type (placeMembers 0 layouts).1 emitter = .ok () after) :
    LaysOut program type emitter after := by
  obtain ⟨_, _, ⟨⟩, runs⟩ := bind_eq_ok runs
  split_ifs at runs with isDone
  · cases runs
    exact ⟨laid, List.Subset.refl _, fun _ => isDone⟩
  obtain ⟨_, _, ⟨⟩, runs⟩ := bind_eq_ok runs
  obtain ⟨id, middle, declares, runs⟩ := bind_eq_ok runs
  obtain ⟨keeps, laidOut, wrappers⟩ := typeIdWithin_settles _ type _ id middle declares
  -- the note that the struct is done is ahead of its offsets
  have places := (keeps (fun type => type ∈ emitter.laidOut) laid.places).mark lays isDone
    (typeId_finds declares) inner
  have marked := annotate_forM (placeMembers 0 layouts).1.zipIdx
    (fun item => .memberDecorate id item.2.toUInt32 (.offset item.1.toUInt32)) middle
  have isIn (other : TypeId) : other ∈ middle.laidOut ↔ other ∈ emitter.laidOut ∨ other = type := by
    simp [laidOut]
  cases marked.symm.trans runs
  refine ⟨⟨?_, fun other wrapper found isStruct => ?_⟩, fun other isOld => (isIn other).2 (.inl isOld),
    fun _ => (isIn type).2 (.inr rfl)⟩
  · have offsets := offsetsOf_append middle id (offsetMarks (placeMembers 0 layouts).1)
    simp only [offsetMarks, List.map_map, Function.comp_def] at offsets places
    simp only [Places, isIn, offsets]
    exact places
  · rw [wrappers] at found
    exact (isIn other).2 (.inl (laid.wrapped other wrapper found isStruct))

theorem mapM_laysOut {step : Member → Emit Layout} {layout? : Member → Option Layout}
    {layouts : List Layout} (laid : emitter.LaidOut program)
    (each : ∀ member emitter layout after, emitter.LaidOut program → step member emitter = .ok layout after →
        LaysOut program member.type emitter after ∧ layout? member = some layout)
    (runs : members.mapM step emitter = .ok layouts after) :
    after.LaidOut program ∧ emitter.laidOut ⊆ after.laidOut ∧ members.mapM layout? = some layouts ∧
      ∀ member ∈ members, program.DeclaresStruct member.type → member.type ∈ after.laidOut := by
  induction members generalizing emitter layouts with
  | nil =>
    cases runs
    exact ⟨laid, List.Subset.refl _, rfl, by simp⟩
  | cons member rest ih =>
    rw [List.mapM_cons] at runs
    obtain ⟨layout, middle, first, runs⟩ := bind_eq_ok runs
    obtain ⟨others, last, runsOn, runs⟩ := bind_eq_ok runs
    cases runs
    obtain ⟨laysOut, isFirst⟩ := each member emitter layout middle laid first
    obtain ⟨laid, grows, areRest, all⟩ := ih laysOut.laid runsOn
    refine ⟨laid, List.Subset.trans laysOut.grows grows, by simp [List.mapM_cons, isFirst, areRest], ?_⟩
    exact List.forall_mem_cons.2 ⟨fun isStruct => grows (laysOut.isDone isStruct), all⟩

theorem uniformLayoutWithin_laysOut {depth : Nat} {layout : Layout}
    (enough : depth ≤ program.types.size + 1) (laid : emitter.LaidOut program)
    (runs : uniformLayoutWithin program depth type emitter = .ok layout after) :
    LaysOut program type emitter after ∧ program.layoutWithin? depth type = some layout := by
  induction depth generalizing type emitter layout after with
  | zero => cases runs
  | succ depth ih =>
    have plain {found : Layout} (isOther : ¬program.DeclaresStruct type)
        (runs : (pure found : Emit Layout) emitter = .ok layout after) :
        LaysOut program type emitter after ∧ some found = some layout := by
      cases runs
      exact ⟨⟨laid, List.Subset.refl _, fun isStruct => absurd isStruct isOther⟩, rfl⟩
    -- The step is named, so that its cases can be told apart before it is run.
    obtain ⟨step, isStep⟩ : ∃ step, step = uniformLayoutWithin program (depth + 1) type := ⟨_, rfl⟩
    rw [← isStep] at runs
    unfold uniformLayoutWithin at isStep
    unfold Program.layoutWithin?
    split at isStep
    iterate 5
      rename_i kind
      subst isStep
      try simp only [kind]
      exact plain (by simp [Program.DeclaresStruct, kind]) runs
    · rename_i members kind
      subst isStep
      obtain ⟨layouts, middle, each, runs⟩ := bind_eq_ok runs
      obtain ⟨_, last, marks, runs⟩ := bind_eq_ok runs
      cases runs
      obtain ⟨laid, grows, areLayouts, all⟩ := mapM_laysOut laid
        (fun _ _ _ _ laid runs => ih (Nat.le_of_succ_le enough) laid runs) each
      have lays := Program.lays_of_mapM (Nat.le_of_succ_le_succ enough) kind areLayouts
      have laysOut := decorateMembers_laysOut laid lays (fun inner hasMember => ?_) marks
      · exact ⟨⟨laysOut.laid, List.Subset.trans grows laysOut.grows, laysOut.isDone⟩, by
          simp only [kind, areLayouts, Option.map_some]⟩
      · obtain ⟨parts, isKind, member, found, rfl⟩ := hasMember
        rw [kind] at isKind
        cases isKind
        exact all member found
    · subst isStep
      cases runs

theorem uniformWrapper_laysOut {pointee : TypeId} (laid : emitter.LaidOut program)
    (runs : uniformWrapper program pointee emitter = .ok id after) :
    after.LaidOut program ∧ (program.DeclaresStruct pointee → pointee ∈ after.laidOut) := by
  rcases intern_eq_ok runs with ⟨found, rfl⟩ | ⟨-, made, makes, rfl⟩
  · exact ⟨laid, laid.wrapped pointee id found⟩
  obtain ⟨layout, first, laysOut, makes⟩ := bind_eq_ok makes
  obtain ⟨⟨laid, -, isDone⟩, -⟩ := uniformLayoutWithin_laysOut le_rfl laid laysOut
  obtain ⟨inner, second, declares, makes⟩ := bind_eq_ok makes
  have settles := typeIdWithin_settles _ pointee first inner second declares
  have laid := settles.laidOut laid
  obtain ⟨new, third, fresh, makes⟩ := bind_eq_ok makes
  obtain ⟨calm, isNext, isGiven⟩ := declareFresh_eq_ok fresh
  obtain ⟨_, fourth, decorates, makes⟩ := bind_eq_ok makes
  have decorated : third.Calm fourth := does_decorate _ _ _ _ _ decorates
  obtain ⟨_, fifth, offsets, makes⟩ := bind_eq_ok makes
  obtain ⟨_, sixth, names, makes⟩ := bind_eq_ok makes
  cases makes
  have named : fifth.Calm made := does_name _ _ _ _ _ names
  have calm := calm.trans decorated
  have isFree (type : TypeId) (isStruct : program.DeclaresStruct type) :
      fourth.types.find? type ≠ some id := by
    intro found
    have := laid.places.given type id isStruct (calm.types ▸ found)
    omega
  obtain ⟨types, laidOut, wrappers, lastId, marked⟩ : fifth.types = fourth.types ∧
      fifth.laidOut = fourth.laidOut ∧ fifth.wrappers = fourth.wrappers ∧ fifth.lastId = fourth.lastId ∧
      fifth.offsetsOf = fun other => fourth.offsetsOf other ++ if other = id then [(0, 0)] else [] := by
    cases offsets
    exact ⟨rfl, rfl, rfl, rfl, offsetsOf_append fourth id [(0, 0)]⟩
  have inLaidOut : made.laidOut = second.laidOut := (named.laidOut.trans laidOut).trans calm.laidOut
  have places : fifth.Places program fun type => type ∈ second.laidOut := by
    rw [Places, types, lastId, marked]
    exact (calm.places laid.places).elsewhere (isGiven.trans decorated.lastId) isFree _
  refine ⟨⟨?_, fun type wrapper found isStruct => ?_⟩, fun isStruct => ?_⟩
  · simp only [inLaidOut]
    exact named.places places
  · change type ∈ made.laidOut
    rw [inLaidOut]
    by_cases isPointee : type = pointee
    · rw [isPointee, settles.2.1]
      exact isDone (isPointee ▸ isStruct)
    · rw [Table.find?_insert_of_ne _ _ isPointee, named.wrappers, wrappers, calm.wrappers] at found
      exact laid.wrapped type wrapper found isStruct
  · change pointee ∈ made.laidOut
    rw [inLaidOut, settles.2.1]
    exact isDone isStruct

/-! ## Entry points -/

theorem laidOut_of_arises (arises : emitter.Arises program) : emitter.LaidOut program := by
  induction arises with
  | start => exact ⟨by constructor <;> simp [offsetsOf, Table.find?], by simp [Table.find?]⟩
  | calm _ calm laid => exact Settles.laidOut (Lasting.calm calm) laid
  | declare _ runs laid => exact (typeIdWithin_settles _ _ _ _ _ runs).laidOut laid
  | wrap _ runs laid => exact (uniformWrapper_laysOut laid runs).1

instance : Lasting fun emitter after => emitter.Arises program → after.Arises program where
  calm calm arises := arises.calm calm
  trans first second arises := second (first arises)

abbrev Declares (program : Program) (step : Emit α) : Prop :=
  Does (fun emitter after => emitter.Arises program → after.Arises program) step

@[grind ←]
theorem declares_typeId (type : TypeId) : Declares program (typeId program type) :=
  fun _ _ _ runs arises => arises.declare runs

@[grind ←]
theorem declares_uniformWrapper (pointee : TypeId) : Declares program (uniformWrapper program pointee) :=
  fun _ _ _ runs arises => arises.wrap runs

theorem declares_declareUniform (set place : UInt32) (argument : VarId) :
    Declares program (declareUniform program set place argument) := by
  unfold declareUniform declareVariable
  dsimp only
  split
  · exact does_refuse _
  · refine (declares_uniformWrapper _).bind fun wrapper => (does_pointerType _ _).bind fun pointer => ?_
    grind

theorem declares_declareInputs (function : Function) (text : String) (location : Nat)
    (members : List Member) : Declares program (declareInputs program function text location members) := by
  induction members generalizing location with
  | nil => exact does_pure _
  | cons member rest ih =>
    have decorates (var : Id) : Declares program (decorateInput program function member var location) := by
      unfold decorateInput
      grind
    unfold declareInputs declareVariable
    refine (declares_typeId _).bind fun type => (does_pointerType _ _).bind fun pointer => ?_
    grind

theorem declares_declareOutputs (function : Function) : Declares program (declareOutputs program function) := by
  have declares (type : TypeId) (location : UInt32) (text : String) :
      Declares program (declareOutput program type location text) := by
    unfold declareOutput declareVariable
    grind
  unfold declareOutputs declareOutputMember
  grind

theorem declares_entryHeader (function : FunctionId) : Declares program (entryHeader program function) := by
  have numbers : Declares program (functionId function) :=
    does_intern does_freshId fun _ _ => ⟨rfl, rfl, rfl, rfl, le_rfl⟩
  have uniforms (node : Function) : Declares program (declareUniforms program node) :=
    (does_mapM fun _ => declares_declareUniform _ _ _).bind fun _ => does_pure _
  have inputs (node : Function) : Declares program (declareStageIn program node) := by
    unfold declareStageIn
    split
    · exact does_pure _
    · exact declares_declareInputs _ _ _ _
  unfold entryHeader
  dsimp only
  split_ifs
  · exact (uniforms _).bind fun _ => (inputs _).bind fun _ => (declares_declareOutputs _).bind fun _ =>
      numbers.bind fun _ => does_modify fun _ => ⟨rfl, rfl, rfl, rfl, le_rfl⟩
  · exact does_pure _

end Emit

/-! ## Main statements -/

theorem Arranged.toUInt32 {members : List Layout} {offsets : List Nat} {whole : Layout}
    (arranged : Arranged members offsets whole) (small : whole.size < 2 ^ 32) :
    ∀ offset ∈ offsets, offset.toUInt32.toNat = offset := by
  intro offset found
  rw [← List.map_fst_zip arranged.length.le] at found
  obtain ⟨member, isMember, rfl⟩ := List.mem_map.1 found
  have below := arranged.inside member isMember
  exact UInt32.toNat_ofNat_of_lt' (by unfold UInt32.size; omega)

end Shader
