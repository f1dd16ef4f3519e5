import Shader.Proofs.Parser.Declaration

/-! # Entry points of parsed programs

The tables of an entry point have one entry for each of its buffers, and nothing else. Attributes that a
program keeps all have a use, and the only pointers among its variables are the buffers of entry points.

* `Table.MapsExactly` says that a table leads from the keys of arguments to the arguments.
* `Program.BoundExactly` says what holds of every function, and `Program.Sane.boundExactly` proves it.
* `parse_boundExactly` is the result. -/

namespace Shader

/-! ## Tables -/

namespace Table

variable {κ : Type} [DecidableEq κ] {table : Table κ Binding}

theorem find?_eq_some_iff_mem {α : Type} {table : Table κ α} (keys : (table.entries.map Prod.fst).Nodup)
    {key : κ} {value : α} : table.find? key = some value ↔ (key, value) ∈ table.entries := by
  rw [find?, List.lookup_eq_some_iff]
  constructor
  · rintro ⟨front, rest, split, -⟩
    rw [split]
    exact List.mem_append_right _ List.mem_cons_self
  · intro found
    obtain ⟨front, rest, split⟩ := List.append_of_mem found
    refine ⟨front, rest, split, fun entry inFront => ?_⟩
    rw [split, List.map_append, List.map_cons, List.nodup_middle] at keys
    have differs : key ≠ entry.1 := by
      have inKeys : entry.1 ∈ front.map Prod.fst := List.mem_map_of_mem inFront
      intro same
      exact (List.nodup_cons.1 keys).1 (List.mem_append_left _ (same ▸ inKeys))
    simpa using differs

/-- A table leads from the keys of some arguments to these arguments, with one entry for each. -/
structure MapsExactly (table : Table κ Binding) (arguments : List VarId) (key? : VarId → Option κ) :
    Prop where
  find : ∀ key argument, (table.find? key).map Binding.argument = some argument ↔
    argument ∈ arguments ∧ key? argument = some key
  keys : (table.entries.map Prod.fst).Nodup
  size : table.entries.length = arguments.length

theorem Lists.mapsExactly {arguments : List VarId} {key? : VarId → Option κ}
    (lists : table.Lists (arguments.filterMap fun argument => (key? argument).map (·, argument)))
    (all : ∀ argument ∈ arguments, (key? argument).isSome = true) : table.MapsExactly arguments key? := by
  have keys : (table.entries.map Prod.fst).Nodup := by
    have perm := lists.perm.map Prod.fst
    rw [List.map_map] at perm
    exact perm.nodup_iff.2 lists.keys
  refine ⟨fun key argument => ?_, keys, ?_⟩
  · have entry : (table.find? key).map Binding.argument = some argument ↔
        (key, argument) ∈ table.entries.map fun entry => (entry.1, entry.2.argument) := by
      simp [Option.map_eq_some_iff, find?_eq_some_iff_mem keys, List.mem_map]
    rw [entry, lists.perm.mem_iff]
    simp [List.mem_filterMap]
  · have length := lists.perm.length_eq
    rw [List.length_map] at length
    rw [length, List.length_filterMap_eq_countP, List.countP_eq_length]
    simpa using all

end Table

/-! ## Functions -/

namespace Program

variable {program : Program} {function : Function}

def buffers (function : Function) : List VarId :=
  function.arguments.filter fun argument => function.stageIn ≠ some argument

/-- The arguments of an entry point are its stage input and its buffers, and its tables lead to the
buffers. A function that is no entry point has neither tables nor attributes on its arguments. -/
structure BoundExactly (program : Program) (function : Function) : Prop where
  input : ∀ argument ∈ function.stageIn, argument ∈ function.arguments ∧
    program.IsStageInput (program.var argument)
  buffer : function.isEntryPoint = true → ∀ argument ∈ buffers function,
    program.IsBuffer (program.var argument)
  vulkan : function.isEntryPoint = true →
    function.vkBindings.MapsExactly (buffers function) fun argument => (program.var argument).vkUniform?
  metal : function.isEntryPoint = true →
    function.mtlBuffers.MapsExactly (buffers function) fun argument => (program.var argument).metalIndex?
  plain : function.isEntryPoint = false → function.stageIn = none ∧ function.vkBindings.entries = [] ∧
    function.mtlBuffers.entries = [] ∧ ∀ argument ∈ function.arguments, (program.var argument).attributes = []

structure AttributesUsed (program : Program) : Prop where
  functions : ∀ function, ∀ attr ∈ (program.function function).attributes, attr.used = true
  vars : ∀ var, ∀ attr ∈ (program.var var).attributes, attr.used = true
  members : ∀ type, ∀ member ∈ program.members type, ∀ attr ∈ member.attributes, attr.used = true

theorem IsStageInput.keys {var : Variable} (isInput : program.IsStageInput var) :
    var.vkUniform? = none ∧ var.metalIndex? = none := by
  constructor <;> refine List.findSome?_eq_none_iff.2 fun attr found => ?_ <;>
    rw [isInput.only attr found] <;> rfl

theorem IsBuffer.keys {var : Variable} (isBuffer : program.IsBuffer var) :
    var.vkUniform?.isSome = true ∧ var.metalIndex?.isSome = true := by
  have some_of_one {α : Type} {test : AttributeKind → Option α}
      (one : var.attributes.countP (fun attr => (test attr.kind).isSome) = 1) :
      (var.attributes.findSome? fun attr => test attr.kind).isSome = true := by
    rw [List.findSome?_isSome_iff]
    exact List.countP_pos_iff.1 (one ▸ Nat.one_pos)
  exact ⟨some_of_one isBuffer.vulkan, some_of_one isBuffer.metal⟩

theorem Binds.filterMap_buffers {κ : Type} (binds : program.Binds function function.arguments)
    {key? : VarId → Option κ}
    (none : ∀ argument, program.IsStageInput (program.var argument) → key? argument = none) :
    (function.arguments.filterMap fun argument => (key? argument).map (·, argument)) =
      (buffers function).filterMap fun argument => (key? argument).map (·, argument) := by
  rw [buffers, List.filterMap_filter]
  refine List.filterMap_congr fun argument _ => ?_
  by_cases isInput : function.stageIn = some argument
  · simp [isInput, none argument (binds.input argument isInput).2.2]
  · simp [isInput]

theorem Binds.boundExactly (binds : program.Binds function function.arguments) :
    program.BoundExactly function := by
  have isBuffer (isEntry : function.isEntryPoint = true) (argument : VarId)
      (found : argument ∈ buffers function) : program.IsBuffer (program.var argument) := by
    obtain ⟨inArguments, notInput⟩ := List.mem_filter.1 found
    exact (binds.role isEntry argument inArguments).resolve_left (by simpa using notInput)
  refine ⟨fun argument isInput => (binds.input argument isInput).2, isBuffer, fun isEntry => ?_,
    fun isEntry => ?_, fun isPlain => ⟨?_, ?_, ?_, fun argument found => (binds.bare isPlain argument found).unmarked⟩⟩
  · have lists := binds.vulkan
    rw [vulkanPlaces, binds.filterMap_buffers fun _ isInput => isInput.keys.1] at lists
    exact lists.mapsExactly fun argument found => (isBuffer isEntry argument found).keys.1
  · have lists := binds.metal
    rw [metalPlaces, binds.filterMap_buffers fun _ isInput => isInput.keys.2] at lists
    exact lists.mapsExactly fun argument found => (isBuffer isEntry argument found).keys.2
  · refine Option.eq_none_iff_forall_not_mem.2 fun argument isInput => ?_
    exact absurd ((binds.input argument isInput).1.symm.trans isPlain) (by decide)
  · have none : program.vulkanPlaces function.arguments = [] :=
      List.filterMap_eq_nil_iff.2 fun argument found => by
        rw [Variable.vkUniform?, (binds.bare isPlain argument found).unmarked]
        rfl
    simpa [none] using binds.vulkan.perm
  · have none : program.metalPlaces function.arguments = [] :=
      List.filterMap_eq_nil_iff.2 fun argument found => by
        rw [Variable.metalIndex?, (binds.bare isPlain argument found).unmarked]
        rfl
    simpa [none] using binds.metal.perm

/-! ## Programs -/

theorem Sane.binds (sane : program.Sane) (id : FunctionId) :
    program.Binds (program.function id) (program.function id).arguments ∧
      ∀ attr ∈ (program.function id).attributes, attr.used = true := by
  by_cases has : id.index < program.functions.size
  · exact ⟨(sane.functions id has).binds, (sane.functions id has).used⟩
  · rw [show program.function id = default from Arena.get_of_size_le (not_lt.1 has)]
    exact ⟨binds_nil rfl rfl rfl, fun attr found => absurd found List.not_mem_nil⟩

theorem Sane.bare_or_argument (sane : program.Sane) (owned : program.Owned ∅) (var : VarId) :
    program.IsBare (program.var var) ∨ ∃ function, var ∈ (program.function function).arguments := by
  by_cases has : var.index < program.vars.size
  · cases isArgument : (program.var var).kind.isArgument with
    | true => exact .inr ((owned var isArgument).resolve_left (Set.notMem_empty var))
    | false => exact .inl ((sane.vars var has).bare isArgument)
  · rw [show program.var var = default from Arena.get_of_size_le (not_lt.1 has)]
    exact .inl ⟨rfl, (sane.noPointer_builtin (by decide)).noPointer⟩

theorem Sane.attributesUsed (sane : program.Sane) (owned : program.Owned ∅) : program.AttributesUsed where
  functions id := (sane.binds id).2
  vars var attr found := by
    rcases sane.bare_or_argument owned var with isBare | ⟨function, isArgument⟩
    · rw [isBare.unmarked] at found
      exact absurd found List.not_mem_nil
    · exact (sane.binds function).1.used var isArgument attr found
  members type member found := by
    unfold Program.members members? at found
    split at found
    · rename_i members width isStruct
      have has : type.index < program.types.size := has_of_kind_ne (by simp [isStruct])
      exact (sane.types type has).used members width isStruct member found
    · exact absurd found List.not_mem_nil

theorem Sane.mem_buffers (sane : program.Sane) (owned : program.Owned ∅) {var : VarId}
    (isPointer : program.isPointer (program.var var).type = true) :
    ∃ function, (program.function function).isEntryPoint = true ∧ var ∈ buffers (program.function function) := by
  rcases sane.bare_or_argument owned var with isBare | ⟨function, isArgument⟩
  · exact absurd (isPointer.symm.trans isBare.noPointer) (by decide)
  · have binds := (sane.binds function).1
    refine ⟨function, ?_, List.mem_filter.2 ⟨isArgument, ?_⟩⟩
    · by_contra isPlain
      have bare := binds.bare (by simpa using isPlain) var isArgument
      exact absurd (isPointer.symm.trans bare.noPointer) (by decide)
    · refine decide_eq_true fun isInput => ?_
      have isStruct := (binds.input var isInput).2.2.struct
      unfold Program.isPointer at isPointer
      unfold Program.isStruct at isStruct
      split at isPointer
      · rename_i isKind
        rw [isKind] at isStruct
        cases isStruct
      · cases isPointer

end Program

/-- The tables of every function of a parsed source are exact, all attributes have a use, and the only
pointers among the variables are the buffers of entry points. -/
theorem parse_boundExactly {source : String} {program : Program} (parsed : parse source = .ok program) :
    (∀ function, program.BoundExactly (program.function function)) ∧ program.AttributesUsed ∧
      ∀ var, program.isPointer (program.var var).type = true →
        ∃ function, (program.function function).isEntryPoint = true ∧
          var ∈ Program.buffers (program.function function) := by
  obtain ⟨state, top, rfl⟩ := atTop_of_parse parsed
  have sane := top.sane.program
  exact ⟨fun function => (sane.binds function).1.boundExactly, sane.attributesUsed top.owned,
    fun _ isPointer => sane.mem_buffers top.owned isPointer⟩

/-- A vertex stage with two buffers, which are not in the order of their bindings. -/
def boundSource : String :=
  "struct U\x7bint a;\x7d;[[vertex]]void f(U*u[[vk_uniform(1,0)]][[mtl_buffer(4)]]," ++
    "U*w[[mtl_constant]][[vk_uniform(3)]])\x7b\x7d"

def boundProgram : Program :=
  (parsePartial boundSource).1

theorem bound_accepted : (parsePartial boundSource).2.isNone = true ∧
    (boundProgram.function ⟨8⟩).isEntryPoint = true ∧
      ((boundProgram.function ⟨8⟩).vkBindings.find? (0, 3)).map Binding.argument = some ⟨12⟩ := by
  decide +kernel

theorem parse_boundSource : parse boundSource = .ok boundProgram := parse_eq_of_isNone bound_accepted.1

/-- What the table has under a binding is the buffer with that binding. -/
theorem parse_boundExactly_sample : parse boundSource = .ok boundProgram ∧
    (boundProgram.function ⟨8⟩).isEntryPoint = true ∧
      ((boundProgram.function ⟨8⟩).vkBindings.find? (0, 3)).map Binding.argument = some ⟨12⟩ ∧
      ⟨12⟩ ∈ Program.buffers (boundProgram.function ⟨8⟩) ∧
        (boundProgram.var ⟨12⟩).vkUniform? = some (0, 3) := by
  obtain ⟨-, isEntry, found⟩ := bound_accepted
  refine ⟨parse_boundSource, isEntry, found, ?_⟩
  exact ((((parse_boundExactly parse_boundSource).1 ⟨8⟩).vulkan isEntry).find (0, 3) ⟨12⟩).1 found

end Shader
