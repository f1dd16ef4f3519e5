import Mathlib
import Shader.Parser.EntryPoint

/-! # Bound arguments

How the arguments of a function get their roles. An argument of an entry point is the stage input or a
buffer, and the tables of an entry point list the buffers by their Vulkan and Metal bindings. -/

namespace Shader

def VariableKind.isArgument : VariableKind → Bool
  | .argument _ => true
  | _ => false

def AttributeKind.metalIndex? : AttributeKind → Option UInt32
  | .mtlBuffer index | .mtlConstant index => some index
  | _ => none

def Variable.metalIndex? (var : Variable) : Option UInt32 :=
  var.attributes.findSome? fun attr => attr.kind.metalIndex?

/-- The attributes of a variable say the same as before, and those that were all used still are. -/
structure Variable.Marks (before after : Variable) : Prop where
  kinds : after.attributes.map Attribute.kind = before.attributes.map Attribute.kind
  used : (∀ attr ∈ before.attributes, attr.used = true) → ∀ attr ∈ after.attributes, attr.used = true

namespace Variable

variable {before middle after var : Variable}

theorem Marks.refl : before.Marks before := ⟨rfl, id⟩

theorem Marks.trans (first : before.Marks middle) (second : middle.Marks after) : before.Marks after :=
  ⟨second.kinds.trans first.kinds, fun used => second.used (first.used used)⟩

theorem marks_markUsed (test : AttributeKind → Bool) :
    var.Marks { var with attributes := markUsed var.attributes test } := by
  have kept (attr : Attribute) : (if test attr.kind then { attr with used := true } else attr).kind =
      attr.kind := by
    split_ifs <;> rfl
  refine ⟨by simp [markUsed, kept], fun used attr found => ?_⟩
  obtain ⟨old, inOld, rfl⟩ := List.mem_map.1 found
  split_ifs
  · rfl
  · exact used old inOld

theorem Marks.forall_iff (marks : before.Marks after) (test : AttributeKind → Prop) :
    (∀ attr ∈ after.attributes, test attr.kind) ↔ ∀ attr ∈ before.attributes, test attr.kind := by
  simpa using congrArg (fun kinds => ∀ kind ∈ kinds, test kind) marks.kinds

theorem Marks.countP_eq (marks : before.Marks after) (test : AttributeKind → Bool) :
    after.attributes.countP (fun attr => test attr.kind) =
      before.attributes.countP fun attr => test attr.kind := by
  simpa [List.countP_map, Function.comp_def] using congrArg (List.countP test) marks.kinds

theorem Marks.findSome?_eq {α : Type} (marks : before.Marks after) (test : AttributeKind → Option α) :
    (after.attributes.findSome? fun attr => test attr.kind) =
      before.attributes.findSome? fun attr => test attr.kind := by
  simpa [List.findSome?_map, Function.comp_def] using congrArg (List.findSome? test) marks.kinds

theorem Marks.eq_nil_iff (marks : before.Marks after) : after.attributes = [] ↔ before.attributes = [] := by
  rw [← List.map_eq_nil_iff (f := Attribute.kind), marks.kinds, List.map_eq_nil_iff]

end Variable

namespace Program

/-- A variable is a stage input: a struct that is marked as such, and as nothing else. -/
structure IsStageInput (program : Program) (var : Variable) : Prop where
  struct : program.isStruct var.type = true
  marked : var.attributes ≠ []
  only : ∀ attr ∈ var.attributes, attr.kind = .stageIn

/-- A variable is a buffer: a pointer with one Vulkan binding, one Metal index and nothing else. -/
structure IsBuffer (program : Program) (var : Variable) : Prop where
  pointer : program.isPointer var.type = true
  vulkan : var.attributes.countP (fun attr => attr.kind.vkUniform?.isSome) = 1
  metal : var.attributes.countP (fun attr => attr.kind.metalIndex?.isSome) = 1
  only : ∀ attr ∈ var.attributes, attr.kind.isBuffer = true

structure IsBare (program : Program) (var : Variable) : Prop where
  unmarked : var.attributes = []
  noPointer : program.isPointer var.type = false

end Program

/-! ## Tables of bindings -/

/-- A table has exactly the given arguments under the given keys, each key once. -/
structure Table.Lists {κ : Type} (table : Table κ Binding) (bound : List (κ × VarId)) : Prop where
  perm : (table.entries.map fun entry => (entry.1, entry.2.argument)).Perm bound
  keys : (bound.map Prod.fst).Nodup

namespace Table

variable {κ : Type} [DecidableEq κ] {table : Table κ Binding} {bound : List (κ × VarId)} {key : κ}

theorem insertOrdered_perm {α : Type} {table : Table κ α} (smaller : κ → κ → Bool) (value : α)
    (free : table.find? key = none) :
    (table.insertOrdered smaller key value).entries.Perm ((key, value) :: table.entries) := by
  have absent : ∀ entry ∈ table.entries, (!(entry.1 == key)) = true := by
    intro entry found
    rw [BEq.comm]
    exact List.lookup_eq_none_iff.1 free entry found
  have all : ((table.entries.dropWhile fun entry => smaller entry.1 key).filter
      fun entry => !(entry.1 == key)) = table.entries.dropWhile fun entry => smaller entry.1 key :=
    List.filter_eq_self.2 fun entry found =>
      absent entry ((List.dropWhile_sublist _).subset found)
  unfold insertOrdered
  dsimp only
  rw [all]
  refine List.perm_middle.trans ?_
  rw [List.takeWhile_append_dropWhile]

theorem Lists.insert (lists : table.Lists bound) (smaller : κ → κ → Bool) (binding : Binding)
    (free : table.find? key = none) :
    (table.insertOrdered smaller key binding).Lists (bound ++ [(key, binding.argument)]) := by
  have added := (insertOrdered_perm smaller binding free).map
    fun entry : κ × Binding => (entry.1, entry.2.argument)
  refine ⟨added.trans ((lists.perm.cons _).trans (List.perm_append_singleton _ _).symm), ?_⟩
  have fresh : key ∉ bound.map Prod.fst := by
    rw [← (lists.perm.map Prod.fst).mem_iff, List.map_map]
    intro found
    obtain ⟨entry, inTable, same⟩ := List.mem_map.1 found
    have differs := List.lookup_eq_none_iff.1 free entry inTable
    simp only [Function.comp_apply] at same
    simp [same] at differs
  rw [List.map_append, List.map_singleton]
  exact List.nodup_append.2 ⟨lists.keys, List.nodup_singleton _, by
    rintro other found _ (isKey : _ ∈ [key]) rfl
    exact fresh (List.mem_singleton.1 isKey ▸ found)⟩

omit [DecidableEq κ] in
theorem lists_nil : ({} : Table κ Binding).Lists [] := ⟨.nil, List.nodup_nil⟩

end Table

/-! ## Functions -/

namespace Program

variable {program after : Program} {function : Function} {arguments : List VarId} {argument : VarId}

def vulkanPlaces (program : Program) (arguments : List VarId) : List ((UInt32 × UInt32) × VarId) :=
  arguments.filterMap fun argument => (program.var argument).vkUniform?.map (·, argument)

def metalPlaces (program : Program) (arguments : List VarId) : List (UInt32 × VarId) :=
  arguments.filterMap fun argument => (program.var argument).metalIndex?.map (·, argument)

/-- Some arguments of a function have their roles, and the tables of the function are exact for them. -/
structure Binds (program : Program) (function : Function) (arguments : List VarId) : Prop where
  input : ∀ argument ∈ function.stageIn, function.isEntryPoint = true ∧ argument ∈ arguments ∧
    program.IsStageInput (program.var argument)
  /-- An argument of an entry point is its stage input or a buffer. -/
  role : function.isEntryPoint = true → ∀ argument ∈ arguments,
    function.stageIn = some argument ∨ program.IsBuffer (program.var argument)
  bare : function.isEntryPoint = false → ∀ argument ∈ arguments, program.IsBare (program.var argument)
  vulkan : function.vkBindings.Lists (program.vulkanPlaces arguments)
  metal : function.mtlBuffers.Lists (program.metalPlaces arguments)
  used : ∀ argument ∈ arguments, ∀ attr ∈ (program.var argument).attributes, attr.used = true

theorem binds_nil (noInput : function.stageIn = none) (noVulkan : function.vkBindings = {})
    (noMetal : function.mtlBuffers = {}) : program.Binds function [] where
  input argument found := by
    rw [noInput] at found
    cases found
  role _ argument found := absurd found List.not_mem_nil
  bare _ argument found := absurd found List.not_mem_nil
  vulkan := noVulkan ▸ Table.lists_nil
  metal := noMetal ▸ Table.lists_nil
  used argument found := absurd found List.not_mem_nil

theorem Binds.keep (binds : program.Binds function arguments)
    (vars : ∀ argument ∈ arguments, (program.var argument).Marks (after.var argument) ∧
      (after.var argument).type = (program.var argument).type ∧
        after.type (program.var argument).type = program.type (program.var argument).type) :
    after.Binds function arguments := by
  have isPointer (argument : VarId) (found : argument ∈ arguments) :
      after.isPointer (after.var argument).type = program.isPointer (program.var argument).type := by
    rw [Program.isPointer, (vars argument found).2.1, (vars argument found).2.2]
    rfl
  have vulkan : after.vulkanPlaces arguments = program.vulkanPlaces arguments :=
    List.filterMap_congr fun argument found => by
      rw [Variable.vkUniform?, (vars argument found).1.findSome?_eq AttributeKind.vkUniform?]
      rfl
  have metal : after.metalPlaces arguments = program.metalPlaces arguments :=
    List.filterMap_congr fun argument found => by
      rw [Variable.metalIndex?, (vars argument found).1.findSome?_eq AttributeKind.metalIndex?]
      rfl
  refine ⟨fun argument isInput => ?_, fun isEntry argument found => ?_, fun isPlain argument found => ?_,
    by rw [vulkan]; exact binds.vulkan, by rw [metal]; exact binds.metal, fun argument found =>
      (vars argument found).1.used (binds.used argument found)⟩
  · obtain ⟨isEntry, found, struct, marked, only⟩ := binds.input argument isInput
    obtain ⟨marks, type, node⟩ := vars argument found
    refine ⟨isEntry, found, ?_, fun none => marked (marks.eq_nil_iff.1 none),
      (marks.forall_iff (· = .stageIn)).2 only⟩
    rw [Program.isStruct, type, node]
    exact struct
  · refine (binds.role isEntry argument found).imp_right fun ⟨pointer, one, other, only⟩ => ?_
    have marks := (vars argument found).1
    exact ⟨(isPointer argument found).trans pointer,
      (marks.countP_eq fun kind => kind.vkUniform?.isSome).trans one,
      (marks.countP_eq fun kind => kind.metalIndex?.isSome).trans other,
      (marks.forall_iff (·.isBuffer = true)).2 only⟩
  · obtain ⟨unmarked, noPointer⟩ := binds.bare isPlain argument found
    exact ⟨(vars argument found).1.eq_nil_iff.2 unmarked, (isPointer argument found).trans noPointer⟩

section

variable (binds : program.Binds function arguments)
  (used : ∀ attr ∈ (program.var argument).attributes, attr.used = true)

include binds used

theorem Binds.stageInput (isEntry : function.isEntryPoint = true) (free : function.stageIn = none)
    (isInput : program.IsStageInput (program.var argument)) :
    program.Binds { function with stageIn := some argument } (arguments ++ [argument]) := by
  have noVulkan : (program.var argument).vkUniform? = none :=
    List.findSome?_eq_none_iff.2 fun attr found => by rw [isInput.only attr found]; rfl
  have noMetal : (program.var argument).metalIndex? = none :=
    List.findSome?_eq_none_iff.2 fun attr found => by rw [isInput.only attr found]; rfl
  refine ⟨?_, fun _ other found => ?_, fun isPlain => absurd (isEntry.symm.trans isPlain) (by decide),
    ?_, ?_, ?_⟩
  · rintro _ ⟨⟩
    exact ⟨isEntry, by simp, isInput⟩
  · rcases List.mem_append.1 found with old | isNew
    · refine (binds.role isEntry other old).elim (fun isStageIn => ?_) .inr
      rw [free] at isStageIn
      cases isStageIn
    · rw [List.mem_singleton.1 isNew]
      exact .inl rfl
  · simpa [vulkanPlaces, noVulkan] using binds.vulkan
  · simpa [metalPlaces, noMetal] using binds.metal
  · simpa [or_imp, forall_and] using ⟨binds.used, used⟩

theorem Binds.buffer {place : UInt32 × UInt32} {index : UInt32} {vulkanSpan metalSpan : Span}
    (isEntry : function.isEntryPoint = true) (isBuffer : program.IsBuffer (program.var argument))
    (vulkan : (program.var argument).vkUniform? = some place)
    (metal : (program.var argument).metalIndex? = some index)
    (freeVulkan : function.vkBindings.find? place = none)
    (freeMetal : function.mtlBuffers.find? index = none) :
    program.Binds
      { function with
        mtlBuffers := function.mtlBuffers.insertOrdered metalSmaller index ⟨argument, metalSpan⟩
        vkBindings := function.vkBindings.insertOrdered vulkanSmaller place ⟨argument, vulkanSpan⟩ }
      (arguments ++ [argument]) := by
  refine ⟨fun other isInput => ?_, fun _ other found => ?_,
    fun isPlain => absurd (isEntry.symm.trans isPlain) (by decide), ?_, ?_, ?_⟩
  · obtain ⟨entry, found, holds⟩ := binds.input other isInput
    exact ⟨entry, List.mem_append_left _ found, holds⟩
  · rcases List.mem_append.1 found with old | isNew
    · exact binds.role isEntry other old
    · rw [List.mem_singleton.1 isNew]
      exact .inr isBuffer
  · simpa [vulkanPlaces, vulkan] using binds.vulkan.insert vulkanSmaller ⟨argument, vulkanSpan⟩ freeVulkan
  · simpa [metalPlaces, metal] using binds.metal.insert metalSmaller ⟨argument, metalSpan⟩ freeMetal
  · simpa [or_imp, forall_and] using ⟨binds.used, used⟩

omit used in
theorem Binds.plain (isPlain : function.isEntryPoint = false)
    (isBare : program.IsBare (program.var argument)) :
    program.Binds function (arguments ++ [argument]) := by
  have noVulkan : (program.var argument).vkUniform? = none := by
    rw [Variable.vkUniform?, isBare.unmarked, List.findSome?_nil]
  have noMetal : (program.var argument).metalIndex? = none := by
    rw [Variable.metalIndex?, isBare.unmarked, List.findSome?_nil]
  refine ⟨fun other isInput => ?_, fun isEntry => absurd (isEntry.symm.trans isPlain) (by decide),
    fun _ other found => ?_, ?_, ?_, ?_⟩
  · exact absurd ((binds.input other isInput).1.symm.trans isPlain) (by decide)
  · rcases List.mem_append.1 found with old | isNew
    · exact binds.bare isPlain other old
    · rw [List.mem_singleton.1 isNew]
      exact isBare
  · simpa [vulkanPlaces, noVulkan] using binds.vulkan
  · simpa [metalPlaces, noMetal] using binds.metal
  · simpa [or_imp, forall_and, isBare.unmarked] using binds.used

end

theorem binds_of_bare (isPlain : function.isEntryPoint = false) (noInput : function.stageIn = none)
    (noVulkan : function.vkBindings = {}) (noMetal : function.mtlBuffers = {})
    (bare : ∀ argument ∈ arguments, program.IsBare (program.var argument)) :
    program.Binds function arguments := by
  induction arguments using List.reverseRecOn with
  | nil => exact binds_nil noInput noVulkan noMetal
  | append_singleton arguments argument ih =>
    have front := ih fun other found => bare other (by simp [found])
    exact front.plain isPlain (bare argument (by simp))

end Program

/-! ## Attributes of a buffer -/

theorem bufferBindings_spec {attributes : List Attribute} {found bindings : BufferBindings}
    (accepted : bufferBindings found attributes = .ok bindings) :
    (∀ attr ∈ attributes, attr.kind.isBuffer = true) ∧
      (found.vulkan.toList.length + attributes.countP (fun attr => attr.kind.vkUniform?.isSome) =
        bindings.vulkan.toList.length) ∧
      (found.metal.toList.length + attributes.countP (fun attr => attr.kind.metalIndex?.isSome) =
        bindings.metal.toList.length) ∧
      bindings.vulkan.map Prod.fst =
        (found.vulkan.map Prod.fst).or (attributes.findSome? fun attr => attr.kind.vkUniform?) ∧
      bindings.metal.map Prod.fst =
        (found.metal.map Prod.fst).or (attributes.findSome? fun attr => attr.kind.metalIndex?) := by
  induction attributes generalizing found with
  | nil =>
    cases accepted
    simp
  | cons attr rest ih =>
    rw [bufferBindings] at accepted
    dsimp only at accepted
    split at accepted
    iterate 3
      split at accepted
      · cases accepted
      · have others := ih accepted
        simp_all [AttributeKind.isBuffer, AttributeKind.vkUniform?, AttributeKind.metalIndex?, add_comm]
    cases accepted

theorem checkUsed_eq_ok {attributes : List Attribute} (accepted : checkUsed attributes = .ok ()) :
    ∀ attr ∈ attributes, attr.used = true := by
  unfold checkUsed at accepted
  split at accepted
  · cases accepted
  · rename_i none
    simpa using none

end Shader
