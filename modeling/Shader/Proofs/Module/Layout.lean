import Shader.Proofs.Module.Compilation

/-! # The form of modules

The words of a module are a header and instructions, which can be told apart by the numbers of words in
front of them. They stand in the order of the sections of a module, and have no ids but those that some
instruction defines.

* `cutWords` cuts words into instructions; `cutWords_flatMap` says that it finds those that were written.
* `Instruction.IsModule` is the order of instructions in a module, `compile_layout` says that it is kept.
* `Instruction.Identified` says which ids instructions have, and `compile_identified` that every module is
  of this kind. -/

namespace Shader

/-! ## Cutting words into instructions -/

/-- The numbers and operands of the instructions that some words are. The high half of the first word of
an instruction says how many words it has. -/
def cutWords : List Word → Option (List (Word × List Word))
  | [] => some []
  | first :: rest =>
    let count := (first >>> 16).toNat
    if 0 < count ∧ count ≤ rest.length + 1 then
      (cutWords (rest.drop (count - 1))).map ((first &&& 0xFFFF, rest.take (count - 1)) :: ·)
    else none
termination_by words => words.length
decreasing_by
  simp only [List.length_drop, List.length_cons]
  omega

theorem toNat_first {opcode count : Word} (small : opcode.toNat < 65536) (fits : count.toNat < 65536) :
    (opcode ||| (count <<< 16)).toNat = count.toNat * 65536 + opcode.toNat := by
  have shifted : (count <<< 16).toNat = count.toNat <<< 16 := by
    have amount : (16 : UInt32).toNat % 32 = 16 := rfl
    rw [UInt32.toNat_shiftLeft, amount, Nat.shiftLeft_eq]
    exact Nat.mod_eq_of_lt (by omega)
  rw [UInt32.toNat_or, shifted, Nat.or_comm, ← Nat.shiftLeft_add_eq_or_of_lt (by simpa using small),
    Nat.shiftLeft_eq]

theorem cutWords_frame {opcode : Word} {operands rest : List Word} (small : opcode.toNat < 65536)
    (fits : (frame opcode operands).length ≤ 65535) :
    cutWords (frame opcode operands ++ rest) = (cutWords rest).map ((opcode, operands) :: ·) := by
  have short : operands.length + 1 ≤ 65535 := by simpa [frame] using fits
  have count : (operands.length.toUInt32 + 1).toNat = operands.length + 1 := by
    rw [UInt32.toNat_add, Nat.toUInt32, UInt32.toNat_ofNat']
    simp only [UInt32.toNat_one]
    omega
  have first := @toNat_first opcode (operands.length.toUInt32 + 1) small (by omega)
  have isCount : ((opcode ||| ((operands.length.toUInt32 + 1) <<< 16)) >>> 16).toNat = operands.length + 1 := by
    rw [UInt32.toNat_shiftRight, first, count, Nat.shiftRight_eq_div_pow]
    simp
    omega
  have isOpcode : (opcode ||| ((operands.length.toUInt32 + 1) <<< 16)) &&& 0xFFFF = opcode := by
    refine UInt32.toNat_inj.1 ?_
    rw [UInt32.toNat_and, first, show (0xFFFF : UInt32).toNat = 2 ^ 16 - 1 from rfl, Nat.and_two_pow_sub_one_eq_mod]
    omega
  rw [frame, List.cons_append, cutWords]
  simp [isCount, isOpcode]

namespace Instruction

theorem opcode_lt (instruction : Instruction) : instruction.opcode.toNat < 65536 := by
  cases instruction
  case constantBool value => cases value <;> dsimp only [opcode] <;> decide
  case unary op _ _ _ => cases op <;> dsimp only [opcode] <;> decide
  case binary op _ _ _ _ => cases op <;> dsimp only [opcode] <;> decide
  all_goals
    dsimp only [opcode]
    decide

def parts (instruction : Instruction) : Word × List Word :=
  (instruction.opcode, instruction.operands.map Operand.word)

end Instruction

theorem cutWords_flatMap {instructions : List Instruction}
    (fit : ∀ instruction ∈ instructions, instruction.words.length ≤ 65535) :
    cutWords (instructions.flatMap Instruction.words) = some (instructions.map Instruction.parts) := by
  induction instructions with
  | nil => rw [List.flatMap_nil, cutWords]; rfl
  | cons first rest ih =>
    rw [List.flatMap_cons, Instruction.words, cutWords_frame first.opcode_lt (fit first List.mem_cons_self),
      ih fun instruction inside => fit instruction (List.mem_cons_of_mem _ inside)]
    rfl

/-! ## The order of instructions -/

/-- Some instructions are a module with the functions of a program: its sections, and then a function with
the name and the parameters of each definition. -/
def Instruction.IsModule (program : Program) (instructions : List Instruction) : Prop :=
  ∃ (capabilities : List Capability) (imports entryPoints modes names annotations globals : List Instruction)
      (functions : List (List Instruction)),
    instructions = capabilities.map .capability ++ imports ++ [.memoryModel] ++ entryPoints ++ modes ++
      names ++ annotations ++ globals ++ functions.flatten ∧
    capabilities ≠ [] ∧ (∀ instruction ∈ imports, instruction.opcode ∈ Part.imports.opcodes) ∧
    (∀ instruction ∈ entryPoints, instruction.opcode ∈ Part.entryPoints.opcodes) ∧
    (∀ instruction ∈ modes, instruction.opcode ∈ Part.executionModes.opcodes) ∧
    (∀ instruction ∈ names, instruction.opcode ∈ Part.names.opcodes) ∧
    (∀ instruction ∈ annotations, instruction.opcode ∈ Part.annotations.opcodes) ∧
    (∀ instruction ∈ globals, instruction.opcode ∈ Part.globals.opcodes) ∧
    List.Forall₂ (fun function body => ∃ id, .name id (program.function function).name ∈ names ∧
      IsFunction id (if (program.function function).isEntryPoint then 0 else
        (program.function function).arguments.length) body) program.definedFunctions functions

def writtenInstructions (options : ModuleOptions) (source : String) : List Instruction :=
  ((compiledModule options source).map fun emitter => emitter.sections.instructions).getD []

/-! ### A sample -/

/-- An entry point with a loop, in which another function is called. -/
def moduleSource : String :=
  "int g(int b)\x7breturn b+1;\x7dstruct V\x7bint a;\x7d" ++
    "[[vertex]]void main(V v[[stage_in]])\x7bint i=0;for(;i<v.a;)i=g(i);\x7d"

def moduleWords : List Word :=
  (compile {} moduleSource).toOption.getD []

theorem moduleSource_accepted : (compile {} moduleSource).toOption.isSome = true ∧
    ∀ instruction ∈ writtenInstructions {} moduleSource, instruction.words.length ≤ 65535 := by
  decide +kernel

theorem compile_moduleSource : compile {} moduleSource = .ok moduleWords := by
  have succeeds := moduleSource_accepted.1
  unfold moduleWords
  cases outcome : compile {} moduleSource with
  | ok words => rfl
  | error diagnostic =>
    rw [outcome] at succeeds
    cases succeeds

section

variable {options : ModuleOptions} {source : String} {words : List Word}

/-- The words of the module of a source are five words and the instructions of a module, if none of these
is too long for the number of its words. -/
theorem compile_layout (compiles : compile options source = .ok words)
    (fit : ∀ instruction ∈ writtenInstructions options source, instruction.words.length ≤ 65535) :
    ∃ program header body, parse source = .ok program ∧ words = header ++ body ∧ header.length = 5 ∧
      cutWords body = some ((writtenInstructions options source).map Instruction.parts) ∧
      Instruction.IsModule program (writtenInstructions options source) := by
  obtain ⟨program, emitter, parsed, isModule, written, -, rfl⟩ := exists_written_of_compile compiles
  have instructions : writtenInstructions options source = emitter.sections.instructions := by
    simp [writtenInstructions, isModule]
  rw [instructions] at fit ⊢
  refine ⟨program, _, _, parsed, rfl, rfl, cutWords_flatMap fit, ?_⟩
  obtain ⟨bodies, isFlat, areWritten⟩ := written.bodies
  have sorted := written.accounts.sorted
  refine ⟨_, _, _, _, _, _, _, bodies, ?_, sorted.capabilities, sorted.parts .imports,
    sorted.parts .entryPoints, sorted.parts .executionModes, sorted.parts .names, sorted.parts .annotations,
    sorted.parts .globals, areWritten⟩
  rw [Sections.instructions, isFlat]
  rfl

theorem compile_layout_sample : compile {} moduleSource = .ok moduleWords ∧
    (∀ instruction ∈ writtenInstructions {} moduleSource, instruction.words.length ≤ 65535) ∧
    ∃ program header body, parse moduleSource = .ok program ∧ moduleWords = header ++ body ∧
      header.length = 5 ∧ cutWords body = some ((writtenInstructions {} moduleSource).map Instruction.parts) ∧
      Instruction.IsModule program (writtenInstructions {} moduleSource) :=
  ⟨compile_moduleSource, moduleSource_accepted.2, compile_layout compile_moduleSource moduleSource_accepted.2⟩

/-! ## Ids -/

/-- The ids of some instructions: those below a bound, each of them the result of one instruction. -/
structure Instruction.Identified (bound : Id) (instructions : List Instruction) : Prop where
  inRange : ∀ instruction ∈ instructions, ∀ id ∈ instruction.results ++ instruction.uses,
    0 < id.toNat ∧ id.toNat < bound.toNat
  once : ∀ id : Id, 0 < id.toNat → id.toNat < bound.toNat → (instructions.flatMap results).count id = 1
  defined : ∀ instruction ∈ instructions, ∀ id ∈ instruction.uses,
    ∃ definition ∈ instructions, id ∈ definition.results

theorem Emitter.Accounts.identified {emitter : Emitter} {done : Set FunctionId}
    (accounts : emitter.Accounts done 0)
    (all : ∀ function id, emitter.functionIds.find? function = some id → function ∈ done) :
    Instruction.Identified emitter.bound emitter.sections.instructions := by
  have settled := accounts.settled all
  have bound : emitter.bound.toNat = emitter.lastId.toNat + 1 := by
    have bounded := accounts.bounded
    rw [Emitter.bound, UInt32.toNat_add]
    exact Nat.mod_eq_of_lt bounded
  have isResult (id : Id) : id ∈ emitter.sections.instructions.flatMap Instruction.results ↔
      0 < id.toNat ∧ id.toNat ≤ emitter.lastId.toNat := by
    rw [← mem_given, ← settled]
    exact Multiset.mem_coe.symm
  have inRange (id : Id) : 0 < id.toNat ∧ id.toNat ≤ emitter.lastId.toNat ↔
      0 < id.toNat ∧ id.toNat < emitter.bound.toNat := by
    rw [bound, Nat.lt_succ_iff]
  refine ⟨fun instruction inside id found => ?_, fun id positive below => ?_,
    fun instruction inside id isUsed => ?_⟩
  · rw [← inRange]
    rcases List.mem_append.1 found with found | isUsed
    · exact (isResult id).1 (List.mem_flatMap.2 ⟨instruction, inside, found⟩)
    · exact accounts.valid.used instruction inside id isUsed
  · have nodup := nodup_given emitter.lastId
    rw [← settled] at nodup
    exact List.count_eq_one_of_mem (Multiset.coe_nodup.1 nodup)
      ((isResult id).2 ((inRange id).2 ⟨positive, below⟩))
  · exact List.mem_flatMap.1 ((isResult id).2 (accounts.valid.used instruction inside id isUsed))

/-- The module of a source has the ids below the bound in its header, each of them the result of one
instruction. -/
theorem compile_identified (compiles : compile options source = .ok words) : ∃ bound, words[3]? = some bound ∧
      words = options.header bound ++ (writtenInstructions options source).flatMap Instruction.words ∧
      Instruction.Identified bound (writtenInstructions options source) := by
  obtain ⟨program, emitter, -, isModule, written, all, rfl⟩ := exists_written_of_compile compiles
  have instructions : writtenInstructions options source = emitter.sections.instructions := by
    simp [writtenInstructions, isModule]
  rw [instructions]
  exact ⟨emitter.bound, rfl, rfl, written.accounts.identified all⟩

theorem compile_identified_sample : compile {} moduleSource = .ok moduleWords ∧
    ∃ bound, moduleWords[3]? = some bound ∧
      moduleWords = ModuleOptions.header {} bound ++
        (writtenInstructions {} moduleSource).flatMap Instruction.words ∧
      Instruction.Identified bound (writtenInstructions {} moduleSource) :=
  ⟨compile_moduleSource, compile_identified compile_moduleSource⟩

end

end Shader
