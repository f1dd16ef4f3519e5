import Shader.Proofs.Module.Layout

/-! # Calls between the functions of a module

The functions of a module are written in the order of their definitions, and a definition can call only what
was defined before it.

* `Instruction.CallsBackwards` says that functions call only functions in front of them.
* `Instruction.not_transGen_calls` draws from it that there is no recursion.
* `compile_calls_backwards` says that every module is of this kind. -/

namespace Shader

namespace Instruction

def callee? : Instruction → Option Id
  | .functionCall _ _ callee _ => some callee
  | _ => none

def Calls (functions : List (FunctionId × List Instruction)) (caller callee : Id) : Prop :=
  ∃ function ∈ functions, (∃ count, IsFunction caller count function.2) ∧
    ∃ instruction ∈ function.2, instruction.callee? = some callee

/-- In a module with the functions of a program, only functions call others, and what they call is no entry
point and is defined in front of them. So no function calls itself, not even through others. -/
def CallsBackwards (program : Program) (instructions : List Instruction) : Prop :=
  ∃ (declarations : List Instruction) (functions : List (FunctionId × List Instruction)),
    instructions = declarations ++ functions.flatMap Prod.snd ∧
    functions.map Prod.fst = program.definedFunctions ∧
    (∀ instruction ∈ declarations, instruction.callee? = none) ∧
    (∀ front caller rest, functions = front ++ caller :: rest → (∃ id count, IsFunction id count caller.2) ∧
      ∀ instruction ∈ caller.2, ∀ callee, instruction.callee? = some callee →
        ∃ function ∈ front, (program.function function.1).isEntryPoint = false ∧
          IsFunction callee (program.function function.1).arguments.length function.2) ∧
    ∀ id, ¬Relation.TransGen (Calls functions) id id

theorem callee?_of_opcode {part : Part} {instruction : Instruction}
    (belongs : instruction.opcode ∈ part.opcodes) : instruction.callee? = none := by
  cases instruction with
  | functionCall => cases part <;> simp [Part.opcodes, opcode] at belongs
  | _ => rfl

theorem IsFunction.mem_results {id : Id} {count : Nat} {body : List Instruction}
    (isFunction : IsFunction id count body) : id ∈ body.flatMap results := by
  obtain ⟨returnType, functionType, parameters, first, blocks, rfl, -⟩ := isFunction
  exact List.mem_flatMap.2 ⟨_, List.mem_cons_self, List.mem_singleton_self id⟩

theorem not_transGen_calls {functions : List (FunctionId × List Instruction)}
    (distinct : ((functions.flatMap Prod.snd).flatMap results).Nodup)
    (older : ∀ function ∈ functions, ∀ instruction ∈ function.2, ∀ callee, instruction.callee? = some callee →
      ∃ other ∈ functions, other.1.index < function.1.index ∧ ∃ count, IsFunction callee count other.2) (id : Id) :
    ¬Relation.TransGen (Calls functions) id id := by
  have unique {id : Id} {first second : FunctionId × List Instruction} {count other : Nat}
      (isFirst : first ∈ functions) (isSecond : second ∈ functions)
      (hasFirst : IsFunction id count first.2) (hasSecond : IsFunction id other second.2) : first = second := by
    by_contra differ
    rw [List.flatMap_assoc, List.nodup_flatMap] at distinct
    have : Std.Symm (Function.onFun List.Disjoint fun function : FunctionId × List Instruction =>
      function.2.flatMap results) := ⟨fun _ _ => List.Disjoint.symm⟩
    exact distinct.2.forall isFirst isSecond differ hasFirst.mem_results hasSecond.mem_results
  have descends {caller callee : Id} (reaches : Relation.TransGen (Calls functions) caller callee) :
      ∃ first ∈ functions, ∃ second ∈ functions, second.1.index < first.1.index ∧
        (∃ count, IsFunction caller count first.2) ∧ ∃ count, IsFunction callee count second.2 := by
    induction reaches with
    | single calls =>
      obtain ⟨function, inside, isCaller, instruction, isInside, isCallee⟩ := calls
      obtain ⟨other, isOther, isOlder, isFunction⟩ := older function inside instruction isInside _ isCallee
      exact ⟨function, inside, other, isOther, isOlder, isCaller, isFunction⟩
    | tail _ calls ih =>
      obtain ⟨first, isFirst, second, isSecond, isOlder, isCaller, _, isMiddle⟩ := ih
      obtain ⟨function, inside, ⟨_, isSame⟩, instruction, isInside, isCallee⟩ := calls
      obtain rfl := unique isSecond inside isMiddle isSame
      obtain ⟨other, isOther, isOlderStill, isFunction⟩ := older second inside instruction isInside _ isCallee
      exact ⟨first, isFirst, other, isOther, isOlderStill.trans isOlder, isCaller, isFunction⟩
  intro reaches
  obtain ⟨first, isFirst, second, isSecond, isOlder, ⟨_, isCaller⟩, _, isCallee⟩ := descends reaches
  exact isOlder.ne (congrArg (·.1.index) (unique isSecond isFirst isCallee isCaller))

end Instruction

theorem Sections.Sorted.exists_declarations {sections : Sections} (sorted : sections.Sorted) :
    ∃ declarations, sections.instructions = declarations ++ sections.functions ∧
      ∀ instruction ∈ declarations, instruction.callee? = none := by
  have none (part : Part) : ∀ instruction ∈ part.of sections, instruction.callee? = none :=
    fun instruction inside => Instruction.callee?_of_opcode (sorted.parts part instruction inside)
  refine ⟨_, rfl, ?_⟩
  simp only [List.forall_mem_append, List.forall_mem_map, List.forall_mem_singleton]
  exact ⟨⟨⟨⟨⟨⟨⟨fun _ _ => rfl, none .imports⟩, rfl⟩, none .entryPoints⟩, none .executionModes⟩, none .names⟩,
    none .annotations⟩, none .globals⟩

theorem Emitter.HasFunction.exists_callee {program : Program} {emitter : Emitter}
    {front rest : List (FunctionId × List Instruction)} {caller : FunctionId × List Instruction}
    {instruction : Instruction} {callee : Id}
    (sorted : ((front ++ caller :: rest).map Prod.fst).Pairwise (·.index < ·.index))
    (has : ∀ function ∈ front ++ caller :: rest, emitter.HasFunction program function.1 function.2)
    (all : ∀ function id, emitter.functionIds.find? function = some id →
      function ∈ (front ++ caller :: rest).map Prod.fst)
    (inside : instruction ∈ caller.2) (isCallee : instruction.callee? = some callee) :
    ∃ function ∈ front, function.1.index < caller.1.index ∧
      (program.function function.1).isEntryPoint = false ∧
      Instruction.IsFunction callee (program.function function.1).arguments.length function.2 := by
  obtain ⟨type, result, args, rfl⟩ :
      ∃ type result args, instruction = .functionCall type result callee args := by
    cases instruction <;> cases isCallee
    exact ⟨_, _, _, rfl⟩
  obtain ⟨other, isOlder, isPlain, found⟩ := (has caller (by simp)).calls _ inside _ _ _ _ rfl
  have isDefined := all other callee found
  rw [List.map_append, List.map_cons] at sorted isDefined
  have isFront : other ∈ front.map Prod.fst := by
    rcases List.mem_append.1 isDefined with isFront | isLater
    · exact isFront
    · rcases List.mem_cons.1 isLater with rfl | isRest
      · exact absurd isOlder (lt_irrefl _)
      · have later := (List.pairwise_cons.1 (List.pairwise_append.1 sorted).2.1).1 other isRest
        exact absurd isOlder later.asymm
  obtain ⟨function, inFront, rfl⟩ := List.mem_map.1 isFront
  obtain ⟨id, isId, -, isFunction⟩ := (has function (List.mem_append_left _ inFront)).isFunction
  rw [found] at isId
  cases isId
  rw [isPlain] at isFunction
  exact ⟨function, inFront, isOlder, isPlain, isFunction⟩

section

variable {options : ModuleOptions} {source : String} {words : List Word}

/-- In the module of a source, functions call only functions that are no entry points and are defined in
front of them. -/
theorem compile_calls_backwards (compiles : compile options source = .ok words) :
    ∃ program bound, parse source = .ok program ∧
      words = options.header bound ++ (writtenInstructions options source).flatMap Instruction.words ∧
      Instruction.CallsBackwards program (writtenInstructions options source) := by
  obtain ⟨program, emitter, parsed, isModule, written, all, rfl⟩ := exists_written_of_compile compiles
  have instructions : writtenInstructions options source = emitter.sections.instructions := by
    simp [writtenInstructions, isModule]
  rw [instructions]
  refine ⟨program, emitter.bound, parsed, rfl, ?_⟩
  obtain ⟨declarations, isSplit, noCalls⟩ := written.accounts.sorted.exists_declarations
  obtain ⟨bodies, isFlat, areWritten⟩ := written.functions
  obtain ⟨sameLength, has⟩ := List.forall₂_iff_zip.1 areWritten
  let functions := program.definedFunctions.zip bodies
  have first : functions.map Prod.fst = program.definedFunctions := List.map_fst_zip sameLength.le
  have second : functions.flatMap Prod.snd = emitter.sections.functions := by
    rw [isFlat, List.flatMap_def, List.map_snd_zip sameLength.ge]
  have sorted := sorted_definedFunctions parsed
  have distinct := Emitter.nodup_given emitter.lastId
  rw [← written.accounts.settled all, Instruction.allResults, isSplit, List.flatMap_append] at distinct
  rw [← first] at sorted all
  have hasFunction {function} (found : function ∈ functions) : emitter.HasFunction program function.1 function.2 :=
    has found
  have calls {front rest caller} (split : functions = front ++ caller :: rest) {instruction}
      (inside : instruction ∈ caller.2) {callee} (isCallee : instruction.callee? = some callee) :=
    Emitter.HasFunction.exists_callee (split ▸ sorted) (fun _ found => hasFunction (split ▸ found)) (split ▸ all)
      inside isCallee
  refine ⟨declarations, functions, by rw [second, isSplit], first, noCalls,
    fun front caller rest split => ⟨?_, fun instruction inside callee isCallee => ?_⟩,
    Instruction.not_transGen_calls ?_ fun function inside instruction isInside callee isCallee => ?_⟩
  · obtain ⟨id, -, -, isFunction⟩ := (hasFunction (show caller ∈ functions by simp [split])).isFunction
    exact ⟨id, _, isFunction⟩
  · obtain ⟨function, inFront, -, isFunction⟩ := calls split inside isCallee
    exact ⟨function, inFront, isFunction⟩
  · rw [second]
    exact (Multiset.coe_nodup.1 distinct).sublist (List.sublist_append_right _ _)
  · obtain ⟨front, rest, split⟩ := List.append_of_mem inside
    obtain ⟨other, inFront, isOlder, -, isFunction⟩ := calls split isInside isCallee
    exact ⟨other, split ▸ List.mem_append_left _ inFront, isOlder, _, isFunction⟩

theorem compile_calls_backwards_sample : compile {} moduleSource = .ok moduleWords ∧
    ∃ program bound, parse moduleSource = .ok program ∧
      moduleWords = ModuleOptions.header {} bound ++
        (writtenInstructions {} moduleSource).flatMap Instruction.words ∧
      Instruction.CallsBackwards program (writtenInstructions {} moduleSource) :=
  ⟨compile_moduleSource, compile_calls_backwards compile_moduleSource⟩

end

end Shader
