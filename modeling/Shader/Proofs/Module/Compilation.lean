import Shader.Compiler
import Shader.Proofs.Lowering.Addressing
import Shader.Proofs.Module.EntryPoint
import Shader.Proofs.Module.FunctionLayout

/-! # Writing a module

A module is written function by function, and each one is there as a whole when the next one is begun. -/

namespace Shader

namespace Emitter

variable {program : Program} {done : List FunctionId} {current : Set FunctionId} {emitter after : Emitter}
  {function : FunctionId} {body : List Instruction}

/-- If an instruction is a call, it calls, by its id, an older function that is no entry point. -/
def CallsOlder (program : Program) (emitter : Emitter) (function : FunctionId) (instruction : Instruction) :
    Prop :=
  ∀ type result callee args, instruction = .functionCall type result callee args →
    ∃ other, other.index < function.index ∧ (program.function other).isEntryPoint = false ∧
      emitter.functionIds.find? other = some callee

/-- A function is written under its id and its name, and calls older ones. -/
structure HasFunction (program : Program) (emitter : Emitter) (function : FunctionId)
    (body : List Instruction) : Prop where
  isFunction : ∃ id, emitter.functionIds.find? function = some id ∧
    .name id (program.function function).name ∈ emitter.sections.names ∧
    Instruction.IsFunction id (if (program.function function).isEntryPoint then 0 else
      (program.function function).arguments.length) body
  calls : ∀ instruction ∈ body, emitter.CallsOlder program function instruction

/-- Some functions are written, in this order, and nothing of them is owed. -/
structure Written (program : Program) (done : List FunctionId) (emitter : Emitter) : Prop where
  accounts : emitter.Accounts {function | function ∈ done} 0
  emitted : ∀ function ∈ emitter.emitted, function ∈ done
  entryOrder : ∀ function ∈ emitter.entryOrder, function ∈ done
  known : ∀ function id, emitter.functionIds.find? function = some id →
    function ∈ emitter.called ∨ function ∈ done
  functions : ∃ bodies, emitter.sections.functions = bodies.flatten ∧
    List.Forall₂ (emitter.HasFunction program) done bodies

theorem written_empty : ({} : Emitter).Written program [] where
  accounts := by simpa using accounts_empty
  emitted _ found := nomatch found
  entryOrder _ found := nomatch found
  known _ _ found := nomatch found
  functions := ⟨[], rfl, .nil⟩

theorem Written.bodies (written : emitter.Written program done) :
    ∃ bodies, emitter.sections.functions = bodies.flatten ∧ List.Forall₂ (fun function body =>
        ∃ id, .name id (program.function function).name ∈ emitter.sections.names ∧
          Instruction.IsFunction id (if (program.function function).isEntryPoint then 0 else
            (program.function function).arguments.length) body) done bodies := by
  obtain ⟨bodies, isFlat, areWritten⟩ := written.functions
  refine ⟨bodies, isFlat, areWritten.imp fun function body has => ?_⟩
  obtain ⟨id, -, isNamed, isFunction⟩ := has.isFunction
  exact ⟨id, isNamed, isFunction⟩

theorem HasFunction.mono (has : emitter.HasFunction program function body)
    (names : emitter.sections.names ⊆ after.sections.names)
    (functionIds : ∀ function id, emitter.functionIds.find? function = some id →
      after.functionIds.find? function = some id) : after.HasFunction program function body := by
  obtain ⟨id, found, isNamed, isFunction⟩ := has.isFunction
  refine ⟨⟨id, functionIds _ _ found, names isNamed, isFunction⟩, ?_⟩
  intro instruction inside type result callee args isCall
  obtain ⟨other, older, isPlain, isCallee⟩ := has.calls instruction inside type result callee args isCall
  exact ⟨other, older, isPlain, functionIds _ _ isCallee⟩

theorem Written.changes (written : emitter.Written program done)
    (changes : Changes {function | function ∈ done} emitter after) : after.Written program done := by
  have keeps := changes.keeps
  refine ⟨changes.accounts written.accounts, ?_, ?_, fun function id found => ?_, ?_⟩
  · rw [keeps.emitted]
    exact written.emitted
  · rw [keeps.entryOrder]
    exact written.entryOrder
  · rcases keeps.known function id found with old | isCalled | isDone
    · exact (written.known function id old).imp_left fun isCalled => keeps.called isCalled
    · exact .inl isCalled
    · exact .inr isDone
  · obtain ⟨bodies, isFlat, areWritten⟩ := written.functions
    exact ⟨bodies, keeps.functions.trans isFlat, areWritten.imp fun _ _ has => has.mono keeps.names keeps.functionIds⟩

theorem Accounts.addFunction {written : Set FunctionId}
    (accounts : emitter.Accounts written (Instruction.allResults body))
    (used : ∀ instruction ∈ body, ∀ id ∈ instruction.uses, emitter.Has id) (emitted entryOrder : List FunctionId) :
    { emitter with
      sections := { emitter.sections with functions := emitter.sections.functions ++ body }
      emitted, entryOrder }.Accounts written 0 where
  valid := by
    refine { accounts.valid with used := fun instruction found => ?_ }
    have split : instruction ∈ emitter.sections.instructions ∨ instruction ∈ body := by
      simpa only [Sections.instructions, ← List.append_assoc, List.mem_append] using found
    exact split.elim (accounts.valid.used instruction) (used instruction)
  sorted := ⟨accounts.sorted.capabilities, fun part => by
    have sorted := accounts.sorted.parts part
    cases part <;> exact sorted⟩
  distinct := accounts.distinct
  noted := accounts.noted
  bounded := accounts.bounded
  balance := by
    have more : Instruction.allResults
        { emitter.sections with functions := emitter.sections.functions ++ body }.instructions =
          Instruction.allResults emitter.sections.instructions + Instruction.allResults body := by
      simp only [Sections.instructions, Instruction.allResults_append, add_assoc]
    rw [more, accounts.balance]
    ac_rfl

end Emitter

namespace Emit

open Shader.Emitter

variable {program : Program} {done : List FunctionId} {emitter middle after : Emitter} {graph : Graph}
  {interface : Option EntryInterface} {function : FunctionId}

theorem owed_eq_zero {context : WriteContext} {progress : Progress} {writer : Writer}
    (balanced : writer.Balanced context progress) (none : progress.loose = 0)
    (blocks : ∀ block, context.graph.HasBlock block → block ∈ progress.blocks)
    (values : ∀ value, context.graph.IsPlaced value → value ∈ progress.values) :
    writer.owed context.graph progress = 0 := by
  rw [Writer.owed, none, Table.outside_eq_zero, Table.outside_eq_zero]
  · rfl
  · exact fun block id found => blocks block (balanced.labels block id found).2
  · exact fun value id found => .inl (values value (balanced.owners value id found).1)

theorem functionBody_written (accounts : emitter.Accounts {function | function ∈ done} 0)
    (suits : Write.Suits ⟨program, graph, interface⟩) (new : graph.function ∉ done)
    (has : ∀ interface' ∈ interface, emitter.HasInterface interface')
    (calls : graph.CallsOnly (·.index < graph.function.index))
    (writes : functionBody program graph interface emitter = .ok () after) :
    ∃ middle body, Emitter.Keeps {graph.function} emitter middle ∧
      after = { middle with
        sections := { middle.sections with functions := middle.sections.functions ++ body }
        emitted := appendNew middle.emitted graph.function
        entryOrder := if (program.function graph.function).isEntryPoint then
          appendNew middle.entryOrder graph.function else middle.entryOrder } ∧
      middle.HasFunction program graph.function body ∧
      after.Accounts (insert graph.function {function | function ∈ done}) 0 := by
  let start : Progress := ⟨{function | function ∈ done}, ∅, ∅, 0⟩
  have balanced : Writer.Balanced ⟨program, graph, interface⟩ start { emitter } := by
    refine ⟨?_, ?_, ?_, ?_, Table.distinct_empty, ?_, Table.distinct_empty, ?_, ?_, ?_, ?_, has⟩
    · simpa [Writer.owed, Table.outside] using accounts
    · rintro _ ⟨⟩
    · rintro _ ⟨⟩
    · rintro _ _ ⟨⟩
    · rintro _ _ ⟨⟩
    · rintro _ _ ⟨⟩
    · exact fun _ found => absurd found (Set.notMem_empty _)
    · rintro _ _ _ ⟨⟩
    · rintro _ _ ⟨⟩
  unfold functionBody at writes
  split at writes
  · rename_i writer runs
    obtain ⟨balanced, keeps, body, isBody, id, found, isNamed, isFunction⟩ :=
      Write.function_gives suits (Set.mem_singleton _) new rfl rfl rfl rfl balanced _ writer runs
    have settled := owed_eq_zero balanced rfl (fun block hasBlock => .inr (Write.mem_handles.2 hasBlock))
      fun value placed => .inr ⟨_, Write.mem_handles.2 (Graph.hasBlock_of_mem_values placed), placed⟩
    have accounts := balanced.accounts
    rw [settled, add_zero] at accounts
    cases writes
    obtain rfl : writer.body = body := isBody
    rw [← suits.interface] at isFunction
    refine ⟨writer.emitter, writer.body, keeps.emitter, rfl, ⟨⟨id, found, isNamed, isFunction⟩, ?_⟩,
      accounts.addFunction balanced.used _ _⟩
    intro instruction inside type result callee args isCall
    obtain ⟨value, other, opcode, payload, isPlain, isCallee⟩ :=
      balanced.calls instruction inside type result callee args isCall
    exact ⟨other, calls value other opcode payload, isPlain, isCallee⟩
  · cases writes

end Emit

variable {source : String} {program : Program} {options : ModuleOptions} {function : FunctionId}
  {done : List FunctionId} {emitter after : Emitter} {graph : Graph}

section Defined

variable (parsed : parse source = .ok program) (defined : function ∈ program.definedFunctions)

include parsed defined

theorem suits_of_lower (lowered : lower program function = .ok graph)
    (plain : (program.function function).isEntryPoint = false) :
    Write.Suits ⟨program, graph, none⟩ := by
  obtain ⟨isFunction, paired, underway⟩ := lower_fits (sane_of_parse parsed) lowered
  refine ⟨(lower_arranged parsed defined lowered).1, by rw [isFunction, plain]; rfl, ?_⟩
  intro _ value _ isArgument
  refine ⟨(paired.proper value).argument isArgument, ?_⟩
  have accepts := underway.typed.accepts value
  rw [Graph.Accepts, isArgument] at accepts
  obtain ⟨index, argument, payload, found, -⟩ := accepts
  exact ⟨index, payload, (List.getElem?_eq_some_iff.1 found).1⟩

theorem exists_suits_of_emitFunction {last : Graph} (lowered : lower program function = .ok graph)
    (valid : emitter.Valid) (emits : emitFunction program (emitter, graph) = .ok () (after, last)) :
    ∃ written interface, Write.Suits ⟨program, written, interface⟩ ∧ written.function = function ∧
      (∀ given ∈ interface, emitter.HasInterface given) ∧ written.CallsOnly (·.index < function.index) ∧
      Emit.functionBody program written interface emitter = .ok () after := by
  obtain ⟨isFunction, -, underway⟩ := lower_fits (sane_of_parse parsed) lowered
  have calls := lower_callsOnly (sane_of_parse parsed) lowered
  have computable := underway.typed.computable
  obtain ⟨arranged, live⟩ := lower_arranged parsed defined lowered
  obtain ⟨_, _, ⟨⟩, emits⟩ := Emit.bind_eq_ok emits
  dsimp only at emits
  split at emits
  · rename_i isEntryPoint
    cases found : emitter.interfaces.find? graph.function with
    | none =>
      simp only [found] at emits
      cases emits
    | some interface =>
      simp only [found] at emits
      obtain ⟨_, ⟨middle, replaced⟩, replaces, emits⟩ := Emit.bind_eq_ok emits
      obtain ⟨_, _, ⟨⟩, emits⟩ := Emit.bind_eq_ok emits
      simp only [onPart] at replaces emits
      split at replaces
      · rename_i runs
        cases replaces
        obtain ⟨-, grows, -, keepsCalls, keeps⟩ := Build.replaceArguments_gives computable _ _ runs
        have isArranged := keeps (fun value found => live _ value (List.mem_of_mem_filter found)) arranged
        split at emits
        · rename_i writes
          cases emits
          refine ⟨_, some interface, ⟨isArranged, ?_, fun missing => nomatch missing⟩,
            grows.function.trans isFunction, ?_, keepsCalls _ calls, writes⟩
          · exact grows.function ▸ isEntryPoint
          · rintro _ ⟨⟩
            exact valid.interfaces _ _ found
        · cases emits
      · cases replaces
  · rename_i plain
    simp only [onPart] at emits
    split at emits
    · rename_i writes
      cases emits
      refine ⟨graph, none, ?_, isFunction, fun _ missing => (nomatch missing), calls, writes⟩
      rw [isFunction] at plain
      exact suits_of_lower parsed defined lowered (by simpa using plain)
    · cases emits

theorem compileFunction_written (new : function ∉ done) (written : emitter.Written program done)
    (compiles : compileFunction program function emitter = .ok () after) :
    after.Written program (done ++ [function]) := by
  unfold compileFunction at compiles
  split at compiles
  · cases compiles
  rename_i begun begins
  obtain ⟨changes, -⟩ := Emit.entryHeader_gives (Set.mem_singleton function) written.accounts.valid _ _ begins
  split at compiles
  · cases compiles
  rename_i graph lowered
  split at compiles
  · cases compiles
  rename_i last emits
  cases compiles
  have accounts := changes.accounts written.accounts
  obtain ⟨graph, interface, suits, rfl, has, calls, writes⟩ :=
    exists_suits_of_emitFunction parsed defined lowered accounts.valid emits
  obtain ⟨middle, body, keepsOn, rfl, hasFunction, accounts⟩ :=
    Emit.functionBody_written accounts suits new has calls writes
  have keeps := changes.keeps.trans keepsOn
  have more (other : FunctionId) : other ∈ done ++ [graph.function] ↔ other = graph.function ∨ other ∈ done := by
    simp [or_comm]
  refine ⟨?_, fun other found => ?_, fun other found => ?_, fun other id found => ?_, ?_⟩
  · convert accounts using 1
    exact Set.ext more
  · rw [more]
    rcases mem_appendNew.1 found with old | isNew
    · exact .inr (written.emitted other (keeps.emitted ▸ old))
    · exact .inl isNew
  · rw [more]
    have split : other ∈ middle.entryOrder ∨ other = graph.function := by
      dsimp only at found
      split_ifs at found
      · exact mem_appendNew.1 found
      · exact .inl found
    rcases split with old | isNew
    · exact .inr (written.entryOrder other (keeps.entryOrder ▸ old))
    · exact .inl isNew
  · rw [more]
    rcases keeps.known other id found with old | isCalled | isNew
    · exact (written.known other id old).imp (fun isCalled => keeps.called isCalled) .inr
    · exact .inl isCalled
    · exact .inr (.inl isNew)
  · obtain ⟨bodies, isFlat, areWritten⟩ := written.functions
    refine ⟨bodies ++ [body], ?_, ?_⟩
    · simp [keeps.functions, isFlat]
    · exact List.rel_append (areWritten.imp fun _ _ has => has.mono keeps.names keeps.functionIds)
        (.cons (hasFunction.mono (List.Subset.refl _) fun _ _ found => found) .nil)

end Defined

theorem compileFunctions_written {functions : List FunctionId} (parsed : parse source = .ok program)
    (defined : ∀ function ∈ functions, function ∈ program.definedFunctions)
    (distinct : (done ++ functions).Nodup) (written : emitter.Written program done)
    (compiles : functions.forM (compileNamed program) emitter = .ok () after) :
    after.Written program (done ++ functions) := by
  induction functions generalizing done emitter with
  | nil =>
    cases compiles
    rwa [List.append_nil]
  | cons function rest ih =>
    obtain ⟨_, middle, first, compiles⟩ := Emit.bind_eq_ok compiles
    have new : function ∉ done := fun old =>
      (List.disjoint_of_nodup_append distinct) old List.mem_cons_self
    unfold compileNamed at first
    split at first
    · rename_i runs
      cases first
      have goesOn := compileFunction_written parsed (defined function List.mem_cons_self) new written runs
      rw [List.append_cons] at distinct ⊢
      exact ih (fun other inside => defined other (List.mem_cons_of_mem _ inside)) distinct goesOn compiles
    · cases first

theorem Emit.checkCalls_eq_ok (checks : checkCalls program emitter = .ok () after) :
    after = emitter ∧ ∀ function ∈ emitter.called, function ∈ emitter.emitted := by
  obtain ⟨_, _, ⟨⟩, checks⟩ := Emit.bind_eq_ok checks
  cases found : emitter.called.find? fun function => function ∉ emitter.emitted with
  | none =>
    simp only [found] at checks
    cases checks
    exact ⟨rfl, by simpa using List.find?_eq_none.1 found⟩
  | some function =>
    simp only [found] at checks
    cases checks

theorem Emit.called_declareEntryPoint (declares : declareEntryPoint program function emitter = .ok () after) :
    after.called = emitter.called := by
  obtain ⟨id, middle, first, declares⟩ := Emit.bind_eq_ok declares
  have same : middle.called = emitter.called := by
    unfold functionId intern at first
    obtain ⟨_, _, ⟨⟩, first⟩ := Emit.bind_eq_ok first
    cases found : emitter.functionIds.find? function with
    | some id =>
      simp only [found] at first
      cases first
      rfl
    | none =>
      simp only [found] at first
      obtain ⟨_, _, fresh, first⟩ := Emit.bind_eq_ok first
      obtain ⟨_, rfl, rfl⟩ := freshId_eq_ok fresh
      cases first
      rfl
  rw [← same]
  obtain ⟨_, _, ⟨⟩, declares⟩ := Emit.bind_eq_ok declares
  obtain ⟨_, _, ⟨⟩, declares⟩ := Emit.bind_eq_ok declares
  split at declares <;> cases declares <;> rfl

theorem Emitter.Written.declareEntryPoints {functions : List FunctionId}
    (written : emitter.Written program done) (areWritten : ∀ function ∈ functions, function ∈ done)
    (declares : functions.forM (Emit.declareEntryPoint program) emitter = .ok () after) :
    after.Written program done ∧ after.called = emitter.called := by
  induction functions generalizing emitter with
  | nil =>
    cases declares
    exact ⟨written, rfl⟩
  | cons function rest ih =>
    obtain ⟨_, middle, first, declares⟩ := Emit.bind_eq_ok declares
    have isWritten := areWritten function List.mem_cons_self
    obtain ⟨changes, -⟩ := @Emit.declareEntryPoint_gives {other | other ∈ done} _ program _ isWritten
      written.accounts.valid _ _ first
    obtain ⟨goesOn, same⟩ := ih (written.changes changes)
      (fun other inside => areWritten other (List.mem_cons_of_mem _ inside)) declares
    exact ⟨goesOn, same.trans (Emit.called_declareEntryPoint first)⟩

def compiledModule (options : ModuleOptions) (source : String) : Option Emitter :=
  match parse source with
  | .ok program =>
    match (compileProgram program options).run {} with
    | .ok _ emitter => some emitter
    | .error _ _ => none
  | .error _ => none

theorem exists_written_of_compile {words : List Word} (compiles : compile options source = .ok words) :
    ∃ (program : Program) (emitter : Emitter), parse source = .ok program ∧
      compiledModule options source = some emitter ∧ emitter.Written program program.definedFunctions ∧
      (∀ function id, emitter.functionIds.find? function = some id → function ∈ program.definedFunctions) ∧
      words = options.header emitter.bound ++ emitter.sections.instructions.flatMap Instruction.words := by
  unfold compile at compiles
  cases parsed : parse source with
  | error diagnostic =>
    rw [parsed] at compiles
    cases compiles
  | ok program =>
    rw [parsed] at compiles
    change (match (compileProgram program options).run {} with
      | .ok words _ => Except.ok words
      | .error failure _ => .error failure.diagnostic) = .ok words at compiles
    split at compiles
    · rename_i emitter runs
      cases compiles
      have isModule : compiledModule options source = some emitter := by
        simp only [compiledModule, parsed, runs]
      obtain ⟨_, middle, writes, runs⟩ := Emit.bind_eq_ok runs
      have written := compileFunctions_written parsed (fun _ inside => inside)
        (nodup_definedFunctions parsed) Emitter.written_empty writes
      obtain ⟨_, checked, checks, runs⟩ := Emit.bind_eq_ok runs
      obtain ⟨isSame, areWritten⟩ := Emit.checkCalls_eq_ok checks
      rw [isSame] at runs
      obtain ⟨_, _, ⟨⟩, runs⟩ := Emit.bind_eq_ok runs
      obtain ⟨_, last, declares, runs⟩ := Emit.bind_eq_ok runs
      obtain ⟨_, _, ⟨⟩, runs⟩ := Emit.bind_eq_ok runs
      cases runs
      obtain ⟨declared, called⟩ := written.declareEntryPoints written.entryOrder declares
      refine ⟨program, _, rfl, isModule, declared, fun function id found => ?_, rfl⟩
      rcases declared.known function id found with isCalled | isWritten
      · exact written.emitted function (areWritten function (called ▸ isCalled))
      · exact isWritten
    · cases compiles

end Shader
