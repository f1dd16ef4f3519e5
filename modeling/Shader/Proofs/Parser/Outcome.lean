import Shader.Parser.Declaration
import Shader.Proofs.Program.Growth

/-! # Outcomes of parsing steps

What a step of parsing leaves when it does not fail. -/

namespace Shader

/-! ## Successful steps -/

namespace Parser

variable {α β : Type} {state : ParserState} {step : Parser α} {next : α → Parser β}
  {post weaker middle : α → ParserState → Prop} {final : β → ParserState → Prop}

/-- If a step succeeds, its result and the state behind it have a property. -/
def Gives (step : Parser α) (state : ParserState) (post : α → ParserState → Prop) : Prop :=
  ∀ result after, step state = .ok result after → post result after

theorem Gives.mono (gives : Gives step state post)
    (implies : ∀ result after, post result after → weaker result after) : Gives step state weaker :=
  fun result after runs => implies result after (gives result after runs)

theorem gives_pure {value : α} (holds : post value state) : Gives (pure value) state post := by
  rintro _ _ ⟨⟩
  exact holds

theorem gives_throw {diagnostic : Diagnostic} : Gives (throw diagnostic) state post := by
  rintro _ _ ⟨⟩

theorem Gives.bind (first : Gives step state middle)
    (second : ∀ value after, middle value after → Gives (next value) after final) :
    Gives (step >>= next) state final := by
  intro result last runs
  change EStateM.bind step next state = .ok result last at runs
  unfold EStateM.bind at runs
  split at runs
  · rename_i value after stepped
    exact second value after (first value after stepped) result last runs
  · cases runs

theorem gives_get_bind {next : ParserState → Parser β} (continues : Gives (next state) state final) :
    Gives (get >>= next) state final :=
  continues

theorem gives_modify {change : ParserState → ParserState} {post : PUnit → ParserState → Prop}
    (holds : post .unit (change state)) : Gives (modify change) state post := by
  rintro _ _ ⟨⟩
  exact holds

theorem gives_modify_bind {change : ParserState → ParserState} {next : PUnit → Parser β}
    (continues : Gives (next .unit) (change state) final) :
    Gives (modify change >>= next) state final :=
  continues

theorem gives_accept {result : Except Diagnostic α}
    (holds : ∀ value, result = .ok value → post value state) :
    Gives (accept result) state post := by
  cases result with
  | ok value => exact gives_pure (holds value rfl)
  | error diagnostic => exact gives_throw

theorem gives_accept_bind {result : Except Diagnostic α}
    (continues : ∀ value, result = .ok value → Gives (next value) state final) :
    Gives (accept result >>= next) state final := by
  cases result with
  | ok value => exact continues value rfl
  | error diagnostic => exact gives_throw

theorem gives_throw_bind {diagnostic : Diagnostic} : Gives (throw diagnostic >>= next) state final :=
  gives_throw

theorem gives_peek_bind {next : Token → Parser β}
    (continues : ∀ token, Gives (next token) state final) : Gives (peek >>= next) state final := by
  have peeked : Gives peek state fun _ after => after = state := by
    refine gives_get_bind (gives_accept fun _ _ => rfl)
  refine Gives.bind peeked ?_
  rintro token _ rfl
  exact continues token

theorem gives_repeatFrom {start : α} {step : α → Parser (α ⊕ β)}
    (invariant : α → ParserState → Prop) (holds : invariant start state)
    (each : ∀ value state, invariant value state → Gives (step value) state fun result after =>
      result.elim (invariant · after) (final · after)) :
    Gives (repeatFrom start step) state final := by
  have rounds (limit : Nat) (value : α) (state : ParserState) (holds : invariant value state) :
      Gives (repeatWithin step limit value) state final := by
    induction limit generalizing value state with
    | zero => exact gives_throw
    | succ limit ih =>
      rw [repeatWithin]
      refine Gives.bind (each value state holds) ?_
      rintro (next | result) after holds
      · exact ih next after holds
      · exact gives_pure holds
  exact gives_get_bind (rounds _ start state holds)

end Parser

/-! ## Scopes -/

def Scopes.locals (scopes : Scopes) : Set VarId :=
  {var | ∃ scope ∈ scopes.blocks, ∃ name span, scope.find? name = some ⟨.var var, span⟩}

def Scopes.globalVars (scopes : Scopes) : Set VarId :=
  {var | ∃ name span, scopes.globals.find? name = some ⟨.var var, span⟩}

def Scopes.Binds (scopes : Scopes) (symbol : Symbol) : Prop :=
  (∃ scope ∈ scopes.blocks, ∃ name span, scope.find? name = some ⟨symbol, span⟩) ∨
    ∃ name span, scopes.globals.find? name = some ⟨symbol, span⟩

theorem Scopes.binds_of_lookup {scopes : Scopes} {name : String} {symbol : Symbol}
    {span : Option Span} (found : scopes.lookup? name = some ⟨symbol, span⟩) :
    scopes.Binds symbol := by
  unfold Scopes.lookup? at found
  split at found
  · rename_i entry first
    cases found
    obtain ⟨scope, inBlocks, isBound⟩ := List.exists_of_findSome?_eq_some first
    exact .inl ⟨scope, inBlocks, name, span, isBound⟩
  · exact .inr ⟨name, span, found⟩

theorem Scopes.mem_of_lookup {scopes : Scopes} {name : String} {var : VarId} {span : Option Span}
    (found : scopes.lookup? name = some ⟨.var var, span⟩) :
    var ∈ scopes.locals ∨ var ∈ scopes.globalVars :=
  Scopes.binds_of_lookup found

theorem Scopes.binds_of_findType {scopes : Scopes} {name : String} {type : TypeId}
    (found : scopes.findType? name = some type) : scopes.Binds (.type type) := by
  unfold Scopes.findType? at found
  split at found
  · rename_i named
    cases found
    exact Scopes.binds_of_lookup named
  · cases found

def Program.Knows (program : Program) : Symbol → Prop
  | .type type => program.NoPointer type
  | .var var => var.index < program.vars.size
  | .function function => function.index < program.functions.size

theorem Program.Knows.grows {before after : Program} {symbol : Symbol} (knows : before.Knows symbol)
    (grows : before.Grows after) : after.Knows symbol := by
  cases symbol with
  | type => exact Program.NoPointer.grows grows knows
  | var => exact lt_of_lt_of_le knows grows.vars
  | function => exact lt_of_lt_of_le knows grows.functions.size

structure ParserState.Sane (state : ParserState) : Prop where
  program : state.program.Sane
  known : ∀ symbol, state.scopes.Binds symbol → state.program.Knows symbol
  globals : ∀ var ∈ state.scopes.globalVars, (state.program.var var).kind = .global

namespace ParserState

variable {start middle after : ParserState}

theorem Sane.has_local (sane : start.Sane) {var : VarId} (found : var ∈ start.scopes.locals) :
    var.index < start.program.vars.size :=
  sane.known (.var var) (.inl found)

theorem Sane.has_global (sane : start.Sane) {var : VarId} (found : var ∈ start.scopes.globalVars) :
    var.index < start.program.vars.size :=
  sane.known (.var var) (.inr found)

/-- A sane program was added to other things than arguments, with the scopes as they were, inside of the
same function. -/
structure Extends (start after : ParserState) : Prop where
  started : start.Sane
  sane : after.Sane
  grows : start.program.Grows after.program
  scopes : after.scopes = start.scopes
  result : after.returnType = start.returnType
  declarations : after.program.declarations = start.program.declarations
  vars : start.program.KeepsVars after.program

theorem Extends.refl (sane : start.Sane) : Extends start start := ⟨sane, sane, .refl, rfl, rfl, rfl, .refl⟩

theorem Extends.trans (first : Extends start middle) (second : Extends middle after) : Extends start after :=
  ⟨first.started, second.sane, first.grows.trans second.grows, second.scopes.trans first.scopes,
    second.result.trans first.result, second.declarations.trans first.declarations,
    first.vars.trans second.vars first.grows.vars⟩

theorem Sane.grows (sane : start.Sane) (program : after.program.Sane)
    (grows : start.program.Grows after.program) (scopes : after.scopes = start.scopes) : after.Sane := by
  refine ⟨program, ?_, ?_⟩ <;> rw [scopes]
  · exact fun symbol bound => (sane.known symbol bound).grows grows
  · intro var found
    exact (grows.var var (sane.has_global found)).1.trans (sane.globals var found)

theorem Sane.extends (sane : start.Sane) (program : after.program.Sane)
    (grows : start.program.Grows after.program) (scopes : after.scopes = start.scopes)
    (result : after.returnType = start.returnType)
    (declarations : after.program.declarations = start.program.declarations)
    (vars : start.program.KeepsVars after.program) : Extends start after :=
  ⟨sane, sane.grows program grows scopes, grows, scopes, result, declarations, vars⟩

theorem Extends.readable (extended : Extends start after) {scope : Set VarId} {id : ExprId}
    (readable : start.program.Readable scope id) : after.program.Readable scope id :=
  readable.grows extended.started.program extended.grows

theorem Extends.expr (extended : Extends start after) {id : ExprId}
    (has : id.index < start.program.exprs.size) : after.program.expr id = start.program.expr id :=
  extended.grows.exprs.get has

end ParserState

namespace Parser

open ParserState (Extends)

variable {α β : Type} {scope : Set VarId} {expected : Option TypeId} {start : ParserState}
  {step : Parser α} {next : α → Parser β} {good weaker middle : Program → α → Prop}
  {final : Program → β → Prop}

/-- If a step succeeds, it has added to a sane program and left the scopes, which have some variables, as
they are. What it gives has a property in the program behind it. The function around has a result of some
type. -/
def Reads (scope : Set VarId) (expected : Option TypeId) (step : Parser α) (start : ParserState)
    (good : Program → α → Prop) : Prop :=
  start.Sane → start.scopes.locals = scope → start.returnType = expected →
    Gives step start fun result after => Extends start after ∧ good after.program result

theorem reads_intro
    (reads : start.Sane → start.returnType = expected → Reads scope expected step start good) :
    Reads scope expected step start good :=
  fun sane inScope returns => reads sane returns sane inScope returns

theorem Reads.mono (reads : Reads scope expected step start good)
    (implies : ∀ result after, Extends start after → good after.program result →
      weaker after.program result) :
    Reads scope expected step start weaker := fun sane inScope returns =>
  (reads sane inScope returns).mono fun result after holds => ⟨holds.1, implies result after holds.1 holds.2⟩

theorem Reads.bind (first : Reads scope expected step start middle)
    (second : ∀ value after, Extends start after → middle after.program value →
      Reads scope expected (next value) after final) :
    Reads scope expected (step >>= next) start final := by
  intro sane inScope returns
  refine Gives.bind (first sane inScope returns) ?_
  rintro value after ⟨front, holds⟩
  have same : after.scopes.locals = scope := by rw [front.scopes, inScope]
  refine (second value after front holds front.sane same (front.result.trans returns)).mono ?_
  exact fun result last continued => ⟨front.trans continued.1, continued.2⟩

theorem Reads.gives_bind {post : β → ParserState → Prop}
    (first : Reads start.scopes.locals start.returnType step start middle) (sane : start.Sane)
    (second : ∀ value after, Extends start after → middle after.program value →
      Gives (next value) after post) : Gives (step >>= next) start post :=
  Gives.bind (first sane rfl rfl) fun value after holds => second value after holds.1 holds.2

theorem reads_pure {value : α} (holds : good start.program value) :
    Reads scope expected (pure value) start good :=
  fun sane _ _ => gives_pure ⟨.refl sane, holds⟩

theorem reads_throw {diagnostic : Diagnostic} : Reads scope expected (throw diagnostic) start good :=
  fun _ _ _ => gives_throw

theorem reads_throw_bind {diagnostic : Diagnostic} :
    Reads scope expected (throw diagnostic >>= next) start final :=
  reads_throw

theorem reads_get_bind {next : ParserState → Parser β}
    (continues : Reads scope expected (next start) start final) :
    Reads scope expected (get >>= next) start final :=
  continues

theorem reads_program_bind {next : Program → Parser β}
    (continues : Reads scope expected (next start.program) start final) :
    Reads scope expected (program >>= next) start final :=
  continues

theorem reads_depthLimit_bind {next : Nat → Parser β}
    (continues : ∀ limit, Reads scope expected (next limit) start final) :
    Reads scope expected (depthLimit >>= next) start final :=
  continues (8 * start.stream.weight + 8)

theorem reads_accept_bind {result : Except Diagnostic α}
    (continues : ∀ value, result = .ok value → Reads scope expected (next value) start final) :
    Reads scope expected (accept result >>= next) start final := by
  cases result with
  | ok value => exact continues value rfl
  | error diagnostic => exact reads_throw

theorem reads_repeatFrom {first : α} {step : α → Parser (α ⊕ β)} (invariant : Program → α → Prop)
    (holds : invariant start.program first)
    (each : ∀ value now, Extends start now → invariant now.program value →
      Reads scope expected (step value) now fun program result =>
        result.elim (invariant program) (final program)) :
    Reads scope expected (repeatFrom first step) start final := by
  intro sane inScope returns
  refine gives_repeatFrom (fun value now => Extends start now ∧ invariant now.program value)
    ⟨.refl sane, holds⟩ ?_
  rintro value now ⟨front, kept⟩
  have same : now.scopes.locals = scope := by rw [front.scopes, inScope]
  refine (each value now front kept front.sane same (front.result.trans returns)).mono ?_
  rintro (next | result) after ⟨continued, done⟩
  · exact ⟨front.trans continued, done⟩
  · exact ⟨front.trans continued, done⟩

/-! ## Tokens -/

theorem reads_modify {change : ParserState → ParserState}
    (program : (change start).program = start.program)
    (scopes : (change start).scopes = start.scopes)
    (result : (change start).returnType = start.returnType) :
    Reads scope expected (modify change) start fun _ _ => True := by
  refine fun sane _ _ => gives_modify ⟨sane.extends ?_ ?_ scopes result ?_ ?_, trivial⟩ <;> rw [program]
  · exact sane.program
  · exact .refl
  · exact .refl

theorem reads_peek_bind {next : Token → Parser β}
    (continues : ∀ token, Reads scope expected (next token) start final) :
    Reads scope expected (peek >>= next) start final :=
  fun sane inScope returns => gives_peek_bind fun token => continues token sane inScope returns

theorem reads_nextIs_bind {text : String} {next : Bool → Parser β}
    (continues : ∀ isNext, Reads scope expected (next isNext) start final) :
    Reads scope expected (nextIs text >>= next) start final := by
  rw [nextIs, bind_assoc]
  refine reads_peek_bind fun token => ?_
  rw [pure_bind]
  exact continues (token.spells text)

theorem advance_reads : Reads scope expected advance start fun _ _ => True := by
  refine reads_peek_bind fun token => ?_
  refine Reads.bind (reads_modify rfl rfl rfl) fun _ _ _ _ => ?_
  exact reads_pure trivial

theorem eat_reads (text : String) : Reads scope expected (eat text) start fun _ _ => True := by
  refine reads_nextIs_bind fun isNext => ?_
  cases isNext with
  | true => exact Reads.bind advance_reads fun _ _ _ _ => reads_pure trivial
  | false => exact reads_pure trivial

theorem expect_reads (text : String) : Reads scope expected (expect text) start fun _ _ => True := by
  refine reads_peek_bind fun token => ?_
  split_ifs
  · exact advance_reads
  · exact reads_throw

theorem expectIdentifier_reads : Reads scope expected expectIdentifier start fun _ _ => True := by
  refine reads_peek_bind fun token => ?_
  split_ifs
  · exact advance_reads
  · exact reads_throw

theorem expectClosingBracket_reads : Reads scope expected expectClosingBracket start fun _ _ => True := by
  refine reads_peek_bind fun token => ?_
  split_ifs
  · exact Reads.bind advance_reads fun _ _ _ _ => reads_pure trivial
  · exact Reads.bind (reads_modify rfl rfl rfl) fun _ _ _ _ => reads_pure trivial
  · exact reads_throw

end Parser

end Shader
