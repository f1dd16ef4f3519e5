import Shader.Proofs.Build.Triple
import Shader.Proofs.Parser.Declaration
import Shader.Proofs.Parser.Progress
import Shader.Proofs.Token.Munch

/-! # Termination of the parser

The parser has loops, whose rounds go on with what the round before left, and recursions, which are cut off
at a depth. Neither comes to its bound, because both read the source.

* `Parser.repeatFrom_ends` is the rule for loops, and `Parser.endsStmts` says that reading statements goes on
  in the source.
* `Lexer.tidy_stream` says that the tokens of a text follow each other.
* `Parser.Rounds` and `Parser.Descends` say for a loop and for a recursion that they go on in the source.
* `parsePartial_terminates` says so for all of them. -/

set_option mvcgen.warning false

namespace Shader

/-! ## Checks -/

section Checks

variable {program : Program} {span : Span} {expr : Expr} {type : TypeId} {id : ExprId}
  {arguments : List ExprId} {attributes : List Attribute} {function : Function} {argument : VarId}

theorem constantWithin_proper (ordered : ExprsOrdered program.exprs) {depth : Nat}
    (enough : id.index < depth) : Proper (constantWithin program depth id) := by
  induction depth generalizing id with
  | zero => exact absurd enough (Nat.not_lt_zero _)
  | succ depth proper =>
    have older := ordered id
    unfold constantWithin Program.expr
    grind [ExprKind.children]

@[grind ←]
theorem attributeKind_proper {name : Token} (ordered : ExprsOrdered program.exprs)
    (has : ∀ argument ∈ arguments, argument.index < program.exprs.size) :
    Proper (attributeKind program name arguments span) := by
  have index (argument) (isArgument : argument ∈ arguments) : Proper (indexValue program argument) := by
    have proper := constantWithin_proper ordered (has argument isArgument)
    unfold indexValue
    grind
  unfold attributeKind uniformAttribute metalIndex plainAttribute
  grind

@[grind .]
theorem checkCondition_proper : Proper (checkCondition program expr) := by
  unfold checkCondition
  grind

@[grind .]
theorem checkReturn_proper : Proper (checkReturn program type expr) := by
  unfold checkReturn
  grind

@[grind .]
theorem storageClass_proper {found : Option StorageClass} : Proper (storageClass span found attributes) := by
  fun_induction storageClass <;> grind

@[grind .]
theorem functionKind_proper {found : Option (FunctionKind × Span)} :
    Proper (functionKind found attributes) := by
  fun_induction functionKind <;> grind

@[grind .]
theorem memberColor_proper {found : Option (UInt32 × Span)} : Proper (memberColor found attributes) := by
  fun_induction memberColor <;> grind

@[grind .]
theorem checkColors_proper {seen : List (UInt32 × Span)} {members : List Member} :
    Proper (checkColors seen members) := by
  induction members generalizing seen with
  | nil => trivial
  | cons member rest proper =>
    unfold checkColors
    grind

@[grind .]
theorem checkResult_proper : Proper (checkResult program function) := by
  unfold checkResult
  grind

@[grind .]
theorem bufferBindings_proper {found : BufferBindings} : Proper (bufferBindings found attributes) := by
  fun_induction bufferBindings <;> grind

@[grind .]
theorem bindStageIn_proper : Proper (bindStageIn program function argument) := by
  unfold bindStageIn
  grind

@[grind .]
theorem bindBuffer_proper : Proper (bindBuffer program function argument) := by
  unfold bindBuffer
  grind

@[grind .]
theorem checkUsed_proper : Proper (checkUsed attributes) := by
  unfold checkUsed
  grind

@[grind .]
theorem checkReturns_proper {body : StmtId} : Proper (checkReturns program function body) := by
  unfold checkReturns
  grind

@[grind .]
theorem memberAttributes_proper {position : Bool} : Proper (memberAttributes type position attributes) := by
  fun_induction memberAttributes <;> grind

end Checks

namespace Parser

variable {starred : StarredType} {marks : List Attribute} {start : Nat}

open Std.Do

variable {α σ : Type} {origin : ParserState}

attribute [local spec] program modifyProgram modifyScopes depthLimit
attribute [local spec] makeStmt makeVariable makeFunction makeType declareGlobal declareLocal
attribute [local spec] EndsExprs.expression EndsExprs.arguments

/-! ## Repetition -/

/-- A round of a loop goes on in the source, unless it is the last one. -/
def EndsRound (step : σ → Parser (σ ⊕ α)) : Prop :=
  ∀ value (origin : ParserState), origin.Tidy →
    ⦃here origin⦄ step value ⦃ends origin (Sum.elim (fun _ => 1) fun _ => 0)⦄

theorem repeatWithin_ends {step : σ → Parser (σ ⊕ α)} (round : EndsRound step) (rounds : Nat) (value : σ)
    (tidy : origin.Tidy) (enough : origin.stream.weight < rounds) :
    ⦃here origin⦄ repeatWithin step rounds value ⦃ends origin fun _ => 0⦄ := by
  induction rounds generalizing value origin with
  | zero => exact absurd enough (Nat.not_lt_zero _)
  | succ rounds again =>
    refine triple_of_bind ?_
    unfold repeatWithin
    unfold EndsRound at round
    mvcgen [round, again]
    all_goals grind

theorem repeatFrom_ends {step : σ → Parser (σ ⊕ α)} (round : EndsRound step) (start : σ)
    (origin : ParserState) (tidy : origin.Tidy) :
    ⦃here origin⦄ repeatFrom start step ⦃ends origin fun _ => 0⦄ := by
  have within := fun rounds => repeatWithin_ends round rounds start tidy
  refine triple_of_bind ?_
  unfold repeatFrom
  mvcgen [within]
  all_goals grind

@[spec]
theorem expression_ends (level : Nat) (tidy : origin.Tidy) :
    ⦃here origin⦄ expression level ⦃makes origin 1⦄ := by
  refine triple_of_bind ?_
  unfold expression
  mvcgen
  all_goals grind [endsExprs]

@[spec]
theorem attribute?_ends (tidy : origin.Tidy) :
    ⦃here origin⦄ attribute? ⦃ends origin fun found => found.isSome.toNat⦄ := by
  unfold attribute?
  mvcgen
  all_goals grind [endsExprs]

theorem attributeRound_ends : EndsRound attributeRound := by
  intro _ _ tidy
  unfold attributeRound
  mvcgen
  all_goals grind

@[spec]
theorem attributes_ends (tidy : origin.Tidy) :
    ⦃here origin⦄ attributes ⦃ends origin fun _ => 0⦄ :=
  repeatFrom_ends attributeRound_ends [] origin tidy

/-! ## Types and variables -/

theorem starRound_ends (base : TypeId) : EndsRound (starRound base) := by
  intro _ _ tidy
  unfold starRound
  mvcgen
  all_goals grind

@[spec]
theorem typeName_ends (tidy : origin.Tidy) :
    ⦃here origin⦄ typeName ⦃ends origin fun _ => 1⦄ := by
  have stars := fun base => repeatFrom_ends (starRound_ends base)
  refine triple_of_bind ?_
  unfold typeName
  mvcgen [stars]
  all_goals grind

@[spec]
theorem starType_ends {storage : StorageClass} {stars : Nat} {type : TypeId} (tidy : origin.Tidy) :
    ⦃here origin⦄ starType storage stars type ⦃ends origin fun _ => 0⦄ := by
  induction stars generalizing type origin with
  | zero =>
    unfold starType
    mvcgen
    all_goals grind
  | succ stars again =>
    refine triple_of_bind ?_
    unfold starType
    mvcgen [again]
    all_goals grind

@[spec]
theorem finishType_ends (tidy : origin.Tidy) :
    ⦃here origin⦄ finishType starred marks ⦃ends origin fun _ => 0⦄ := by
  refine triple_of_bind ?_
  unfold finishType
  mvcgen
  all_goals grind

theorem nameRound_ends : EndsRound nameRound := by
  intro _ _ tidy
  unfold nameRound
  mvcgen
  all_goals grind

@[spec]
theorem moreNames_ends {first : Token} (tidy : origin.Tidy) :
    ⦃here origin⦄ moreNames first ⦃ends origin fun _ => 0⦄ :=
  repeatFrom_ends nameRound_ends [first] origin tidy

attribute [local spec] initialValue inScope optionalPart expressionStatement localDeclaration
attribute [local spec] variableDeclaration argumentDeclaration condition returnStatement member
attribute [local spec] functionHeader functionBody functionDefinition

@[spec]
theorem declareVariables_ends {type : TypeId} {kind : VariableKind} {init : Option ExprId}
    {names : List Token} (tidy : origin.Tidy) :
    ⦃here origin⦄ declareVariables type kind init names
    ⦃ends origin fun _ => 0⦄ := by
  induction names generalizing origin with
  | nil =>
    unfold declareVariables
    mvcgen
    all_goals grind
  | cons name rest again =>
    unfold declareVariables
    mvcgen [again]
    all_goals grind [Program.addVariable]

/-! ## Statements -/

structure EndsStmts (depth : Nat) : Prop where
  statement : ∀ origin : ParserState, origin.Tidy →
    ⦃here origin⦄ statementWithin depth
    ⦃falls origin 2 depth fun _ state => origin.Leads 1 state⦄
  block : ∀ origin : ParserState, origin.Tidy →
    ⦃here origin⦄ blockWithin depth
    ⦃falls origin 1 depth fun _ state => origin.Leads 1 state⦄
  statements : ∀ origin : ParserState, origin.Tidy →
    ⦃here origin⦄ statementsWithin depth
    ⦃falls origin 3 depth fun _ state => origin.Leads 1 state⦄
  body : ∀ origin : ParserState, origin.Tidy →
    ⦃here origin⦄ bodyWithin depth
    ⦃falls origin 3 depth fun _ state => origin.Leads 1 state⦄
  branch : ∀ keyword (origin : ParserState), origin.Tidy →
    ⦃here origin⦄ ifWithin depth keyword
    ⦃falls origin 1 depth fun _ state => origin.Leads 1 state⦄
  loop : ∀ keyword (origin : ParserState), origin.Tidy →
    ⦃here origin⦄ forWithin depth keyword
    ⦃falls origin 1 depth fun _ state => origin.Leads 1 state⦄

variable {depth : Nat}

namespace EndsStmts

theorem zero : EndsStmts 0 := by
  constructor
  all_goals
    intros
    exact exhausted_falls (by decide)

attribute [local spec] statement block statements body branch loop

variable {origin : ParserState} {keyword : Token} (reads : EndsStmts depth) (tidy : origin.Tidy)

include reads tidy

theorem statement_succ :
    ⦃here origin⦄ statementWithin (depth + 1)
    ⦃falls origin 2 (depth + 1) fun _ state => origin.Leads 1 state⦄ := by
  refine triple_of_bind ?_
  rw [statementWithin]
  mvcgen
  all_goals grind

theorem statements_succ :
    ⦃here origin⦄ statementsWithin (depth + 1)
    ⦃falls origin 3 (depth + 1) fun _ state => origin.Leads 1 state⦄ := by
  rw [statementsWithin]
  mvcgen
  all_goals grind

theorem branch_succ :
    ⦃here origin⦄ ifWithin (depth + 1) keyword
    ⦃falls origin 1 (depth + 1) fun _ state => origin.Leads 1 state⦄ := by
  rw [ifWithin]
  mvcgen
  all_goals grind

theorem loop_succ :
    ⦃here origin⦄ forWithin (depth + 1) keyword
    ⦃falls origin 1 (depth + 1) fun _ state => origin.Leads 1 state⦄ := by
  rw [forWithin]
  mvcgen
  all_goals grind

omit tidy

theorem succ : EndsStmts (depth + 1) where
  statement _ := reads.statement_succ
  block _ _ := by
    rw [blockWithin]
    mvcgen
    all_goals grind
  statements _ := reads.statements_succ
  body _ _ := by
    refine triple_of_bind ?_
    rw [bodyWithin]
    mvcgen
    all_goals grind
  branch _ _ := reads.branch_succ
  loop _ _ := reads.loop_succ

end EndsStmts

theorem endsStmts : ∀ depth, EndsStmts depth
  | 0 => .zero
  | depth + 1 => (endsStmts depth).succ

@[spec]
theorem block_ends (tidy : origin.Tidy) :
    ⦃here origin⦄ block ⦃ends origin fun _ => 1⦄ := by
  refine triple_of_bind ?_
  unfold block
  mvcgen [EndsStmts.block]
  all_goals grind [endsStmts]

/-! ## Declarations -/

theorem memberRound_ends : EndsRound memberRound := by
  intro _ _ tidy
  unfold memberRound
  mvcgen
  all_goals grind

@[spec]
theorem structDeclaration_ends {keyword : Token} (tidy : origin.Tidy) :
    ⦃here origin⦄ structDeclaration keyword ⦃ends origin fun _ => 1⦄ := by
  have members := repeatFrom_ends memberRound_ends
  unfold structDeclaration
  mvcgen [members]
  all_goals grind

theorem argumentRound_ends : EndsRound argumentRound := by
  intro _ _ tidy
  unfold argumentRound
  mvcgen
  all_goals grind [Program.addVariable]

@[spec]
theorem argumentDeclarations_ends (tidy : origin.Tidy) :
    ⦃here origin⦄ argumentDeclarations ⦃ends origin fun _ => 0⦄ :=
  repeatFrom_ends argumentRound_ends [] origin tidy

@[spec]
theorem bindArguments_ends {function : Function} {arguments : List VarId} (tidy : origin.Tidy) :
    ⦃here origin⦄ bindArguments function arguments ⦃ends origin fun _ => 0⦄ := by
  induction arguments generalizing function origin with
  | nil =>
    unfold bindArguments
    mvcgen
    all_goals grind
  | cons argument rest again =>
    refine triple_of_bind ?_
    unfold bindArguments
    mvcgen [again, bindArgument, markArgument]
    all_goals grind

@[spec]
theorem declareArguments_ends {arguments : List VarId} (tidy : origin.Tidy) :
    ⦃here origin⦄ declareArguments arguments ⦃ends origin fun _ => 0⦄ := by
  induction arguments generalizing origin with
  | nil =>
    unfold declareArguments
    mvcgen
    all_goals grind
  | cons argument rest again =>
    refine triple_of_bind ?_
    unfold declareArguments
    mvcgen [again]
    all_goals grind

@[spec]
theorem functionDeclaration_ends {name : Token} (tidy : origin.Tidy) :
    ⦃here origin⦄ functionDeclaration starred marks start name
    ⦃ends origin fun _ => 0⦄ := by
  unfold functionDeclaration
  mvcgen
  all_goals grind [Program.addFunction]

@[spec]
theorem declaration_ends (tidy : origin.Tidy) :
    ⦃here origin⦄ declaration ⦃ends origin fun _ => 1⦄ := by
  unfold declaration
  mvcgen [addDeclaration]
  all_goals grind

theorem declarationRound_ends : EndsRound declarationRound := by
  intro _ _ tidy
  unfold declarationRound
  mvcgen
  all_goals grind

@[spec]
theorem declarations_ends (tidy : origin.Tidy) :
    ⦃here origin⦄ declarations ⦃ends origin fun _ => 0⦄ :=
  repeatFrom_ends declarationRound_ends () origin tidy

/-! ## Runs -/

/-- A round of a loop fails because of the source, or what is left of the source gets smaller, unless it is
the last round. -/
def Rounds (step : σ → Parser (σ ⊕ α)) : Prop :=
  ∀ value (state : ParserState), state.Tidy →
    match (step value).run state with
    | .ok (.inl _) after => after.Tidy ∧ after.unread < state.unread
    | .ok (.inr _) after => after.Tidy ∧ after.unread ≤ state.unread
    | .error diagnostic _ => diagnostic.cause ≠ .exhausted

/-- A recursion reads at least a number of bytes, or it fails because of the source. Where it is cut off at a
depth of at least `rank`, it has read something; so it is never cut off at a depth beyond three times the
bytes that are left. -/
def Descends (rank least : Nat) (state : ParserState) (step : Nat → Parser α) : Prop :=
  ∀ depth, match (step depth).run state with
    | .ok _ after => after.Tidy ∧ after.unread + least ≤ state.unread
    | .error diagnostic after => diagnostic.cause = .exhausted →
      depth + 3 * after.unread < 3 * state.unread + rank

theorem rounds_of_ends {step : σ → Parser (σ ⊕ α)} (round : EndsRound step) : Rounds step := by
  intro value state tidy
  have holds := run_of_triple (round value state tidy) rfl
  cases run : (step value).run state with
  | ok result after =>
    rw [run] at holds
    cases result with
    | inl next => exact ⟨holds.1, holds.2.2.1⟩
    | inr result => exact ⟨holds.1, holds.2.2.1⟩
  | error diagnostic after =>
    rw [run] at holds
    exact holds

theorem descends_of_falls {rank least : Nat} {step : Nat → Parser α} {holds : α → ParserState → Prop}
    (leads : ∀ result state, holds result state → origin.Leads least state)
    (triple : ∀ depth, ⦃here origin⦄ step depth ⦃falls origin rank depth holds⦄) :
    Descends rank least origin step := by
  intro depth
  have ran := run_of_triple (triple depth) rfl
  cases run : (step depth).run origin with
  | ok result after =>
    rw [run] at ran
    have led := leads result after ran
    exact ⟨led.1, led.2.2.1⟩
  | error diagnostic after =>
    rw [run] at ran
    exact fun isExhausted => (ran isExhausted).2

/-- Every loop and every recursion of the parser goes on in the source. -/
structure GoesOn : Prop where
  declarations : Rounds declarationRound
  attributes : Rounds attributeRound
  arguments : Rounds argumentRound
  members : Rounds memberRound
  stars : ∀ base, Rounds (starRound base)
  names : Rounds nameRound
  expression : ∀ state : ParserState, state.Tidy → ∀ level, Descends 3 1 state (expressionWithin · level)
  operators : ∀ state : ParserState, state.Tidy → ∀ level left, left.index < state.program.exprs.size →
    Descends 1 0 state (operatorsWithin · level left)
  trailing : ∀ state : ParserState, state.Tidy → ∀ left, left.index < state.program.exprs.size →
    Descends 1 0 state (trailingWithin · left)
  callArguments : ∀ state : ParserState, state.Tidy → ∀ isFirst,
    Descends 4 1 state (argumentsWithin · isFirst)
  statement : ∀ state : ParserState, state.Tidy → Descends 2 1 state statementWithin
  statements : ∀ state : ParserState, state.Tidy → Descends 3 1 state statementsWithin

theorem goesOn : GoesOn where
  declarations := rounds_of_ends declarationRound_ends
  attributes := rounds_of_ends attributeRound_ends
  arguments := rounds_of_ends argumentRound_ends
  members := rounds_of_ends memberRound_ends
  stars base := rounds_of_ends (starRound_ends base)
  names := rounds_of_ends nameRound_ends
  expression state tidy level :=
    descends_of_falls (fun _ _ made => made.1) fun depth => (endsExprs depth).expression level state tidy
  operators state tidy level left has := descends_of_falls (fun _ _ made => made.1) fun depth =>
      (endsExprs depth).operators level left state tidy has
  trailing state tidy left has :=
    descends_of_falls (fun _ _ made => made.1) fun depth => (endsExprs depth).trailing left state tidy has
  callArguments state tidy isFirst :=
    descends_of_falls (fun _ _ made => made.1) fun depth => (endsExprs depth).arguments isFirst state tidy
  statement state tidy :=
    descends_of_falls (fun _ _ led => led) fun depth => (endsStmts depth).statement state tidy
  statements state tidy :=
    descends_of_falls (fun _ _ led => led) fun depth => (endsStmts depth).statements state tidy

end Parser

/-! ## Sources -/

theorem Lexeme.tokenWeight_le {text body : List Char} {kind : TokenKind} (isWord : Lexeme text kind body)
    (text : String) (span : Span) : TokenStream.tokenWeight ⟨kind, text, span⟩ ≤ byteLength body := by
  have some : 1 ≤ byteLength body :=
    Nat.one_le_iff_ne_zero.2 (mt byteLength_eq_zero.1 (word?_ne_nil (word?_eq_some.2 isWord)))
  unfold TokenStream.tokenWeight
  split
  next isClose =>
    cases isWord with
    | decimal => dsimp only at isClose; split_ifs at isClose
    | radix | name | mark => cases isClose
    | operator =>
      dsimp only [operatorKind] at isClose
      split_ifs at isClose with _ same
      rw [eq_of_beq same]
      decide
  · exact some

theorem Lexer.tidy_stream (lexer : Lexer) {start : Nat} (behind : start ≤ lexer.offset) :
    lexer.stream.Tidy start ∧
      start + Token.unread start lexer.stream.tokens ≤ lexer.offset + byteLength lexer.rest := by
  induction length : lexer.rest.length using Nat.strong_induction_on generalizing lexer start with
  | _ length ih =>
    obtain ⟨_, _, same, -, -, here, ⟨ends, -⟩ | ⟨kind, body, more, rfl, found, -, inside, -, isNext⟩⟩ :=
      lexer.next_cases
    · rw [stream_of_ends ends]
      refine ⟨⟨trivial, ?_, ?_⟩, by simp only [Token.unread]; omega⟩
      all_goals
        generalize lexer.next.1 = ending at ends
        cases ends <;> simp [Proper, Diagnostic.lexicalAt, Token.endOfInput]
    · have shorter := length_next_lt isNext inside
      obtain ⟨⟨listed, ends, fails⟩, within⟩ := ih _ (length ▸ shorter) _ le_rfl rfl
      have weight := (word?_eq_some.1 found).tokenWeight_le (String.ofList body) (lexer.skipGap.spanOf body)
      rw [stream_of_token isNext inside, same]
      simp only [here, spanOf] at *
      refine ⟨⟨⟨by dsimp only; omega, by dsimp only; omega, inside, listed⟩, ends, fails⟩, ?_⟩
      simp only [Token.unread, byteLength_append]
      omega

theorem ParserState.tidy_ofSource (source : String) : (ofSource source).Tidy :=
  ⟨((Lexer.ofSource source).tidy_stream le_rfl).1, Program.sane_withIntrinsics.ordered.expr⟩

theorem ParserState.unread_ofSource_le (source : String) :
    (ofSource source).unread ≤ byteLength source.toList := by
  have within := ((Lexer.ofSource source).tidy_stream le_rfl).2
  exact (Nat.zero_add _).ge.trans (within.trans_eq (Nat.zero_add _))

/-- Reading a source comes to an end by itself: it starts with no more unread bytes than the source has, every
round of its loops and every descent of its recursions fails because of the source or leaves fewer of them,
and so no error says that a recursion went too deep. -/
theorem parsePartial_terminates (source : String) :
    (ParserState.ofSource source).Tidy ∧ (ParserState.ofSource source).unread ≤ byteLength source.toList ∧
      Parser.GoesOn ∧
      ∀ diagnostic, (parsePartial source).2 = some diagnostic → diagnostic.cause ≠ .exhausted := by
  have tidy := ParserState.tidy_ofSource source
  refine ⟨tidy, ParserState.unread_ofSource_le source, Parser.goesOn, fun diagnostic reported => ?_⟩
  have ran := run_of_triple (Parser.declarations_ends tidy) rfl
  unfold parsePartial at reported
  split at reported
  · cases reported
  next failed =>
    cases reported
    rwa [failed] at ran

end Shader
