import Shader.Parser.Declaration
import Shader.Proofs.Program.Shape

/-! # Progress of the parser

Every step of the parser either fails because of the source or goes on in it, and a recursion that goes
three calls deeper has read something in between. What is left of the source is counted in bytes, where a
token that was only looked at is still left. -/

set_option mvcgen.warning false

namespace Shader

/-! ## Unread tokens -/

/-- Tokens follow each other from a place on, and none of them is the end of the text. -/
def Token.Listed : Nat → List Token → Prop
  | _, [] => True
  | start, token :: rest =>
    start ≤ token.span.start ∧ token.span.start + TokenStream.tokenWeight token ≤ token.span.stop ∧
      token.kind ≠ .endOfInput ∧ Token.Listed token.span.stop rest

def Token.unread : Nat → List Token → Nat
  | _, [] => 0
  | start, token :: rest => token.span.stop - start + Token.unread token.span.stop rest

def Proper {α : Type} : Except Diagnostic α → Prop
  | .ok _ => True
  | .error diagnostic => diagnostic.cause ≠ .exhausted

/-- What is left of a text follows a place, and it ends with an end or with an error in the text. -/
structure TokenStream.Tidy (stream : TokenStream) (start : Nat) : Prop where
  listed : Token.Listed start stream.tokens
  ends : ∀ token, stream.ending = .ok token → token.kind = .endOfInput
  fails : Proper stream.ending

@[grind →]
theorem TokenStream.Tidy.proper_front {stream : TokenStream} {start : Nat} (tidy : stream.Tidy start) :
    Proper stream.front := by
  unfold TokenStream.front
  split
  · trivial
  · exact tidy.fails

theorem TokenStream.tokenWeight_pos (token : Token) : 0 < tokenWeight token := by
  unfold tokenWeight
  split <;> decide

def ExprsOrdered (exprs : Arena .expr Expr) : Prop :=
  ∀ id : ExprId, ∀ child ∈ (exprs.get id).kind.children, child.index < id.index

theorem ExprsOrdered.append {exprs : Arena .expr Expr} (ordered : ExprsOrdered exprs) {expr : Expr}
    (older : ∀ child ∈ expr.kind.children, child.index < exprs.size) :
    ExprsOrdered (exprs.append expr) := by
  intro id child isChild
  rw [Arena.get_append] at isChild
  split at isChild
  next same => exact same ▸ older child isChild
  · exact ordered id child isChild

@[grind =]
theorem Program.exprs_pointerTo (program : Program) (pointee : TypeId) (storage : StorageClass) :
    (program.pointerTo pointee storage).2.exprs = program.exprs := by
  unfold Program.pointerTo
  split <;> rfl

namespace ParserState

variable {origin state : ParserState} {token : Token}

abbrev unread (state : ParserState) : Nat :=
  Token.unread state.previousEnd state.stream.tokens

abbrev Tidy (state : ParserState) : Prop :=
  state.stream.Tidy state.previousEnd ∧ ExprsOrdered state.program.exprs

abbrev Leads (origin : ParserState) (least : Nat) (state : ParserState) : Prop :=
  state.Tidy ∧ state.stream.weight + least ≤ origin.stream.weight ∧
    state.unread + least ≤ origin.unread ∧ origin.program.exprs.size ≤ state.program.exprs.size

abbrev Makes (origin : ParserState) (least : Nat) (result : ExprId) (state : ParserState) : Prop :=
  origin.Leads least state ∧ result.index < state.program.exprs.size

/-- Calls that are nested to a depth have read a byte with every three of them, but for the first ones. -/
abbrev Deep (origin : ParserState) (rank depth : Nat) (state : ParserState) : Prop :=
  depth + 3 * state.stream.weight < 3 * origin.stream.weight + rank ∧
    depth + 3 * state.unread < 3 * origin.unread + rank

theorem Tidy.dropFront (tidy : state.Tidy) (isFront : state.stream.front = .ok token) :
    state.Leads (if token.kind = .endOfInput then 0 else 1)
      { state with stream := state.stream.dropFront, previousEnd := token.span.stop } := by
  obtain ⟨⟨_ | ⟨first, rest⟩, ending⟩, _⟩ := state
  · rw [if_pos (tidy.1.ends token isFront)]
    exact ⟨⟨⟨trivial, tidy.1.ends, tidy.1.fails⟩, tidy.2⟩, le_rfl, le_rfl, le_rfl⟩
  · cases isFront
    obtain ⟨⟨⟨behind, long, inside, listed⟩, ends, fails⟩, ordered⟩ := tidy
    have positive := TokenStream.tokenWeight_pos token
    rw [if_neg inside]
    refine ⟨⟨⟨listed, ends, fails⟩, ordered⟩, ?_, ?_, le_rfl⟩
    · simp [TokenStream.weight, TokenStream.dropFront]
      omega
    · simp only [unread, TokenStream.dropFront, Token.unread, List.drop_succ_cons, List.drop_zero]
      dsimp only at behind
      omega

theorem Tidy.replaceFront (tidy : state.Tidy) (isFront : state.stream.front = .ok token)
    (isClose : token.kind = .attributeClose) :
    state.Leads 1 { state with
      stream := state.stream.replaceFront ⟨.punctuator, "]", ⟨token.span.start + 1, token.span.stop⟩⟩
      previousEnd := token.span.start + 1 } := by
  obtain ⟨⟨_ | ⟨first, rest⟩, ending⟩, _⟩ := state
  · have isEnd := tidy.1.ends token isFront
    rw [isClose] at isEnd
    cases isEnd
  · cases isFront
    obtain ⟨⟨⟨behind, long, inside, listed⟩, ends, fails⟩, ordered⟩ := tidy
    have two : TokenStream.tokenWeight token = 2 := if_pos isClose
    have one (span : Span) : TokenStream.tokenWeight ⟨.punctuator, "]", span⟩ = 1 := rfl
    refine ⟨⟨⟨⟨le_rfl, ?_, nofun, listed⟩, ends, fails⟩, ordered⟩, ?_, ?_, le_rfl⟩
    · rw [one]
      dsimp only
      omega
    · simp [TokenStream.weight, TokenStream.replaceFront, one, two]
    · simp only [unread, TokenStream.replaceFront, Token.unread, List.drop_succ_cons, List.drop_zero]
      dsimp only at behind
      omega

end ParserState

namespace Token

variable {token : Token} {text : String}

@[grind →]
theorem kind_of_spells (spells : token.spells text = true) : token.kind ≠ .endOfInput := by
  unfold Token.spells at spells
  grind

@[grind →]
theorem kind_of_isMark (isMark : token.isMark text = true) : token.kind = .punctuator := by
  simp_all [Token.isMark]

@[grind →]
theorem kind_of_isWord (isWord : token.isWord text = true) : token.kind = .identifier := by
  simp_all [Token.isWord]

end Token

/-! ## Checks -/

namespace Diagnostic

variable {span second : Span} {sites : List Site} {cause : TypingCause}

@[grind =]
theorem cause_grammarAt {cause : GrammarCause} : (grammarAt span cause).cause = .grammar cause := rfl

@[grind =] theorem cause_typingAt : (typingAt span cause).cause = .typing cause := rfl

@[grind =] theorem cause_typingWith : (typingWith sites cause).cause = .typing cause := rfl

@[grind =] theorem cause_clash : (clash span second cause).cause = .typing cause := rfl

end Diagnostic

section Checks

variable {α β : Type} {program : Program} {span : Span} {expr left right : Expr} {type : TypeId}
  {exprs : List Expr} {attributes : List Attribute} {function : Function}
  {first : Except Diagnostic α} {next : α → Except Diagnostic β} {value : α}

@[grind .] theorem proper_ok : Proper (.ok value) := trivial

@[grind .] theorem proper_pure : Proper (pure value) := trivial

@[grind =]
theorem proper_error {diagnostic : Diagnostic} :
    Proper (.error diagnostic : Except Diagnostic α) ↔ diagnostic.cause ≠ .exhausted :=
  .rfl

@[grind ←]
theorem Proper.bind (proper : Proper first) (continues : ∀ value, Proper (next value)) :
    Proper (first >>= next) := by
  cases first with
  | ok value => exact continues value
  | error diagnostic => exact proper

@[grind .]
theorem typeOfBinary_proper {op : BinaryOp} : Proper (typeOfBinary program op span left right) := by
  unfold typeOfBinary typeOfVectorBinary typeOfScalarBinary
  grind

@[grind .]
theorem typeOfTernary_proper : Proper (typeOfTernary program expr left right) := by
  unfold typeOfTernary
  grind

@[grind .]
theorem typeOfUnary_proper {op : UnaryOp} : Proper (typeOfUnary program op span expr) := by
  unfold typeOfUnary typeOfNumeric
  grind

@[grind .]
theorem typeOfTrailing_proper {op : UnaryOp} : Proper (typeOfTrailing program op span expr) := by
  unfold typeOfTrailing
  grind

@[grind .]
theorem typeOfDeref_proper : Proper (typeOfDeref program span expr) := by
  unfold typeOfDeref
  grind

@[grind .]
theorem checkAddress_proper : Proper (checkAddress span expr) := by
  unfold checkAddress
  grind

@[grind .]
theorem structOf_proper : Proper (structOf program span type) := by
  unfold structOf
  grind

@[grind .]
theorem selectMember_proper {name : String} : Proper (selectMember program type name span) := by
  unfold selectMember findMember
  grind

@[grind .]
theorem typeOfIndex_proper : Proper (typeOfIndex program span expr) := by
  unfold typeOfIndex
  grind

@[grind .]
theorem checkIndex_proper : Proper (checkIndex program span expr) := by
  unfold checkIndex
  grind

@[grind .]
theorem checkInit_proper : Proper (checkInit program type expr) := by
  unfold checkInit
  grind

@[grind .]
theorem checkInitializer_proper : Proper (checkInitializer program type span exprs) := by
  have fits (total members) : Proper (checkMembers program type total members exprs) := by
    fun_induction checkMembers <;> grind
  unfold checkInitializer
  grind

@[grind .]
theorem checkArguments_proper : Proper (checkArguments program function span exprs) := by
  have fits (expected) : Proper (checkArgumentTypes program expected exprs) := by
    fun_induction checkArgumentTypes <;> grind
  unfold checkArguments
  grind

end Checks

namespace Parser

open Std.Do

variable {α : Type} {origin : ParserState}

/-! ## Tokens -/

abbrev here (origin : ParserState) : Assertion (.except Diagnostic (.arg ParserState .pure)) :=
  fun state => ⌜state = origin⌝

abbrev ends (origin : ParserState) (least : α → Nat) :
    PostCond α (.except Diagnostic (.arg ParserState .pure)) :=
  post⟨fun result state => ⌜origin.Leads (least result) state⌝,
    fun diagnostic _ => ⌜diagnostic.cause ≠ .exhausted⌝⟩

/-- A step has read at least a number of tokens and gives an expression. -/
abbrev makes (origin : ParserState) (least : Nat) :
    PostCond ExprId (.except Diagnostic (.arg ParserState .pure)) :=
  post⟨fun result state => ⌜origin.Makes least result state⌝,
    fun diagnostic _ => ⌜diagnostic.cause ≠ .exhausted⌝⟩

abbrev sees (origin : ParserState) (holds : α → Prop) :
    PostCond α (.except Diagnostic (.arg ParserState .pure)) :=
  post⟨fun result state => ⌜state = origin ∧ holds result⌝,
    fun diagnostic _ => ⌜diagnostic.cause ≠ .exhausted⌝⟩

abbrev falls (origin : ParserState) (rank depth : Nat) (holds : α → ParserState → Prop) :
    PostCond α (.except Diagnostic (.arg ParserState .pure)) :=
  post⟨fun result state => ⌜holds result state⌝,
    fun diagnostic state => ⌜diagnostic.cause = .exhausted → origin.Deep rank depth state⌝⟩

/-- The last call of a step is followed by a step that does nothing, so that what is known of the call is
not taken for what has to be shown. -/
theorem triple_of_bind {step : Parser α} {pre : Assertion (.except Diagnostic (.arg ParserState .pure))}
    {post : PostCond α (.except Diagnostic (.arg ParserState .pure))}
    (ends : ⦃pre⦄ (step >>= pure) ⦃post⦄) : ⦃pre⦄ step ⦃post⦄ := by
  simpa using ends

attribute [local spec] program modifyProgram

@[spec]
theorem accept_ends {result : Except Diagnostic α} (proper : Proper result) :
    ⦃here origin⦄ accept result ⦃sees origin fun value => result = .ok value⦄ := by
  unfold accept
  mvcgen
  all_goals grind

variable (tidy : origin.Tidy)

include tidy

@[spec]
theorem peek_ends :
    ⦃here origin⦄ peek
    ⦃sees origin fun token => origin.stream.front = .ok token⦄ := by
  unfold peek
  mvcgen
  all_goals grind

@[spec]
theorem advance_ends :
    ⦃here origin⦄ advance
    ⦃post⟨fun token state => ⌜origin.stream.front = .ok token ∧
        origin.Leads (if token.kind = .endOfInput then 0 else 1) state⌝,
      fun diagnostic _ => ⌜diagnostic.cause ≠ .exhausted⌝⟩⦄ := by
  unfold advance
  mvcgen
  all_goals grind [ParserState.Tidy.dropFront]

@[spec]
theorem expect_ends (text : String) :
    ⦃here origin⦄ expect text ⦃ends origin fun _ => 1⦄ := by
  unfold expect
  mvcgen
  all_goals grind

@[spec]
theorem expectIdentifier_ends :
    ⦃here origin⦄ expectIdentifier ⦃ends origin fun _ => 1⦄ := by
  unfold expectIdentifier
  mvcgen
  all_goals grind

@[spec]
theorem nextIs_ends (text : String) :
    ⦃here origin⦄ nextIs text
    ⦃sees origin fun isNext => isNext = true →
      ∃ token, origin.stream.front = .ok token ∧ token.kind ≠ .endOfInput⦄ := by
  unfold nextIs
  mvcgen
  all_goals grind

@[spec]
theorem eat_ends (text : String) :
    ⦃here origin⦄ eat text ⦃ends origin Bool.toNat⦄ := by
  unfold eat
  mvcgen
  all_goals grind

@[spec]
theorem expectClosingBracket_ends :
    ⦃here origin⦄ expectClosingBracket ⦃ends origin fun _ => 1⦄ := by
  unfold expectClosingBracket
  mvcgen
  all_goals (try grind)
  all_goals grind [ParserState.Tidy.replaceFront]

/-! ## Checked nodes -/

section Nodes

attribute [local grind] ExprKind.children

@[spec]
theorem makeExpr_ends {expr : Expr}
    (older : ∀ child ∈ expr.kind.children, child.index < origin.program.exprs.size) :
    ⦃here origin⦄ makeExpr expr ⦃makes origin 0⦄ := by
  unfold makeExpr
  mvcgen
  all_goals grind [ExprsOrdered.append, Arena.size_append, Arena.next]

@[spec]
theorem pointerTo_ends {pointee : TypeId} {storage : StorageClass} :
    ⦃here origin⦄ pointerTo pointee storage ⦃ends origin fun _ => 0⦄ := by
  unfold pointerTo
  mvcgen
  all_goals grind

end Nodes

omit tidy

/-! ## Expressions -/

/-- Reading expressions to a depth goes on in the source. -/
structure EndsExprs (depth : Nat) : Prop where
  expression : ∀ level (origin : ParserState), origin.Tidy →
    ⦃here origin⦄ expressionWithin depth level
    ⦃falls origin 3 depth (origin.Makes 1)⦄
  operators : ∀ level left (origin : ParserState), origin.Tidy → left.index < origin.program.exprs.size →
    ⦃here origin⦄ operatorsWithin depth level left
    ⦃falls origin 1 depth (origin.Makes 0)⦄
  operand : ∀ origin : ParserState, origin.Tidy →
    ⦃here origin⦄ operandWithin depth ⦃falls origin 2 depth (origin.Makes 1)⦄
  named : ∀ token (origin : ParserState), origin.Tidy → origin.stream.front = .ok token →
    token.kind = .identifier →
    ⦃here origin⦄ namedWithin depth token ⦃falls origin 1 depth (origin.Makes 1)⦄
  arguments : ∀ isFirst (origin : ParserState), origin.Tidy →
    ⦃here origin⦄ argumentsWithin depth isFirst
    ⦃falls origin 4 depth fun result state => origin.Leads 1 state ∧
      ∀ argument ∈ result.1, argument.index < state.program.exprs.size⦄
  trailing : ∀ left (origin : ParserState), origin.Tidy → left.index < origin.program.exprs.size →
    ⦃here origin⦄ trailingWithin depth left
    ⦃falls origin 1 depth (origin.Makes 0)⦄

variable {depth : Nat}

theorem exhausted_falls {rank : Nat} {holds : α → ParserState → Prop} (positive : 0 < rank) :
    ⦃here origin⦄ exhausted ⦃falls origin rank 0 holds⦄ := by
  unfold exhausted
  mvcgen
  all_goals grind

namespace EndsExprs

theorem zero : EndsExprs 0 := by
  constructor
  all_goals
    intros
    exact exhausted_falls (by decide)

attribute [local spec] expression operators operand named arguments trailing
attribute [local spec] makeBinary makeTernary makeLeading makeTrailing makeNumber memberAccess
attribute [local spec] makeStructInit makeCall resolve openStructInit openCall
attribute [local grind] ExprKind.children

theorem succ (reads : EndsExprs depth) : EndsExprs (depth + 1) where
  expression _ _ _ := by
    refine triple_of_bind ?_
    rw [expressionWithin]
    mvcgen
    all_goals grind
  operators _ _ _ _ _ := by
    refine triple_of_bind ?_
    rw [operatorsWithin]
    mvcgen
    all_goals grind
  operand _ _ := by
    refine triple_of_bind ?_
    rw [operandWithin]
    mvcgen
    all_goals grind
  named _ _ _ _ _ := by
    refine triple_of_bind ?_
    rw [namedWithin]
    mvcgen
    all_goals grind
  arguments _ _ _ := by
    rw [argumentsWithin]
    mvcgen
    all_goals grind
  trailing _ _ _ _ := by
    refine triple_of_bind ?_
    rw [trailingWithin]
    mvcgen
    all_goals grind

end EndsExprs

theorem endsExprs : ∀ depth, EndsExprs depth
  | 0 => .zero
  | depth + 1 => (endsExprs depth).succ

end Parser

end Shader
