import Shader.Proofs.Parser.Outcome

/-! # The grammar of expressions

A grammar with one level for each precedence. A level derives what the next one derives, or two operands
with an operator of its precedence between them: the left one on the same level if runs of the operator
group to the left, the right one if they group to the right. -/

namespace Shader

/-- The least level of a left operand: one more than the operator's own where a run groups to the
right. -/
def BinaryOp.leftPrecedence (op : BinaryOp) : Nat :=
  if op.isLeftAssociative then op.precedence else op.precedence + 1

/-- What the grammar has rules for. -/
inductive Category where
  | level (level : Nat)
  | operand
  | primary
  /-- Arguments up to the closing parenthesis, with a comma in front of each one but the first. -/
  | arguments (isFirst : Bool)

/-- What is built for a word: an expression, or arguments with the place of the parenthesis behind them. -/
abbrev Category.Result : Category → Type
  | .arguments _ => List ExprId × Span
  | _ => ExprId

open Shader.Parser in
/-- The words of each category, with the states in front of and behind them and what is built. -/
inductive Derives : (category : Category) → ParserState → List Token → category.Result → ParserState → Prop
  where
  | lower (above : Derives (.level (level + 1)) s₀ word node s₁) : Derives (.level level) s₀ word node s₁
  | operand (above : ∀ op : BinaryOp, op.precedence < level) (operand : Derives .operand s₀ word node s₁) :
    Derives (.level level) s₀ word node s₁
  | binary {op : BinaryOp} {token : Token} (onLeft : Derives (.level op.leftPrecedence) s₀ word₁ left s₁)
      (shift : advance s₁ = .ok token s₂) (isMark : token.kind = .punctuator)
      (isOp : BinaryOp.ofToken? token.text = some op)
      (onRight : Derives (.level op.rightPrecedence) s₂ word₂ right s₃)
      (made : makeBinary op token.span left right s₃ = .ok node s₄) :
    Derives (.level op.precedence) s₀ (word₁ ++ token :: word₂) node s₄
  | ternary {mark colon : Token} (decides : Derives (.level (ternaryPrecedence + 1)) s₀ word₁ test s₁)
      (shift : advance s₁ = .ok mark s₂) (isMark : mark.isMark "?" = true)
      (isTrue : Derives (.level 0) s₂ word₂ onTrue s₃)
      (shiftColon : advance s₃ = .ok colon s₄) (isColon : colon.spells ":" = true)
      (isFalse : Derives (.level ternaryPrecedence) s₄ word₃ onFalse s₅)
      (made : makeTernary test onTrue onFalse s₅ = .ok node s₆) :
    Derives (.level ternaryPrecedence) s₀ (word₁ ++ mark :: word₂ ++ colon :: word₃) node s₆
  | leading {token : Token} (shift : advance s₀ = .ok token s₁) (isMark : token.kind = .punctuator)
      (isOp : UnaryOp.ofLeadingToken? token.text = some op)
      (below : Derives (.level leadingPrecedence) s₁ word operand s₂)
      (made : makeLeading op token.span operand s₂ = .ok node s₃) : Derives .operand s₀ (token :: word) node s₃
  | primary (primary : Derives .primary s₀ word node s₁) : Derives .operand s₀ word node s₁
  | trailing {token : Token} (below : Derives .primary s₀ word operand s₁)
      (shift : advance s₁ = .ok token s₂) (isMark : token.kind = .punctuator)
      (isOp : UnaryOp.ofTrailingToken? token.text = some op)
      (made : makeTrailing op token.span operand s₂ = .ok node s₃) :
    Derives .primary s₀ (word ++ [token]) node s₃
  | member {dot : Token} (below : Derives .primary s₀ word base s₁) (shift : advance s₁ = .ok dot s₂)
      (isDot : dot.isMark "." = true) (isNext : s₂.stream.front = .ok name)
      (made : memberAccess base dot.span s₂ = .ok node s₃) : Derives .primary s₀ (word ++ [dot, name]) node s₃
  | index {bracket close : Token} (below : Derives .primary s₀ word₁ base s₁)
      (shift : advance s₁ = .ok bracket s₂) (isOpen : bracket.isMark "[" = true)
      (isElement : typeOfIndex s₂.program bracket.span (s₂.program.expr base) = .ok element)
      (inside : Derives (.level 0) s₂ word₂ position s₃)
      (checked : checkIndex s₃.program bracket.span (s₃.program.expr position) = .ok ())
      (isClose : close.isMark "]" = true) (closes : expectClosingBracket s₃ = .ok close.span s₄)
      (made : makeExpr ⟨.index base position, element, true, (s₃.program.expr base).span.cover close.span⟩ s₄ =
        .ok node s₅) : Derives .primary s₀ (word₁ ++ bracket :: word₂ ++ [close]) node s₅
  | parentheses {paren close : Token} (shift : advance s₀ = .ok paren s₁) (isOpen : paren.isMark "(" = true)
      (inside : Derives (.level 0) s₁ word node s₂) (shiftClose : advance s₂ = .ok close s₃)
      (isClose : close.spells ")" = true) : Derives .primary s₀ (paren :: word ++ [close]) node s₃
  | number {token : Token} (shift : advance s₀ = .ok token s₁)
      (isNumber : token.kind = .float ∨ token.kind = .integer) (made : makeNumber token s₁ = .ok node s₂) :
    Derives .primary s₀ [token] node s₂
  | bool {token : Token} (shift : advance s₀ = .ok token s₁) (isName : token.kind = .identifier)
      (isBool : token.text = "true" ∨ token.text = "false")
      (made : makeExpr ⟨.literal (.bool (token.text = "true")), .bool, false, token.span⟩ s₁ = .ok node s₂) :
    Derives .primary s₀ [token] node s₂
  | var {name : Token} (shift : advance s₀ = .ok name s₁) (isName : name.kind = .identifier)
      (noBool : ¬(name.text = "true" ∨ name.text = "false")) (resolved : resolve name s₀ = .ok (.var var) s₀)
      (made : makeExpr ⟨.var var, (s₁.program.var var).type, true, name.span⟩ s₁ = .ok node s₂) :
    Derives .primary s₀ [name] node s₂
  | structInit {name : Token} (shift : advance s₀ = .ok name s₁) (isName : name.kind = .identifier)
      (noBool : ¬(name.text = "true" ∨ name.text = "false")) (resolved : resolve name s₀ = .ok (.type type) s₀)
      (isNext : s₁.stream.front = .ok paren) (opens : openStructInit type name s₁ = .ok () s₂)
      (inside : Derives (.arguments true) s₂ word (arguments, close) s₃)
      (made : makeStructInit type name arguments close s₃ = .ok node s₄) :
    Derives .primary s₀ (name :: paren :: word) node s₄
  | call {name : Token} (shift : advance s₀ = .ok name s₁) (isName : name.kind = .identifier)
      (noBool : ¬(name.text = "true" ∨ name.text = "false"))
      (resolved : resolve name s₀ = .ok (.function function) s₀)
      (isNext : s₁.stream.front = .ok paren) (opens : openCall function name s₁ = .ok () s₂)
      (inside : Derives (.arguments true) s₂ word (arguments, close) s₃)
      (made : makeCall function name arguments close s₃ = .ok node s₄) :
    Derives .primary s₀ (name :: paren :: word) node s₄
  | close {token : Token} (shift : advance s₀ = .ok token s₁) (isClose : token.spells ")" = true) :
    Derives (.arguments isFirst) s₀ [token] ([], token.span) s₁
  | first {token : Token} (front : s₀.stream.front = .ok token) (isOpen : token.spells ")" = false)
      (inside : token.kind ≠ .endOfInput) (argument : Derives (.level assignmentPrecedence) s₀ word node s₁)
      (others : Derives (.arguments false) s₁ more (rest, close) s₂) :
    Derives (.arguments true) s₀ (word ++ more) (node :: rest, close) s₂
  | next {comma : Token} (shift : advance s₀ = .ok comma s₁) (isComma : comma.spells "," = true)
      (argument : Derives (.level assignmentPrecedence) s₁ word node s₂)
      (others : Derives (.arguments false) s₂ more (rest, close) s₃) :
    Derives (.arguments false) s₀ (comma :: word ++ more) (node :: rest, close) s₃

theorem Derives.of_le {level higher : Nat} {before after : ParserState} {word : List Token} {id : ExprId}
    (le : level ≤ higher) (derives : Derives (.level higher) before word id after) :
    Derives (.level level) before word id after := by
  induction le with
  | refl => exact derives
  | step _ ih => exact ih derives.lower

/-! ## Where a word ends -/

def Token.infixLevel? (token : Token) : Option Nat :=
  if token.kind ≠ .punctuator then none
  else if token.text = "?" then some ternaryPrecedence
  else (BinaryOp.ofToken? token.text).map BinaryOp.precedence

def Token.isTrailer (token : Token) : Bool :=
  token.kind == .punctuator &&
    ((UnaryOp.ofTrailingToken? token.text).isSome || token.text == "." || token.text == "[")

/-- Whether a token can follow an expression of a level without going on with it. -/
def Token.stops (token : Token) (level : Nat) : Bool :=
  !token.isTrailer && token.infixLevel?.all (· < level)

def ParserState.Stops (state : ParserState) (level : Nat) : Prop :=
  ∃ token, state.stream.front = .ok token ∧ token.stops level = true

def rightLevel (level : Nat) : Nat :=
  if level = assignmentPrecedence ∨ level = ternaryPrecedence then level else level + 1

theorem le_rightLevel (level : Nat) : level ≤ rightLevel level := by
  unfold rightLevel
  split_ifs <;> omega

theorem rightLevel_mono {level higher : Nat} (le : level ≤ higher) : rightLevel level ≤ rightLevel higher := by
  unfold rightLevel assignmentPrecedence ternaryPrecedence
  split_ifs <;> omega

theorem lt_of_lt_rightLevel {level : Nat} (lt : ternaryPrecedence < rightLevel level) :
    ternaryPrecedence + 1 ≤ level := by
  unfold rightLevel assignmentPrecedence at lt
  unfold ternaryPrecedence at lt ⊢
  split_ifs at lt <;> omega

namespace BinaryOp

theorem rightLevel_precedence (op : BinaryOp) : rightLevel op.precedence = op.rightPrecedence := by
  cases op <;> decide

theorem precedence_lt_rightLevel (op : BinaryOp) : op.precedence < rightLevel op.leftPrecedence := by
  cases op <;> decide

theorem precedence_lt (op : BinaryOp) : op.precedence < leadingPrecedence := by
  cases op <;> decide

theorem precedence_le_leftPrecedence (op : BinaryOp) : op.precedence ≤ op.leftPrecedence := by
  unfold leftPrecedence
  split_ifs <;> omega

theorem leftPrecedence_le {op : BinaryOp} {level : Nat} (lt : op.precedence < rightLevel level) :
    op.leftPrecedence ≤ level := by
  unfold rightLevel assignmentPrecedence ternaryPrecedence at lt
  cases op <;> simp only [precedence, commaPrecedence, assignmentPrecedence] at lt <;>
    simp only [leftPrecedence, isLeftAssociative, isAssignment, isCompound, precedence, commaPrecedence,
      assignmentPrecedence] <;> split_ifs at lt <;> simp <;> omega

theorem eq_token_of_ofToken? {op : BinaryOp} {text : String} (found : ofToken? text = some op) :
    text = op.token := by
  have isToken := List.find?_some found
  exact (eq_of_beq isToken).symm

end BinaryOp

namespace Token

variable {token : Token} {level higher : Nat}

theorem stops_mono (le : level ≤ higher) (stops : token.stops level = true) : token.stops higher = true := by
  simp only [Token.stops, Bool.and_eq_true, Option.all_eq_true, decide_eq_true_eq] at stops ⊢
  exact ⟨stops.1, fun other found => (stops.2 other found).trans_le le⟩

theorem stops_leading : token.stops leadingPrecedence = !token.isTrailer := by
  have below : token.infixLevel?.all (· < leadingPrecedence) = true := by
    unfold infixLevel?
    split_ifs
    · rfl
    · rfl
    · cases BinaryOp.ofToken? token.text with
      | none => rfl
      | some op => exact decide_eq_true op.precedence_lt
  rw [Token.stops, below, Bool.and_true]

theorem infixLevel_of_ofToken? {op : BinaryOp} (isMark : token.kind = .punctuator)
    (isOp : BinaryOp.ofToken? token.text = some op) :
    token.infixLevel? = some op.precedence ∧ token.isTrailer = false := by
  have text := BinaryOp.eq_token_of_ofToken? isOp
  have facts : op.token ≠ "?" ∧ UnaryOp.ofTrailingToken? op.token = none ∧ op.token ≠ "." ∧
      op.token ≠ "[" := by
    cases op <;> decide
  rw [← text] at facts
  obtain ⟨noQuestion, noTrailing, noDot, noBracket⟩ := facts
  simp [infixLevel?, isTrailer, isMark, noQuestion, isOp, noTrailing, noDot, noBracket]

theorem stops_of_ofToken? {op : BinaryOp} (isMark : token.kind = .punctuator)
    (isOp : BinaryOp.ofToken? token.text = some op) (lt : op.precedence < level) :
    token.stops level = true := by
  obtain ⟨isLevel, noTrailer⟩ := infixLevel_of_ofToken? isMark isOp
  rw [Token.stops, isLevel, noTrailer]
  exact decide_eq_true lt

theorem stops_of_text {text : String} (isText : token.text = text)
    (plain : text ≠ "?" ∧ BinaryOp.ofToken? text = none ∧ UnaryOp.ofTrailingToken? text = none ∧
      text ≠ "." ∧ text ≠ "[") : token.stops level = true := by
  obtain ⟨noQuestion, noOp, noTrailing, noDot, noBracket⟩ := plain
  simp [Token.stops, isTrailer, infixLevel?, isText, noQuestion, noOp, noTrailing, noDot, noBracket]

theorem stops_of_not_mark (noMark : token.kind ≠ .punctuator) : token.stops level = true := by
  simp [Token.stops, isTrailer, infixLevel?, noMark]

theorem text_of_spells {text : String} (isText : token.spells text = true) : token.text = text := by
  simp only [Token.spells, Bool.and_eq_true, beq_iff_eq] at isText
  exact isText.2

theorem text_of_isMark {text : String} (isMark : token.isMark text = true) :
    token.kind = .punctuator ∧ token.text = text := by
  simpa [Token.isMark] using isMark

end Token

namespace Parser

variable {α β : Type} {state after : ParserState} {token : Token} {text : String}

/-! ## Tokens -/

theorem bind_eq {step : Parser α} {next : α → Parser β} {value : α} (runs : step state = .ok value after) :
    (step >>= next) state = next value after := by
  change EStateM.bind step next state = _
  rw [EStateM.bind, runs]

theorem accept_eq {result : Except Diagnostic α} {value : α} (isOk : result = .ok value) :
    accept result state = .ok value state := by
  rw [isOk]
  rfl

theorem peek_eq (front : state.stream.front = .ok token) : peek state = .ok token state := accept_eq front

theorem advance_eq_ok_iff : advance state = .ok token after ↔ state.stream.front = .ok token ∧
    after = { state with stream := state.stream.dropFront, previousEnd := token.span.stop } := by
  cases front : state.stream.front with
  | error diagnostic =>
    have fails : peek state = .error diagnostic state := by
      change accept state.stream.front state = _
      rw [front]
      rfl
    change EStateM.bind peek _ state = _ ↔ _
    rw [EStateM.bind, fails]
    simp
  | ok first =>
    have runs : advance state = .ok first
        { state with stream := state.stream.dropFront, previousEnd := first.span.stop } :=
      bind_eq (peek_eq front)
    rw [runs]
    constructor
    · rintro ⟨⟩
      exact ⟨rfl, rfl⟩
    · rintro ⟨⟨⟩, rfl⟩
      rfl

theorem peek_of_advance (shift : advance state = .ok token after) : peek state = .ok token state :=
  peek_eq (advance_eq_ok_iff.mp shift).1

theorem advance_of_front (front : state.stream.front = .ok token) : ∃ after, advance state = .ok token after :=
  ⟨_, advance_eq_ok_iff.mpr ⟨front, rfl⟩⟩

theorem eat_eq (shift : advance state = .ok token after) (isText : token.spells text = true) :
    eat text state = .ok true after := by
  have isNext : nextIs text state = .ok true state := by
    rw [nextIs, bind_eq (peek_of_advance shift), isText]
    rfl
  rw [eat, bind_eq isNext, if_pos rfl, bind_eq shift]
  rfl

theorem eat_eq_false (front : state.stream.front = .ok token) (noText : token.spells text = false) :
    eat text state = .ok false state := by
  have isNext : nextIs text state = .ok false state := by
    rw [nextIs, bind_eq (peek_eq front), noText]
    rfl
  rw [eat, bind_eq isNext]
  rfl

section

variable {post : β → ParserState → Prop}

theorem gives_front_bind {next : Token → Parser β}
    (continues : ∀ token, state.stream.front = .ok token → Gives (next token) state post) :
    Gives (peek >>= next) state post := by
  have peeked : Gives peek state fun token after => after = state ∧ state.stream.front = .ok token :=
    gives_get_bind (gives_accept fun token front => ⟨rfl, front⟩)
  refine Gives.bind peeked ?_
  rintro token _ ⟨rfl, front⟩
  exact continues token front

theorem gives_advance_bind {next : Token → Parser β} (front : state.stream.front = .ok token)
    (continues : ∀ after, advance state = .ok token after → Gives (next token) after post) :
    Gives (advance >>= next) state post := by
  obtain ⟨after, shift⟩ := advance_of_front front
  refine Gives.bind (fun _ _ runs => runs) fun first read runs => ?_
  rw [shift] at runs
  cases runs
  exact continues after shift

theorem gives_eat_bind {next : Bool → Parser β}
    (reads : ∀ token after, advance state = .ok token after → token.spells text = true →
      Gives (next true) after post)
    (leaves : ∀ token, state.stream.front = .ok token → token.spells text = false →
      Gives (next false) state post) : Gives (eat text >>= next) state post := by
  rw [eat, nextIs, bind_assoc, bind_assoc]
  refine gives_front_bind fun token front => ?_
  rw [pure_bind]
  cases isText : token.spells text with
  | true =>
    rw [if_pos rfl, bind_assoc]
    exact gives_advance_bind front fun after shift => reads token after shift isText
  | false => exact leaves token front isText

end

/-! ## Steps that read no token -/

def Still (step : Parser α) : Prop :=
  ∀ state, Gives step state fun _ after => after.stream = state.stream

theorem still_throw (diagnostic : Diagnostic) : Still (throw diagnostic : Parser α) := fun _ => gives_throw

theorem still_accept (result : Except Diagnostic α) : Still (accept result) :=
  fun _ => gives_accept fun _ _ => rfl

theorem Still.bind {step : Parser α} {next : α → Parser β} (first : Still step)
    (second : ∀ value, Still (next value)) : Still (step >>= next) :=
  fun state => Gives.bind (first state) fun value after same =>
    (second value after).mono fun _ _ sameAfter => sameAfter.trans same

theorem Still.program_bind {next : Program → Parser β} (second : ∀ program, Still (next program)) :
    Still (program >>= next) :=
  fun state => second state.program state

theorem makeExpr_still (expr : Expr) : Still (makeExpr expr) :=
  fun _ => gives_get_bind (gives_modify_bind (gives_pure rfl))

theorem makeBinary_still (op : BinaryOp) (span : Span) (left right : ExprId) :
    Still (makeBinary op span left right) :=
  .program_bind fun _ => (still_accept _).bind fun _ => makeExpr_still _

theorem makeTernary_still (condition onTrue onFalse : ExprId) : Still (makeTernary condition onTrue onFalse) :=
  .program_bind fun _ => (still_accept _).bind fun _ => makeExpr_still _

theorem makeLeading_still (op : UnaryOp) (span : Span) (operand : ExprId) : Still (makeLeading op span operand) := by
  refine .program_bind fun program => ?_
  have pointer (pointee : TypeId) (storage : StorageClass) : Still (pointerTo pointee storage) := fun _ =>
    gives_get_bind (gives_modify_bind (gives_pure rfl))
  split
  · exact (still_accept _).bind fun _ => makeExpr_still _
  · exact (still_accept _).bind fun _ => (pointer _ _).bind fun _ => makeExpr_still _
  · exact (still_accept _).bind fun _ => makeExpr_still _

theorem makeTrailing_still (op : UnaryOp) (span : Span) (operand : ExprId) : Still (makeTrailing op span operand) :=
  .program_bind fun _ => (still_accept _).bind fun _ => makeExpr_still _

theorem makeNumber_still (token : Token) : Still (makeNumber token) := by
  unfold makeNumber
  split_ifs
  · split <;> exact makeExpr_still _
  · split
    · exact makeExpr_still _
    · exact still_throw _

theorem makeStructInit_still (type : TypeId) (name : Token) (arguments : List ExprId) (close : Span) :
    Still (makeStructInit type name arguments close) :=
  .program_bind fun _ => (still_accept _).bind fun _ => makeExpr_still _

theorem makeCall_still (function : FunctionId) (name : Token) (arguments : List ExprId) (close : Span) :
    Still (makeCall function name arguments close) :=
  .program_bind fun _ => (still_accept _).bind fun _ => makeExpr_still _

theorem resolve_eq {name : Token} {symbol : Symbol} (runs : resolve name state = .ok symbol after) :
    after = state := by
  have gives : Gives (resolve name) state fun _ after => after = state := by
    refine gives_get_bind ?_
    dsimp only
    split
    · exact gives_pure rfl
    · split
      · exact gives_pure rfl
      · exact gives_throw
  exact gives symbol after runs

/-! ## Steps that read one token -/

def Takes (token : Token) (state after : ParserState) : Prop :=
  state.stream.front = .ok token ∧ token.kind ≠ .endOfInput ∧ after.stream = state.stream.dropFront

theorem takes_of_advance (shift : advance state = .ok token after) (inside : token.kind ≠ .endOfInput) :
    Takes token state after := by
  obtain ⟨front, rfl⟩ := advance_eq_ok_iff.mp shift
  exact ⟨front, inside, rfl⟩

theorem takes_of_spells (shift : advance state = .ok token after) (isText : token.spells text = true) :
    Takes token state after := by
  refine takes_of_advance shift ?_
  simp only [Token.spells, Bool.and_eq_true, bne_iff_ne] at isText
  exact isText.1

theorem takes_of_mark (shift : advance state = .ok token after) (isMark : token.kind = .punctuator) :
    Takes token state after :=
  takes_of_advance shift (by simp [isMark])

theorem memberAccess_takes {base : ExprId} {span : Span} :
    Gives (memberAccess base span) state fun _ after => ∃ name, Takes name state after := by
  refine gives_get_bind (gives_accept_bind fun struct _ => ?_)
  rw [expectIdentifier, bind_assoc]
  refine gives_front_bind fun name front => ?_
  split_ifs with isName
  · refine gives_advance_bind front fun after shift => gives_accept_bind fun selection _ => ?_
    have taken := takes_of_advance shift (by simp [isName])
    have made (expr : Expr) : Gives (makeExpr expr) after fun _ last => ∃ name, Takes name state last :=
      (makeExpr_still expr after).mono fun _ _ same => ⟨name, taken.1, taken.2.1, same.trans taken.2.2⟩
    cases selection with
    | member index type => exact made _
    | swizzle components type => exact made _
  · exact gives_throw_bind

theorem openStructInit_takes {type : TypeId} {name : Token} :
    Gives (openStructInit type name) state fun _ after => ∃ paren, Takes paren state after := by
  refine gives_front_bind fun paren _ => gives_eat_bind (fun token after shift isText => ?_) fun _ _ _ => ?_
  · refine gives_get_bind ?_
    split_ifs
    · exact gives_pure ⟨token, takes_of_spells shift isText⟩
    · exact gives_throw
  · exact gives_throw_bind

theorem openCall_takes {function : FunctionId} {name : Token} :
    Gives (openCall function name) state fun _ after => ∃ paren, Takes paren state after := by
  rw [openCall, expect, bind_assoc]
  refine gives_front_bind fun paren front => ?_
  split_ifs with isText
  · refine gives_advance_bind front fun after shift => gives_get_bind ?_
    split_ifs
    · exact gives_throw
    · exact gives_pure ⟨paren, takes_of_spells shift isText⟩
  · exact gives_throw_bind

end Parser

/-! ## What is read -/

def Token.firstBracket (both : Token) : Token :=
  ⟨.punctuator, "]", ⟨both.span.start, both.span.start + 1⟩⟩

def Token.secondBracket (both : Token) : Token :=
  ⟨.punctuator, "]", ⟨both.span.start + 1, both.span.stop⟩⟩

/-- The tokens of a word are read one by one, and so are two closing brackets in one token. -/
inductive Consumes : List Token → List Token → List Token → Prop
  | nothing {tokens : List Token} : Consumes tokens [] tokens
  | token {token : Token} {tokens word rest : List Token} (others : Consumes tokens word rest) :
    Consumes (token :: tokens) (token :: word) rest
  | bracket {both : Token} {tokens word rest : List Token} (isBoth : both.kind = .attributeClose)
      (others : Consumes (both.secondBracket :: tokens) word rest) :
    Consumes (both :: tokens) (both.firstBracket :: word) rest

theorem Consumes.append {tokens word rest more last : List Token} (first : Consumes tokens word rest)
    (second : Consumes rest more last) : Consumes tokens (word ++ more) last := by
  induction first with
  | nothing => exact second
  | token _ ih => exact .token (ih second)
  | bracket isBoth _ ih => exact .bracket isBoth (ih second)

theorem Consumes.length_le {tokens word rest : List Token} (consumes : Consumes tokens word rest) :
    word.length + (rest.map TokenStream.tokenWeight).sum ≤ (tokens.map TokenStream.tokenWeight).sum := by
  induction consumes with
  | nothing => simp
  | token _ ih =>
    have positive (token : Token) : 1 ≤ TokenStream.tokenWeight token := by
      unfold TokenStream.tokenWeight
      split_ifs <;> omega
    simp only [List.length_cons, List.map_cons, List.sum_cons]
    linarith [positive ‹_›]
  | bracket isBoth _ ih =>
    simp only [List.length_cons, List.map_cons, List.sum_cons, TokenStream.tokenWeight, isBoth, if_true,
      Token.secondBracket, reduceCtorEq, if_false] at ih ⊢
    omega

def TokenStream.Ends (stream : TokenStream) : Prop :=
  ∀ token, stream.ending = .ok token → token.kind = .endOfInput

theorem Lexer.stream_ends (lexer : Lexer) : lexer.stream.Ends := by
  fun_induction Lexer.stream with
  | case1 => rintro token ⟨⟩
  | case2 _ _ _ _ isEnd =>
    rintro token ⟨⟩
    exact isEnd
  | case3 _ _ _ _ _ _ ends => exact ends

namespace ParserState

open Shader.Parser

variable {before middle after : ParserState} {token : Token} {word more : List Token}

structure Consumes (before : ParserState) (word : List Token) (after : ParserState) : Prop where
  tokens : Shader.Consumes before.stream.tokens word after.stream.tokens
  ends : after.stream.Ends

theorem Consumes.append (first : before.Consumes word middle) (second : middle.Consumes more after) :
    before.Consumes (word ++ more) after :=
  ⟨first.tokens.append second.tokens, second.ends⟩

theorem Consumes.still (consumes : before.Consumes word middle) (same : after.stream = middle.stream) :
    before.Consumes word after :=
  ⟨same ▸ consumes.tokens, same ▸ consumes.ends⟩

theorem tokens_of_front (ends : before.stream.Ends) (front : before.stream.front = .ok token)
    (inside : token.kind ≠ .endOfInput) :
    before.stream.tokens = token :: before.stream.dropFront.tokens := by
  unfold TokenStream.front at front
  unfold TokenStream.dropFront
  split at front
  · rename_i first rest tokens
    cases front
    rw [tokens]
    rfl
  · exact absurd (ends token front) inside

theorem consumes_of_takes (ends : before.stream.Ends) (takes : Takes token before after) :
    before.Consumes [token] after := by
  obtain ⟨front, inside, same⟩ := takes
  refine ⟨?_, same ▸ ends⟩
  rw [tokens_of_front ends front inside, same]
  exact .token .nothing

theorem consumes_closingBracket {close : Token} (ends : before.stream.Ends) (isClose : close.isMark "]" = true)
    (runs : expectClosingBracket before = .ok close.span after) : before.Consumes [close] after := by
  have isText := Token.text_of_isMark isClose
  have gives : Gives expectClosingBracket before fun span last =>
      span = close.span → before.Consumes [close] last := by
    refine gives_front_bind fun token front => ?_
    split_ifs with isMark isBoth
    · refine gives_advance_bind front fun last shift => gives_pure fun sameSpan => ?_
      obtain ⟨kind, text⟩ := Token.text_of_isMark isMark
      have same : token = close := by
        cases token
        cases close
        simp_all
      exact same ▸ consumes_of_takes ends (takes_of_mark shift kind)
    · refine gives_modify_bind (gives_pure fun sameSpan => ⟨?_, ends⟩)
      have same : close = token.firstBracket := by
        cases close
        simp_all [Token.firstBracket]
      rw [tokens_of_front ends front (by simp [isBoth]), same]
      exact .bracket isBoth .nothing
    · exact gives_throw
  exact gives _ _ runs rfl

end ParserState

namespace Derives

open Shader.Parser ParserState

variable {category : Category} {before after : ParserState} {word : List Token} {result : category.Result}

theorem length_pos (derives : Derives category before word result after) : 0 < word.length := by
  induction derives with
  | lower _ ih | operand _ _ ih | primary _ ih => exact ih
  | first _ _ _ _ _ ih _ => simp [ih]
  | _ => simp

theorem consumes (derives : Derives category before word result after) (ends : before.stream.Ends) :
    before.Consumes word after := by
  induction derives with
  | lower _ ih | operand _ _ ih | primary _ ih => exact ih ends
  | binary _ shift isMark _ _ made left right =>
    have first := left ends
    have second := consumes_of_takes first.ends (takes_of_mark shift isMark)
    exact first.append (second.append ((right second.ends).still (makeBinary_still _ _ _ _ _ _ _ made)))
  | ternary _ shift isMark _ shiftColon isColon _ made decides onTrue onFalse =>
    have first := decides ends
    have second := consumes_of_takes first.ends (takes_of_mark shift (Token.text_of_isMark isMark).1)
    have third := onTrue second.ends
    have fourth := consumes_of_takes third.ends (takes_of_spells shiftColon isColon)
    exact (first.append (second.append third)).append
      (fourth.append ((onFalse fourth.ends).still (makeTernary_still _ _ _ _ _ _ made)))
  | leading shift isMark _ _ made below =>
    have first := consumes_of_takes ends (takes_of_mark shift isMark)
    exact first.append ((below first.ends).still (makeLeading_still _ _ _ _ _ _ made))
  | trailing _ shift isMark _ made below =>
    have first := below ends
    have second := consumes_of_takes first.ends (takes_of_mark shift isMark)
    exact first.append (second.still (makeTrailing_still _ _ _ _ _ _ made))
  | member _ shift isDot isNext made below =>
    have first := below ends
    have second := consumes_of_takes first.ends (takes_of_mark shift (Token.text_of_isMark isDot).1)
    obtain ⟨name, takes⟩ := memberAccess_takes _ _ made
    cases isNext.symm.trans takes.1
    exact first.append (second.append (consumes_of_takes second.ends takes))
  | index _ shift isOpen _ _ _ isClose closes made below inside =>
    have first := below ends
    have second := consumes_of_takes first.ends (takes_of_mark shift (Token.text_of_isMark isOpen).1)
    have third := inside second.ends
    have last := consumes_closingBracket third.ends isClose closes
    exact (first.append (second.append third)).append (last.still (makeExpr_still _ _ _ _ made))
  | parentheses shift isOpen _ shiftClose isClose inside =>
    have first := consumes_of_takes ends (takes_of_mark shift (Token.text_of_isMark isOpen).1)
    have second := inside first.ends
    exact (first.append second).append (consumes_of_takes second.ends (takes_of_spells shiftClose isClose))
  | number shift isNumber made =>
    refine (consumes_of_takes ends (takes_of_advance shift ?_)).still (makeNumber_still _ _ _ _ made)
    rcases isNumber with kind | kind <;> simp [kind]
  | bool shift isName _ made | var shift isName _ _ made =>
    exact (consumes_of_takes ends (takes_of_advance shift (by simp [isName]))).still
      (makeExpr_still _ _ _ _ made)
  | structInit shift isName _ _ isNext opens _ made inside =>
    have first := consumes_of_takes ends (takes_of_advance shift (by simp [isName]))
    obtain ⟨paren, takes⟩ := openStructInit_takes _ _ opens
    cases isNext.symm.trans takes.1
    have second := consumes_of_takes first.ends takes
    exact first.append (second.append ((inside second.ends).still (makeStructInit_still _ _ _ _ _ _ _ made)))
  | call shift isName _ _ isNext opens _ made inside =>
    have first := consumes_of_takes ends (takes_of_advance shift (by simp [isName]))
    obtain ⟨paren, takes⟩ := openCall_takes _ _ opens
    cases isNext.symm.trans takes.1
    have second := consumes_of_takes first.ends takes
    exact first.append (second.append ((inside second.ends).still (makeCall_still _ _ _ _ _ _ _ made)))
  | close shift isClose => exact consumes_of_takes ends (takes_of_spells shift isClose)
  | first _ _ _ _ _ argument others =>
    have first := argument ends
    exact first.append (others first.ends)
  | next shift isComma _ _ argument others =>
    have first := consumes_of_takes ends (takes_of_spells shift isComma)
    have second := argument first.ends
    exact (first.append second).append (others second.ends)

end Derives

end Shader
