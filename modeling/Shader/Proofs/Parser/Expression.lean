import Shader.Proofs.Parser.Outcome
import Shader.Proofs.Program.Checking

/-! # Parsed expressions

Every expression that is read is typed, is made of older ones and reads only variables in scope. -/

namespace Shader

theorem UnaryOp.isTrailing_of_leading {text : String} {op : UnaryOp}
    (found : UnaryOp.ofLeadingToken? text = some op) : op.isTrailing = false := by
  have listed : ∀ op ∈ UnaryOp.leading, op.isTrailing = false := by decide
  exact listed op (List.mem_of_find?_eq_some found)

theorem UnaryOp.isTrailing_of_trailing {text : String} {op : UnaryOp}
    (found : UnaryOp.ofTrailingToken? text = some op) : op.isTrailing = true := by
  have listed : ∀ op ∈ UnaryOp.trailing, op.isTrailing = true := by decide
  exact listed op (List.mem_of_find?_eq_some found)

namespace Parser

variable {type : TypeId} {op : UnaryOp} {opSpan : Span} {operand : ExprId}

open ParserState (Extends)

variable {scope : Set VarId} {expected : Option TypeId} {start : ParserState}

/-! ## Adding expressions -/

theorem makeExpr_reads {expr : Expr}
    (parts : ∀ child ∈ expr.kind.children, start.program.Readable scope child)
    (judged : start.program.HasType expr.kind expr.type expr.isLvalue)
    (names : ∀ var, expr.kind = .var var → var ∈ scope ∨ (start.program.var var).kind = .global) :
    Reads scope expected (makeExpr expr) start fun program id => program.Readable scope id := by
  intro sane _ _
  refine gives_get_bind (gives_modify_bind (gives_pure ?_))
  have has (child : ExprId) (found : child ∈ expr.kind.children) :
      child.index < start.program.exprs.size := (parts child found).has
  have added : Program.Sane _ := sane.program.addExpr has (sane.program.typed_of_hasType judged has)
  exact ⟨sane.extends added (Program.grows_addExpr expr) rfl rfl rfl .refl,
    sane.program.readable_addExpr parts names⟩

theorem makeNode_reads {kind : ExprKind} {lvalue : Bool} {span : Span}
    (noVar : ∀ var, kind ≠ .var var)
    (parts : ∀ child ∈ kind.children, start.program.Readable scope child)
    (judged : start.program.HasType kind type lvalue) :
    Reads scope expected (makeExpr ⟨kind, type, lvalue, span⟩) start
      fun program id => program.Readable scope id :=
  makeExpr_reads parts judged fun var isVar => absurd isVar (noVar var)

theorem makeBinary_reads {op : BinaryOp} {left right : ExprId}
    (readLeft : start.program.Readable scope left) (readRight : start.program.Readable scope right) :
    Reads scope expected (makeBinary op opSpan left right) start
      fun program id => program.Readable scope id := by
  refine reads_program_bind (reads_accept_bind fun type checked => makeNode_reads ?_ ?_ ?_)
  · exact fun var isVar => nomatch isVar
  · simp [readLeft, readRight]
  · exact Program.hasType_of_typeOfBinary checked

theorem makeTernary_reads {condition onTrue onFalse : ExprId}
    (readCondition : start.program.Readable scope condition)
    (readTrue : start.program.Readable scope onTrue)
    (readFalse : start.program.Readable scope onFalse) :
    Reads scope expected (makeTernary condition onTrue onFalse) start
      fun program id => program.Readable scope id := by
  refine reads_program_bind (reads_accept_bind fun type checked => makeNode_reads ?_ ?_ ?_)
  · exact fun var isVar => nomatch isVar
  · simp [readCondition, readTrue, readFalse]
  · exact Program.hasType_of_typeOfTernary checked

theorem makeUnary_reads {span : Span} (read : start.program.Readable scope operand)
    (judged : start.program.HasType (.unary op operand) type false) :
    Reads scope expected (makeExpr ⟨.unary op operand, type, false, span⟩) start
      fun program id => program.Readable scope id := by
  refine makeNode_reads ?_ ?_ judged
  · exact fun var isVar => nomatch isVar
  · simp [read]

theorem pointerTo_reads {pointee : TypeId} (storage : StorageClass)
    (known : pointee.index < start.program.types.size) :
    Reads scope expected (pointerTo pointee storage) start fun program type =>
      (program.type type).kind = .pointer pointee storage := by
  intro sane _ _
  refine gives_get_bind (gives_modify_bind (gives_pure ⟨?_, sane.program.kind_pointerTo pointee storage⟩))
  exact sane.extends (sane.program.pointerTo storage known) (Program.grows_pointerTo pointee storage)
    rfl rfl (Program.declarations_pointerTo pointee storage) fun var => .inl (congrArg (·.get var)
      (Program.vars_pointerTo pointee storage))

theorem makeLeading_reads
    (read : start.program.Readable scope operand) (leads : op.isTrailing = false) :
    Reads scope expected (makeLeading op opSpan operand) start
      fun program id => program.Readable scope id := by
  refine reads_program_bind ?_
  split
  · -- a pointer is followed
    refine reads_accept_bind fun type checked => makeNode_reads ?_ ?_ ?_
    · exact fun var isVar => nomatch isVar
    · simp [read]
    · exact Program.hasType_of_typeOfDeref checked
  · -- an address is taken
    refine reads_accept_bind fun _ checked => reads_intro fun sane _ => ?_
    have known := (sane.program.typed operand read.has).known
    obtain ⟨target, noSwizzle⟩ := Program.isAddress_of_checkAddress checked
    refine Reads.bind (pointerTo_reads .function known) fun type after extended isPointer => ?_
    refine makeUnary_reads (extended.readable read) ?_
    rw [← extended.expr read.has] at target noSwizzle isPointer
    exact .addressOf target noSwizzle isPointer
  · rename_i noDeref noAddress
    refine reads_accept_bind fun type checked => makeUnary_reads read ?_
    exact Program.hasType_of_typeOfUnary leads noDeref noAddress checked

theorem makeTrailing_reads
    (read : start.program.Readable scope operand) (trails : op.isTrailing = true) :
    Reads scope expected (makeTrailing op opSpan operand) start fun program id => program.Readable scope id :=
  reads_program_bind (reads_accept_bind fun _ checked =>
    makeUnary_reads read (Program.hasType_of_typeOfTrailing trails checked))

theorem makeLiteral_reads (value : Literal) (span : Span) :
    Reads scope expected (makeExpr ⟨.literal value, value.type, false, span⟩) start
      fun program id => program.Readable scope id := by
  refine makeNode_reads ?_ ?_ (.literal value)
  · exact fun var isVar => nomatch isVar
  · simp

theorem single_or_double (text : String) :
    (∃ bits, readFloat text = .single bits) ∨ ∃ bits, readFloat text = .double bits := by
  unfold readFloat
  dsimp only
  split
  · exact .inl ⟨_, rfl⟩
  · exact .inr ⟨_, rfl⟩

theorem makeNumber_reads (token : Token) :
    Reads scope expected (makeNumber token) start fun program id => program.Readable scope id := by
  unfold makeNumber
  split_ifs
  · split
    · exact makeLiteral_reads (.single _) _
    · rename_i noSingle
      -- what is no float of 32 bits is one of 64 bits
      obtain ⟨bits, isDouble⟩ :=
        (single_or_double token.text).resolve_left fun ⟨bits, isSingle⟩ => noSingle bits isSingle
      rw [isDouble]
      exact makeLiteral_reads (.double bits) _
  · split
    · exact makeLiteral_reads (.int _) _
    · exact reads_throw

theorem memberAccess_reads {base : ExprId} {dotSpan : Span}
    (read : start.program.Readable scope base) :
    Reads scope expected (memberAccess base dotSpan) start fun program id => program.Readable scope id := by
  refine reads_program_bind (reads_accept_bind fun struct found => ?_)
  have behind := Program.structBehind_of_structOf found
  refine Reads.bind expectIdentifier_reads fun name after extended _ => ?_
  -- the name is looked up in the program in front of it
  have judged {kind : ExprKind} {type : TypeId} {lvalue : Bool} (isChild : kind.children = [base])
      (typed : start.program.HasType kind type lvalue) : after.program.HasType kind type lvalue := by
    refine typed.grows extended.started.program extended.grows ?_
    rw [isChild]
    simpa using read.has
  refine reads_accept_bind fun selection selected => ?_
  split <;> refine makeNode_reads ?_ ?_ (judged rfl ?_)
  · exact fun var isVar => nomatch isVar
  · simp [extended.readable read]
  · exact extended.started.program.hasType_of_member behind selected
  · exact fun var isVar => nomatch isVar
  · simp [extended.readable read]
  · exact Program.hasType_of_swizzle behind selected

theorem makeStructInit_reads {name : Token} {arguments : List ExprId}
    {closeSpan : Span} (isStruct : start.program.isStruct type = true)
    (read : ∀ argument ∈ arguments, start.program.Readable scope argument) :
    Reads scope expected (makeStructInit type name arguments closeSpan) start
      fun program id => program.Readable scope id := by
  refine reads_program_bind (reads_accept_bind fun _ checked => makeNode_reads ?_ read ?_)
  · exact fun var isVar => nomatch isVar
  · have same := Program.types_of_checkInitializer checked
    rw [List.map_map] at same
    exact .structInit isStruct same

theorem makeCall_reads {function : FunctionId} {name : Token} {arguments : List ExprId}
    {closeSpan : Span} (has : function.index < start.program.functions.size)
    (isPlain : (start.program.function function).isEntryPoint = false)
    (read : ∀ argument ∈ arguments, start.program.Readable scope argument) :
    Reads scope expected (makeCall function name arguments closeSpan) start
      fun program id => program.Readable scope id := by
  refine reads_program_bind (reads_accept_bind fun _ checked => makeNode_reads ?_ read ?_)
  · exact fun var isVar => nomatch isVar
  · have same := Program.types_of_checkArguments checked
    rw [List.map_map] at same
    exact .call has isPlain same

theorem resolve_reads (name : Token) :
    Reads scope expected (resolve name) start fun program symbol => program.Knows symbol ∧
      ∀ var, symbol = .var var → var ∈ scope ∨ (program.var var).kind = .global := by
  intro sane inScope _
  refine gives_get_bind ?_
  dsimp only
  split
  · rename_i type found
    refine gives_pure ⟨.refl sane, ?_, fun var isVar => nomatch isVar⟩
    exact sane.known (.type type) (Scopes.binds_of_findType found)
  · split
    · rename_i entry found
      refine gives_pure ⟨.refl sane, sane.known _ (Scopes.binds_of_lookup found), fun var isVar => ?_⟩
      have named : start.scopes.lookup? name.text = some ⟨.var var, entry.span⟩ := by
        rw [found, ← isVar]
      rcases Scopes.mem_of_lookup named with isLocal | isGlobal
      · exact .inl (inScope ▸ isLocal)
      · exact .inr (sane.globals var isGlobal)
    · exact gives_throw

theorem openStructInit_reads (type : TypeId) (name : Token) :
    Reads scope expected (openStructInit type name) start fun program _ => program.isStruct type = true := by
  refine reads_peek_bind fun paren => Reads.bind (eat_reads "(") fun isOpen after _ _ => ?_
  dsimp only
  split_ifs
  · refine reads_program_bind ?_
    split_ifs with isStruct
    · exact reads_pure isStruct
    · exact reads_throw
  · exact reads_throw_bind

theorem openCall_reads (function : FunctionId) (name : Token) :
    Reads scope expected (openCall function name) start
      fun program _ => (program.function function).isEntryPoint = false := by
  refine Reads.bind (expect_reads "(") fun _ after _ _ => reads_program_bind ?_
  dsimp only
  split_ifs with isEntry
  · exact reads_throw
  · exact reads_pure (by simpa using isEntry)

/-! ## Reading expressions -/

/-- The functions that read expressions to a depth give readable ones, if what they go on with is
readable. -/
structure ReadsExprs (scope : Set VarId) (expected : Option TypeId) (depth : Nat) : Prop where
  expression : ∀ start level, Reads scope expected (expressionWithin depth level) start
    fun program id => program.Readable scope id
  operators : ∀ start level left, start.program.Readable scope left →
    Reads scope expected (operatorsWithin depth level left) start fun program id => program.Readable scope id
  operand : ∀ start, Reads scope expected (operandWithin depth) start fun program id => program.Readable scope id
  named : ∀ start name, Reads scope expected (namedWithin depth name) start
    fun program id => program.Readable scope id
  arguments : ∀ start isFirst, Reads scope expected (argumentsWithin depth isFirst) start
    fun program result => ∀ argument ∈ result.1, program.Readable scope argument
  trailing : ∀ start left, start.program.Readable scope left →
    Reads scope expected (trailingWithin depth left) start fun program id => program.Readable scope id

variable {depth : Nat}

section Reads

variable {left : ExprId}

variable (reads : ReadsExprs scope expected depth)

include reads

theorem ReadsExprs.operators_succ (level : Nat) (readLeft : start.program.Readable scope left) :
    Reads scope expected (operatorsWithin (depth + 1) level left) start
      fun program id => program.Readable scope id := by
  rw [operatorsWithin]
  refine reads_peek_bind fun token => ?_
  split_ifs
  · exact reads_pure readLeft
  · exact reads_pure readLeft
  · -- a ternary operator
    refine Reads.bind advance_reads fun _ read extendedRead _ => ?_
    refine Reads.bind (reads.expression read 0) fun onTrue first extendedTrue readTrue => ?_
    refine reads_peek_bind fun colon => Reads.bind (eat_reads ":") fun isColon second colonRead _ => ?_
    dsimp only
    split_ifs
    · refine Reads.bind (reads.expression second _) fun onFalse third extendedFalse readFalse => ?_
      have front := (extendedRead.trans extendedTrue).trans (colonRead.trans extendedFalse)
      refine Reads.bind (makeTernary_reads (front.readable readLeft)
        ((colonRead.trans extendedFalse).readable readTrue) readFalse) fun ternary last _ made => ?_
      exact reads.operators last level ternary made
    · exact reads_throw_bind
  · split
    · exact reads_pure readLeft
    · split_ifs
      · exact reads_pure readLeft
      · refine Reads.bind advance_reads fun _ read extendedRead _ => ?_
        refine Reads.bind (reads.expression read _) fun right second extendedRight readRight => ?_
        have front := extendedRead.trans extendedRight
        refine Reads.bind (makeBinary_reads (front.readable readLeft) readRight) fun binary last _ made => ?_
        exact reads.operators last level binary made

theorem ReadsExprs.operand_succ :
    Reads scope expected (operandWithin (depth + 1)) start fun program id => program.Readable scope id := by
  rw [operandWithin]
  refine reads_peek_bind fun token => ?_
  have number : Reads scope expected (do
      let _ ← advance
      let number ← makeNumber token
      trailingWithin depth number) start fun program id => program.Readable scope id := by
    refine Reads.bind advance_reads fun _ first _ _ => ?_
    refine Reads.bind (makeNumber_reads token) fun number second _ made => ?_
    exact reads.trailing second number made
  split
  · exact number
  · exact number
  · refine Reads.bind (reads.named start token) fun named after _ made => ?_
    exact reads.trailing after named made
  · split
    · rename_i op found
      refine Reads.bind advance_reads fun _ first _ _ => ?_
      refine Reads.bind (reads.expression first _) fun operand second _ read => ?_
      exact makeLeading_reads read (UnaryOp.isTrailing_of_leading found)
    · split_ifs
      · refine Reads.bind advance_reads fun _ first _ _ => ?_
        refine Reads.bind (reads.expression first 0) fun inner second _ read => ?_
        refine Reads.bind (eat_reads ")") fun isClosed third closed _ => ?_
        dsimp only
        split_ifs
        · exact reads.trailing third inner (closed.readable read)
        · exact reads_throw_bind
      · exact reads_throw
  · exact reads_throw

theorem ReadsExprs.named_succ (name : Token) :
    Reads scope expected (namedWithin (depth + 1) name) start fun program id => program.Readable scope id := by
  rw [namedWithin]
  split_ifs
  · exact Reads.bind advance_reads fun _ after _ _ => makeLiteral_reads (.bool _) _
  · refine Reads.bind (resolve_reads name) fun symbol first _ resolved => ?_
    refine Reads.bind advance_reads fun _ second extended _ => ?_
    obtain ⟨known, inScope⟩ := resolved
    split
    · rename_i type
      refine Reads.bind (openStructInit_reads type name) fun _ third _ isStruct => ?_
      refine Reads.bind (reads.arguments third true) fun result last extendedLast read => ?_
      refine makeStructInit_reads ?_ read
      rwa [Program.isStruct, extendedLast.grows.type (Program.has_of_isStruct isStruct)]
    · rename_i function
      refine Reads.bind (openCall_reads function name) fun _ third extendedThird isPlain => ?_
      refine Reads.bind (reads.arguments third true) fun result last extendedLast read => ?_
      have has : function.index < third.program.functions.size :=
        lt_of_lt_of_le known (extended.trans extendedThird).grows.functions.size
      have same : last.program.function function = third.program.function function :=
        extendedLast.grows.functions.get has
      exact makeCall_reads (has.trans_le extendedLast.grows.functions.size) (same ▸ isPlain) read
    · rename_i var
      have has : var.index < first.program.vars.size := known
      refine reads_program_bind (makeExpr_reads ?_ (.var (has.trans_le extended.grows.vars)) ?_)
      · simp
      · rintro other ⟨⟩
        exact (inScope var rfl).imp_right fun isGlobal =>
          (extended.grows.var var has).1.trans isGlobal

theorem ReadsExprs.arguments_succ (isFirst : Bool) :
    Reads scope expected (argumentsWithin (depth + 1) isFirst) start
      fun program result => ∀ argument ∈ result.1, program.Readable scope argument := by
  rw [argumentsWithin]
  refine reads_peek_bind fun token => Reads.bind (eat_reads ")") fun isClosed first _ _ => ?_
  have more (now : ParserState) : Reads scope expected (do
      let argument ← expressionWithin depth assignmentPrecedence
      let result ← argumentsWithin depth false
      return (argument :: result.1, result.2)) now
      fun program result => ∀ argument ∈ result.1, program.Readable scope argument := by
    refine Reads.bind (reads.expression now _) fun argument second _ read => ?_
    refine Reads.bind (reads.arguments second false) fun result last extended readRest => ?_
    refine reads_pure ?_
    simp only [List.mem_cons, forall_eq_or_imp]
    exact ⟨extended.readable read, readRest⟩
  split_ifs
  · exact reads_pure (by simp)
  · exact reads_throw
  · exact more first
  · refine Reads.bind (eat_reads ",") fun isComma second _ _ => ?_
    dsimp only
    split_ifs
    · exact more second
    · exact reads_throw_bind

theorem ReadsExprs.index (token : Token) (readLeft : start.program.Readable scope left) :
    Reads scope expected (do
      let element ← accept (typeOfIndex (← program) token.span ((← program).expr left))
      let position ← expressionWithin depth 0
      let program ← program
      accept (checkIndex program token.span (program.expr position))
      let closeSpan ← expectClosingBracket
      makeExpr ⟨.index left position, element, true, (program.expr left).span.cover closeSpan⟩) start
      fun program id => program.Readable scope id := by
  refine reads_program_bind (reads_program_bind (reads_accept_bind fun element checked => ?_))
  have points := Program.pointee_of_typeOfIndex checked
  refine Reads.bind (reads.expression start 0) fun position first extended readPosition => ?_
  refine reads_program_bind (reads_accept_bind fun _ checkedPosition => ?_)
  -- the types of both parts are known in front of the closing bracket
  have judged : first.program.HasType (.index left position) element true := by
    refine .index ?_ (Program.isInteger_of_checkIndex checkedPosition)
    rwa [Program.pointee?, extended.expr readLeft.has, extended.grows.type (Program.has_of_pointee points)]
  refine Reads.bind expectClosingBracket_reads fun closeSpan last closed _ => ?_
  have front := extended.trans closed
  refine makeNode_reads ?_ ?_ (judged.grows closed.started.program closed.grows ?_)
  · rintro _ ⟨⟩
  · simp [front.readable readLeft, closed.readable readPosition]
  · simp [(extended.readable readLeft).has, readPosition.has]

theorem ReadsExprs.trailing_succ (readLeft : start.program.Readable scope left) :
    Reads scope expected (trailingWithin (depth + 1) left) start fun program id => program.Readable scope id := by
  rw [trailingWithin]
  refine reads_peek_bind fun token => ?_
  split
  · exact reads_pure readLeft
  · split
    · rename_i op found
      refine Reads.bind advance_reads fun _ first extended _ => ?_
      refine Reads.bind (makeTrailing_reads (extended.readable readLeft)
        (UnaryOp.isTrailing_of_trailing found)) fun stepped last _ made => ?_
      exact reads.trailing last stepped made
    · split_ifs
      · refine Reads.bind advance_reads fun _ first extended _ => ?_
        refine Reads.bind (memberAccess_reads (extended.readable readLeft)) fun selected last _ made => ?_
        exact reads.trailing last selected made
      · refine Reads.bind advance_reads fun _ first extended _ => ?_
        have read := Reads.bind (reads.index token (extended.readable readLeft))
          fun indexed last _ made => reads.trailing last indexed made
        simpa only [bind_assoc] using read
      · exact reads_pure readLeft

end Reads

theorem reads_exprs (scope : Set VarId) (expected : Option TypeId) (depth : Nat) : ReadsExprs scope expected depth := by
  induction depth with
  | zero =>
    constructor
    · intro start level
      rw [expressionWithin]
      exact reads_throw
    · intro start level left _
      rw [operatorsWithin]
      exact reads_throw
    · intro start
      rw [operandWithin]
      exact reads_throw
    · intro start name
      rw [namedWithin]
      exact reads_throw
    · intro start isFirst
      rw [argumentsWithin]
      exact reads_throw
    · intro start left _
      rw [trailingWithin]
      exact reads_throw
  | succ depth reads =>
    refine ⟨fun start level => ?_, fun start level left => reads.operators_succ level,
      fun start => reads.operand_succ, fun start name => reads.named_succ name,
      fun start isFirst => reads.arguments_succ isFirst, fun start left => reads.trailing_succ⟩
    rw [expressionWithin]
    exact Reads.bind (reads.operand start) fun left after _ read => reads.operators after level left read

theorem expression_reads (level : Nat) :
    Reads scope expected (expression level) start fun program id => program.Readable scope id :=
  reads_depthLimit_bind fun limit => (reads_exprs scope expected limit).expression start level

end Parser

end Shader
