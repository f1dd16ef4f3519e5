import Shader.Parser.Basic

/-! # Parsing expressions

Expressions are read by precedence climbing, and each one is checked as soon as it is made. A level of
precedence reads an operand and then every operator that binds at least as tightly as the level;
operators that group to the left read their right operand one level higher. -/

namespace Shader

namespace Parser

/-! ## Checked nodes -/

def makeBinary (op : BinaryOp) (opSpan : Span) (left right : ExprId) : Parser ExprId := do
  let program ← program
  let leftExpr := program.expr left
  let rightExpr := program.expr right
  let type ← accept (typeOfBinary program op opSpan leftExpr rightExpr)
  makeExpr ⟨.binary op opSpan left right, type, false, leftExpr.span.cover rightExpr.span⟩

def makeTernary (condition onTrue onFalse : ExprId) : Parser ExprId := do
  let program ← program
  let conditionExpr := program.expr condition
  let falseExpr := program.expr onFalse
  let type ← accept (typeOfTernary program conditionExpr (program.expr onTrue) falseExpr)
  makeExpr ⟨.ternary condition onTrue onFalse, type, false, conditionExpr.span.cover falseExpr.span⟩

def makeLeading (op : UnaryOp) (opSpan : Span) (operand : ExprId) : Parser ExprId := do
  let program ← program
  let operandExpr := program.expr operand
  let span := opSpan.cover operandExpr.span
  match op with
  | .dereference =>
    let type ← accept (typeOfDeref program opSpan operandExpr)
    makeExpr ⟨.deref operand, type, true, span⟩
  | .addressOf =>
    accept (checkAddress opSpan operandExpr)
    let type ← pointerTo operandExpr.type .function
    makeExpr ⟨.unary op operand, type, false, span⟩
  | _ =>
    let type ← accept (typeOfUnary program op opSpan operandExpr)
    makeExpr ⟨.unary op operand, type, false, span⟩

def makeTrailing (op : UnaryOp) (opSpan : Span) (operand : ExprId) : Parser ExprId := do
  let program ← program
  let operandExpr := program.expr operand
  let type ← accept (typeOfTrailing program op opSpan operandExpr)
  makeExpr ⟨.unary op operand, type, false, operandExpr.span.cover opSpan⟩

def makeNumber (token : Token) : Parser ExprId := do
  if token.kind = .float then
    match readFloat token.text with
    | .single bits => makeExpr ⟨.literal (.single bits), .f32, false, token.span⟩
    | literal => makeExpr ⟨.literal literal, .f64, false, token.span⟩
  else
    match readInteger? token.text with
    | some value => makeExpr ⟨.literal (.int value), .s32, false, token.span⟩
    | none => throw (.grammarAt token.span .malformedInteger)

/-- Read the name behind a point and add the member or swizzle that it selects. -/
def memberAccess (base : ExprId) (dotSpan : Span) : Parser ExprId := do
  let program ← program
  let baseExpr := program.expr base
  let struct ← accept (structOf program dotSpan baseExpr.type)
  let isLvalue := baseExpr.isLvalue || struct != baseExpr.type
  let name ← expectIdentifier
  let span := baseExpr.span.cover name.span
  match ← accept (selectMember program struct name.text name.span) with
  | .member index type => makeExpr ⟨.member base index, type, isLvalue, span⟩
  | .swizzle components type =>
    makeExpr ⟨.swizzle base components, type, isLvalue && decide components.Nodup, span⟩

def makeStructInit (type : TypeId) (name : Token) (arguments : List ExprId) (closeSpan : Span) :
    Parser ExprId := do
  let program ← program
  accept (checkInitializer program type closeSpan (arguments.map program.expr))
  makeExpr ⟨.structInit type arguments, type, false, name.span.cover closeSpan⟩

def makeCall (function : FunctionId) (name : Token) (arguments : List ExprId) (closeSpan : Span) :
    Parser ExprId := do
  let program ← program
  let callee := program.function function
  let span := name.span.cover closeSpan
  accept (checkArguments program callee span (arguments.map program.expr))
  makeExpr ⟨.call function arguments, callee.returnType, false, span⟩

/-- What a name in an expression stands for. Names of types go first, under all their spellings. -/
def resolve (name : Token) : Parser Symbol := do
  let scopes := (← get).scopes
  match scopes.findType? name.text with
  | some type => return .type type
  | none =>
    match scopes.lookup? name.text with
    | some entry => return entry.symbol
    | none => throw (.typingAt name.span .unknownIdentifier)

def openStructInit (type : TypeId) (name : Token) : Parser Unit := do
  let paren ← peek
  unless ← eat "(" do
    throw (.grammarAt paren.span (.expectedInitializer paren.text))
  let program ← program
  unless program.isStruct type do
    throw (.typingAt name.span (.structExpected (program.typeName type)))

def openCall (function : FunctionId) (name : Token) : Parser Unit := do
  let _ ← expect "("
  let callee := (← program).function function
  if callee.isEntryPoint then
    throw (.typingAt name.span (.entryPointCalled callee.name))

/-! ## Reading expressions -/

mutual

/-- Read an expression whose operators outside of parentheses have at least the given precedence. -/
def expressionWithin : Nat → Nat → Parser ExprId
  | 0, _ => exhausted
  | depth + 1, level => do
    let left ← operandWithin depth
    operatorsWithin depth level left

/-- Read the operators of a level that follow an operand, with their right operands. -/
def operatorsWithin : Nat → Nat → ExprId → Parser ExprId
  | 0, _, _ => exhausted
  | depth + 1, level, left => do
    let token ← peek
    if token.kind ≠ .punctuator then
      return left
    else if token.text = "?" then
      if ternaryPrecedence < level then
        return left
      else
        let _ ← advance
        let onTrue ← expressionWithin depth 0
        let colon ← peek
        unless ← eat ":" do
          throw (.grammarAt colon.span (.expected ":"))
        let onFalse ← expressionWithin depth ternaryPrecedence
        let ternary ← makeTernary left onTrue onFalse
        operatorsWithin depth level ternary
    else
      match BinaryOp.ofToken? token.text with
      | none => return left
      | some op =>
        if op.precedence < level then
          return left
        else
          let _ ← advance
          let right ← expressionWithin depth op.rightPrecedence
          let binary ← makeBinary op token.span left right
          operatorsWithin depth level binary

def operandWithin : Nat → Parser ExprId
  | 0 => exhausted
  | depth + 1 => do
    let token ← peek
    match token.kind with
    | .float | .integer =>
      let _ ← advance
      let number ← makeNumber token
      trailingWithin depth number
    | .identifier =>
      let named ← namedWithin depth token
      trailingWithin depth named
    | .punctuator =>
      match UnaryOp.ofLeadingToken? token.text with
      | some op =>
        let _ ← advance
        let operand ← expressionWithin depth leadingPrecedence
        makeLeading op token.span operand
      | none =>
        if token.text = "(" then
          let _ ← advance
          let inner ← expressionWithin depth 0
          unless ← eat ")" do
            throw (.grammarAt token.span .expectedClosingParenthesis)
          trailingWithin depth inner
        else
          throw (.grammarAt token.span (.expectedExpression token.text))
    | _ => throw (.grammarAt token.span (.expectedExpression token.text))

def namedWithin : Nat → Token → Parser ExprId
  | 0, _ => exhausted
  | depth + 1, name => do
    if name.text = "true" ∨ name.text = "false" then
      let _ ← advance
      makeExpr ⟨.literal (.bool (name.text = "true")), .bool, false, name.span⟩
    else
      let symbol ← resolve name
      let _ ← advance
      match symbol with
      | .type type =>
        openStructInit type name
        let (arguments, closeSpan) ← argumentsWithin depth true
        makeStructInit type name arguments closeSpan
      | .function function =>
        openCall function name
        let (arguments, closeSpan) ← argumentsWithin depth true
        makeCall function name arguments closeSpan
      | .var var =>
        let program ← program
        makeExpr ⟨.var var, (program.var var).type, true, name.span⟩

/-- Read arguments up to the closing parenthesis; every one but the first follows a comma. -/
def argumentsWithin : Nat → Bool → Parser (List ExprId × Span)
  | 0, _ => exhausted
  | depth + 1, isFirst => do
    let token ← peek
    if ← eat ")" then
      return ([], token.span)
    else if token.kind = .endOfInput then
      throw (.grammarAt token.span .expectedClosingParenthesis)
    else
      unless isFirst do
        unless ← eat "," do
          throw (.grammarAt token.span .expectedComma)
      let argument ← expressionWithin depth assignmentPrecedence
      let (rest, closeSpan) ← argumentsWithin depth false
      return (argument :: rest, closeSpan)

/-- Read the trailing operators, members and subscripts that follow an operand. -/
def trailingWithin : Nat → ExprId → Parser ExprId
  | 0, _ => exhausted
  | depth + 1, left => do
    let token ← peek
    if token.kind ≠ .punctuator then
      return left
    else
      match UnaryOp.ofTrailingToken? token.text with
      | some op =>
        let _ ← advance
        let stepped ← makeTrailing op token.span left
        trailingWithin depth stepped
      | none =>
        if token.text = "." then
          let _ ← advance
          let selected ← memberAccess left token.span
          trailingWithin depth selected
        else if token.text = "[" then
          let _ ← advance
          let element ← accept (typeOfIndex (← program) token.span ((← program).expr left))
          let position ← expressionWithin depth 0
          let program ← program
          accept (checkIndex program token.span (program.expr position))
          let closeSpan ← expectClosingBracket
          let indexed ← makeExpr
            ⟨.index left position, element, true, (program.expr left).span.cover closeSpan⟩
          trailingWithin depth indexed
        else
          return left

end

/-- Read an expression whose operators outside of parentheses have at least the given precedence. -/
def expression (level : Nat) : Parser ExprId := do
  expressionWithin (← depthLimit) level

end Parser

end Shader
