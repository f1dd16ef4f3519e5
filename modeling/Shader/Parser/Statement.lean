import Shader.Parser.EntryPoint

/-! # Parsing statements

Statements are read by their first token: a brace opens a block, a keyword a branch, loop or return, a
type a declaration, and anything else is an expression. Each block has a scope of its own; the body of
a branch or loop is a block even when it is written as a single statement. -/

namespace Shader

/-- A type with stars, before its attributes give a storage class. -/
structure StarredType where
  base : TypeId
  stars : Nat
  span : Span
  deriving DecidableEq, Repr

/-- The storage class of a pointer, which exactly one uniform attribute gives. `found` says whether
one stands in front of these. -/
def storageClass (span : Span) (found : Option StorageClass) :
    List Attribute → Except Diagnostic StorageClass
  | [] =>
    match found with
    | some storage => .ok storage
    | none => .error (.typingAt span .storageClassMissing)
  | attr :: rest =>
    match attr.kind.vkUniform?, found with
    | some _, some _ => .error (.typingAt span .storageClassRepeated)
    | some _, none => storageClass span (some .uniform) rest
    | none, _ => storageClass span found rest

namespace Parser

/-! ## Types and variables -/

def starRound (base : TypeId) (starred : StarredType) : Parser (StarredType ⊕ StarredType) := do
  if ← nextIs "*" then
    let star ← advance
    return .inl ⟨base, starred.stars + 1, starred.span.cover star.span⟩
  else
    return .inr starred

def typeName : Parser StarredType := do
  let token ← peek
  let scopes := (← get).scopes
  match if token.kind = .identifier then scopes.findType? token.text else none with
  | none => throw (.typingAt token.span .unknownType)
  | some base =>
    let _ ← advance
    repeatFrom (StarredType.mk base 0 token.span) (starRound base)

def starType (storage : StorageClass) : Nat → TypeId → Parser TypeId
  | 0, type => return type
  | stars + 1, type => do
    let pointer ← pointerTo type storage
    starType storage stars pointer

def finishType (starred : StarredType) (attributes : List Attribute) : Parser TypeId := do
  if starred.stars = 0 then
    return starred.base
  else
    let storage ← accept (storageClass starred.span none attributes)
    starType storage starred.stars starred.base

def nameRound (names : List Token) : Parser (List Token ⊕ List Token) := do
  if ← eat "," then
    let name ← expectIdentifier
    return .inl (names ++ [name])
  else
    return .inr names

def moreNames (first : Token) : Parser (List Token) :=
  repeatFrom [first] nameRound

def initialValue (type : TypeId) : Parser (Option ExprId) := do
  if ← eat "=" then
    let init ← expression 0
    let program ← program
    accept (checkInit program type (program.expr init))
    return some init
  else
    return none

def declareVariables (type : TypeId) (kind : VariableKind) (init : Option ExprId) :
    List Token → Parser (List VarId)
  | [] => return []
  | name :: rest => do
    let var ← makeVariable { name := name.text, type, kind, init, span := name.span }
    if kind = .global then declareGlobal name.text (.var var) name.span
    else declareLocal name.text (.var var) name.span
    let vars ← declareVariables type kind init rest
    return var :: vars

def variableDeclaration (starred : StarredType) (first : Token) (kind : VariableKind) :
    Parser StmtId := do
  let attributes ← attributes
  let type ← finishType starred attributes
  if let attr :: _ := attributes then
    throw (.typingAt attr.span (if kind = .global then .attributedGlobal else .attributedLocal))
  if type = .void then
    throw (.typingAt starred.span .voidVariable)
  let names ← moreNames first
  let init ← initialValue type
  let semicolon ← peek
  unless ← eat ";" do
    throw (.grammarAt semicolon.span .expectedCommaOrSemicolon)
  let vars ← declareVariables type kind init names
  makeStmt ⟨.varDecl vars init, starred.span.cover semicolon.span⟩

/-! ## Statements -/

def inScope {α : Type} (step : Parser α) : Parser α := do
  modifyScopes Scopes.push
  let result ← step
  modifyScopes Scopes.pop
  return result

def condition : Parser ExprId := do
  let condition ← expression 0
  let program ← program
  accept (checkCondition program (program.expr condition))
  return condition

/-- Read an optional part of a loop header, which is missing when the given token comes next. -/
def optionalPart (close : String) (part : Parser ExprId) : Parser (Option ExprId) := do
  if ← nextIs close then
    return none
  else
    let expr ← part
    return some expr

def returnStatement (keyword : Token) : Parser StmtId := do
  match (← get).returnType with
  | none => throw (.grammarAt keyword.span .returnOutsideFunction)
  | some returnType =>
    let value ←
      if returnType = .void then pure none
      else
        let value ← expression 0
        let program ← program
        accept (checkReturn program returnType (program.expr value))
        pure (some value)
    let semicolon ← expect ";"
    makeStmt ⟨.returnStmt value, keyword.span.cover semicolon.span⟩

def expressionStatement : Parser StmtId := do
  let expr ← expression 0
  let semicolon ← expect ";"
  let span := ((← program).expr expr).span
  makeStmt ⟨.expr expr, span.cover semicolon.span⟩

def localDeclaration : Parser StmtId := do
  let starred ← typeName
  let name ← expectIdentifier
  variableDeclaration starred name .localVar

mutual

def statementWithin : Nat → Parser StmtId
  | 0 => exhausted
  | depth + 1 => do
    let token ← peek
    if token.isMark "\x7b" then
      blockWithin depth
    else if token.isMark ";" then
      let _ ← advance
      makeStmt ⟨.block [], token.span⟩
    else if token.isWord "if" then
      let _ ← advance
      ifWithin depth token
    else if token.isWord "for" then
      let _ ← advance
      forWithin depth token
    else if token.isWord "return" then
      let _ ← advance
      returnStatement token
    else if token.kind = .identifier ∧ ((← get).scopes.findType? token.text).isSome then
      localDeclaration
    else
      expressionStatement

def blockWithin : Nat → Parser StmtId
  | 0 => exhausted
  | depth + 1 => do
    let brace ← expect "\x7b"
    let (stmts, close) ← inScope (statementsWithin depth)
    makeStmt ⟨.block stmts, brace.span.cover close⟩

def statementsWithin : Nat → Parser (List StmtId × Span)
  | 0 => exhausted
  | depth + 1 => do
    let token ← peek
    if ← eat "\x7d" then
      return ([], token.span)
    else if token.kind = .endOfInput then
      throw (.grammarAt token.span (.expected "\x7d"))
    else
      let stmt ← statementWithin depth
      let (rest, close) ← statementsWithin depth
      return (stmt :: rest, close)

/-- Read the body of a branch or loop: a block, or one statement that becomes a block. -/
def bodyWithin : Nat → Parser StmtId
  | 0 => exhausted
  | depth + 1 => do
    if ← nextIs "\x7b" then
      blockWithin depth
    else
      let stmt ← inScope (statementWithin depth)
      let span := ((← program).stmt stmt).span
      makeStmt ⟨.block [stmt], span⟩

def ifWithin : Nat → Token → Parser StmtId
  | 0, _ => exhausted
  | depth + 1, keyword => do
    let _ ← expect "("
    let condition ← condition
    let _ ← expect ")"
    let onTrue ← bodyWithin depth
    let onFalse ←
      if ← eat "else" then
        let token ← peek
        if ← eat "if" then
          let branch ← ifWithin depth token
          pure (some branch)
        else
          let body ← bodyWithin depth
          pure (some body)
      else pure none
    let stop := (← get).previousEnd
    makeStmt ⟨.ifElse condition onTrue onFalse, ⟨keyword.span.start, stop⟩⟩

def forWithin : Nat → Token → Parser StmtId
  | 0, _ => exhausted
  | depth + 1, keyword => do
    let _ ← expect "("
    let init ← optionalPart ";" (expression 0)
    let _ ← expect ";"
    let condition ← optionalPart ";" condition
    let _ ← expect ";"
    let step ← optionalPart ")" (expression 0)
    let _ ← expect ")"
    let body ← bodyWithin depth
    let stop := (← get).previousEnd
    makeStmt ⟨.forLoop init condition step body, ⟨keyword.span.start, stop⟩⟩

end

def block : Parser StmtId := do
  blockWithin (← depthLimit)

end Parser

end Shader
