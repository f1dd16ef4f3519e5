import Shader.Parser.Statement

/-! # Parsing declarations

The top level of a source: structs, functions and global variables. A function is added to the program
once its body is read, so that it can only call functions above it. -/

namespace Shader

def checkReturns (program : Program) (function : Function) (body : StmtId) :
    Except Diagnostic Unit :=
  let stmt := program.stmt body
  let last :=
    match stmt.kind with
    | .block stmts => stmts.getLast?
    | _ => some body
  let returns :=
    match last.map fun stmt => (program.stmt stmt).kind with
    | some (.returnStmt _) => true
    | _ => false
  if function.returnType == .void || returns then .ok ()
  else .error (.typingAt ⟨stmt.span.stop - 1, stmt.span.stop⟩ .returnMissing)

/-- The attributes of a member, with those marked that say what it is. A struct has at most one
position, which is a vector of four; `position` says whether there is one in front of these. -/
def memberAttributes (type : TypeId) (position : Bool) :
    List Attribute → Except Diagnostic (List Attribute × Bool)
  | [] => .ok ([], position)
  | attr :: rest =>
    match attr.kind with
    | .position =>
      if position then .error (.typingAt attr.span .positionRepeated)
      else if type != .float4 then .error (.typingAt attr.span .positionNotFloat4)
      else do
        let (marked, position) ← memberAttributes type true rest
        return ({ attr with used := true } :: marked, position)
    | .color _ => do
      let (marked, position) ← memberAttributes type position rest
      return ({ attr with used := true } :: marked, position)
    | _ => do
      let (marked, position) ← memberAttributes type position rest
      return (attr :: marked, position)

namespace Parser

/-! ## Structs -/

/-- The members of a struct so far, and whether one of them is the position. -/
structure StructSoFar where
  members : List Member := []
  position : Bool := false

def member (found : StructSoFar) : Parser StructSoFar := do
  let starred ← typeName
  let name ← expectIdentifier
  let init ←
    if ← eat "=" then
      let init ← expression 0
      pure (some init)
    else pure none
  let attributes ← attributes
  let type ← finishType starred attributes
  let _ ← expect ";"
  let program ← program
  if let some init := init then
    accept (checkInit program type (program.expr init))
  if let some previous := found.members.find? fun member => member.name == name.text then
    throw (.clash previous.span name.span (.duplicateMember name.text))
  let previousEnd := (← get).previousEnd
  let stop :=
    match attributes.getLast? with
    | some attr => attr.span.stop
    | none => previousEnd
  let (marked, position) ← accept (memberAttributes type found.position attributes)
  accept (checkUsed marked)
  let member : Member :=
    { name := name.text, type, init, attributes := marked, span := ⟨starred.span.start, stop⟩ }
  return ⟨found.members ++ [member], position⟩

def memberRound (found : StructSoFar) : Parser (StructSoFar ⊕ List Member × Span) := do
  let token ← peek
  if ← eat "\x7d" then
    return .inr (found.members, token.span)
  else
    let found ← member found
    return .inl found

def structDeclaration (keyword : Token) : Parser TypeId := do
  let name ← expectIdentifier
  let _ ← expect "\x7b"
  let (members, close) ← repeatFrom {} memberRound
  let type ← makeType
    ⟨name.text, .struct members none, some (keyword.span.cover close)⟩
  declareGlobal name.text (.type type) name.span
  return type

/-! ## Functions -/

def argumentDeclaration (position : Nat) : Parser VarId := do
  let start := (← peek).span.start
  let starred ← typeName
  let name ← expectIdentifier
  let attributes ← attributes
  let type ← finishType starred attributes
  if type = .void then
    throw (.typingAt starred.span .voidArgument)
  let stop :=
    match attributes.getLast? with
    | some attr => attr.span.stop
    | none => name.span.stop
  makeVariable
    { name := name.text, type, kind := .argument position, attributes, span := ⟨start, stop⟩ }

/-- Read one more argument of a function header, or the parenthesis that closes it. -/
def argumentRound (found : List VarId) : Parser (List VarId ⊕ List VarId) := do
  let token ← peek
  if token.isMark ")" then
    let _ ← advance
    return .inr found
  else
    unless found.isEmpty do
      unless ← eat "," do
        throw (.grammarAt token.span .expectedComma)
    let argument ← argumentDeclaration found.length
    return .inl (found ++ [argument])

def argumentDeclarations : Parser (List VarId) :=
  repeatFrom [] argumentRound

def declareArguments : List VarId → Parser Unit
  | [] => return ()
  | argument :: rest => do
    let var := (← program).var argument
    declareLocal var.name (.var argument) var.span
    declareArguments rest

def functionBody (function : Function) : Parser StmtId :=
  inScope do
    declareArguments function.arguments
    modify fun state => { state with returnType := some function.returnType }
    let body ← block
    modify fun state => { state with returnType := none }
    return body

/-- Read a function header behind the name, with the parenthesis that opens its arguments. -/
def functionHeader (starred : StarredType) (functionAttributes : List Attribute) (start : Nat)
    (name : Token) : Parser Function := do
  let _ ← advance
  let arguments ← argumentDeclarations
  let returnAttributes ← attributes
  let returnType ← finishType starred returnAttributes
  accept (checkUsed returnAttributes)
  let kind ← accept (functionKind none functionAttributes)
  let marked := markUsed functionAttributes fun kind => kind.stage?.isSome
  let span : Span := ⟨start, (← get).previousEnd⟩
  let function : Function :=
    { name := name.text, returnType, arguments, kind, attributes := marked, span }
  accept (checkResult (← program) function)
  let bound ← bindArguments function arguments
  accept (checkUsed marked)
  return bound

/-- Read the body behind a function header, in front of which a token stands. -/
def functionDefinition (header : Function) (start : Nat) (token : Token) : Parser Function := do
  if ← nextIs "\x7b" then
    let body ← functionBody header
    let program ← program
    accept (checkReturns program header body)
    return { header with
      body := some body
      span := ⟨start, (program.stmt body).span.stop⟩ }
  else
    throw (.grammarAt token.span .expectedFunctionBody)

def functionDeclaration (starred : StarredType) (functionAttributes : List Attribute)
    (start : Nat) (name : Token) : Parser FunctionId := do
  let header ← functionHeader starred functionAttributes start name
  let token ← peek
  let function ←
    if ← eat ";" then
      pure { header with span := ⟨start, token.span.stop⟩ }
    else
      functionDefinition header start token
  let id ← makeFunction function
  declareGlobal name.text (.function id) name.span
  return id

/-! ## The top level -/

def addDeclaration (declaration : Declaration) : Parser Unit :=
  modifyProgram fun program =>
    { program with declarations := program.declarations ++ [declaration] }

def startsGlobals (token : Token) : Bool :=
  token.kind == .attributeOpen || token.isMark "," || token.isMark ";" || token.isMark "="

def declaration : Parser Unit := do
  if ← eat ";" then
    return ()
  else
    let attributes ← attributes
    let start ← peek
    if start.spells "struct" then
      let _ ← advance
      let type ← structDeclaration start
      accept (checkUsed attributes)
      addDeclaration (.struct type)
    else
      let starred ← typeName
      let name ← expectIdentifier
      let token ← peek
      if token.isMark "(" then
        let function ← functionDeclaration starred attributes start.span.start name
        addDeclaration (.function function)
      else if startsGlobals token then
        let stmt ← variableDeclaration starred name .global
        accept (checkUsed attributes)
        addDeclaration (.globals stmt)
      else
        throw (.grammarAt token.span .expectedDeclarator)

def declarationRound (_ : Unit) : Parser (Unit ⊕ Unit) := do
  let token ← peek
  if token.kind = .endOfInput then
    return .inr ()
  else
    declaration
    return .inl ()

def declarations : Parser Unit :=
  repeatFrom () declarationRound

end Parser

def ParserState.ofSource (source : String) : ParserState :=
  { stream := (Lexer.ofSource source).stream }

def parsePartial (source : String) : Program × Option Diagnostic :=
  match Parser.declarations.run (.ofSource source) with
  | .ok _ state => (state.program, none)
  | .error diagnostic state => (state.program, some diagnostic)

def parse (source : String) : Except Diagnostic Program :=
  match parsePartial source with
  | (program, none) => .ok program
  | (_, some diagnostic) => .error diagnostic

end Shader
