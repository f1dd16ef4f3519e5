import Shader.Program.Intrinsics
import Shader.Token.Lexer
import Shader.Typing

/-! # Parsing: state and steps

A parser reads a token stream and builds a program. It fails with a diagnostic, and what it built up
to then stays in its state. -/

namespace Shader

attribute [local instance (2000)] Zero.ofOfNat0

/-! ## Token streams -/

namespace TokenStream

def front (stream : TokenStream) : Except Diagnostic Token :=
  match stream.tokens with
  | token :: _ => .ok token
  | [] => stream.ending

def dropFront (stream : TokenStream) : TokenStream :=
  { stream with tokens := stream.tokens.drop 1 }

def replaceFront (stream : TokenStream) (token : Token) : TokenStream :=
  { stream with tokens := token :: stream.tokens.drop 1 }

/-- How often a token can be read: two closing brackets are read together or one by one. -/
def tokenWeight (token : Token) : Nat :=
  if token.kind = .attributeClose then 2 else 1

def weight (stream : TokenStream) : Nat :=
  (stream.tokens.map tokenWeight).sum

end TokenStream

/-! ## Names -/

inductive Symbol where
  | type (type : TypeId)
  | var (var : VarId)
  | function (function : FunctionId)
  deriving DecidableEq, Repr

structure ScopeEntry where
  symbol : Symbol
  span : Option Span
  deriving DecidableEq, Repr

abbrev Scope := Table String ScopeEntry

structure Scopes where
  blocks : List Scope := []
  globals : Scope := {}
  deriving Inhabited

namespace Scopes

def lookup? (scopes : Scopes) (name : String) : Option ScopeEntry :=
  match scopes.blocks.findSome? fun scope => scope.find? name with
  | some entry => some entry
  | none => scopes.globals.find? name

def innermost (scopes : Scopes) : Scope :=
  scopes.blocks.headD scopes.globals

def bindInnermost (scopes : Scopes) (name : String) (entry : ScopeEntry) : Scopes :=
  match scopes.blocks with
  | [] => { scopes with globals := scopes.globals.insert name entry }
  | scope :: outer => { scopes with blocks := scope.insert name entry :: outer }

def bindGlobal (scopes : Scopes) (name : String) (entry : ScopeEntry) : Scopes :=
  { scopes with globals := scopes.globals.insert name entry }

def push (scopes : Scopes) : Scopes :=
  { scopes with blocks := {} :: scopes.blocks }

def pop (scopes : Scopes) : Scopes :=
  { scopes with blocks := scopes.blocks.drop 1 }

def initial : Scopes :=
  let types := builtinTypes.zipIdx.map fun (node, index) => (node.name, Symbol.type ⟨index⟩)
  let functions := intrinsicSignatures.zipIdx.map fun (signature, index) =>
    (signature.name, Symbol.function ⟨index⟩)
  (types ++ functions).foldl (fun scopes (name, symbol) => scopes.bindGlobal name ⟨symbol, none⟩) {}

end Scopes

def typeAlias (name : String) : String :=
  match name with
  | "float" => "f32"
  | "double" => "f64"
  | "int" => "s32"
  | other => other

def Scopes.findType? (scopes : Scopes) (name : String) : Option TypeId :=
  match scopes.lookup? (typeAlias name) with
  | some ⟨.type type, _⟩ => some type
  | _ => none

/-! ## Parsers -/

structure ParserState where
  stream : TokenStream
  previousEnd : Nat := 0
  program : Program := .withIntrinsics
  scopes : Scopes := .initial
  returnType : Option TypeId := none
  deriving Inhabited

abbrev Parser := EStateM Diagnostic ParserState

namespace Parser

def accept {α : Type} : Except Diagnostic α → Parser α
  | .ok value => pure value
  | .error diagnostic => throw diagnostic

def exhausted {α : Type} : Parser α :=
  throw ⟨.exhausted, [], []⟩

def program : Parser Program := do
  return (← get).program

def modifyProgram (change : Program → Program) : Parser Unit :=
  modify fun state => { state with program := change state.program }

def modifyScopes (change : Scopes → Scopes) : Parser Unit :=
  modify fun state => { state with scopes := change state.scopes }

/-! ### Tokens -/

def peek : Parser Token := do
  accept (← get).stream.front

def advance : Parser Token := do
  let token ← peek
  modify fun state =>
    { state with stream := state.stream.dropFront, previousEnd := token.span.stop }
  return token

def nextIs (text : String) : Parser Bool := do
  return (← peek).spells text

def eat (text : String) : Parser Bool := do
  if ← nextIs text then
    let _ ← advance
    return true
  else
    return false

def expect (text : String) : Parser Token := do
  let token ← peek
  if token.spells text then advance
  else throw (.grammarAt token.span (.expected text))

def expectIdentifier : Parser Token := do
  let token ← peek
  if token.kind = .identifier then advance
  else throw (.grammarAt token.span (.expectedIdentifier token.text))

/-- Read a closing bracket. Two closing brackets in one token are read one by one. -/
def expectClosingBracket : Parser Span := do
  let token ← peek
  if token.isMark "]" then
    return (← advance).span
  else if token.kind = .attributeClose then
    let first : Span := ⟨token.span.start, token.span.start + 1⟩
    let second : Token := ⟨.punctuator, "]", ⟨first.stop, token.span.stop⟩⟩
    modify fun state =>
      { state with stream := state.stream.replaceFront second, previousEnd := first.stop }
    return first
  else
    throw (.grammarAt token.span .expectedClosingBracket)

/-! ### Repetition -/

/-- Repeat a step on a value until it gives a result, for at most a number of rounds. -/
def repeatWithin {σ α : Type} (step : σ → Parser (σ ⊕ α)) : Nat → σ → Parser α
  | 0, _ => exhausted
  | rounds + 1, value => do
    match ← step value with
    | .inl next => repeatWithin step rounds next
    | .inr result => return result

/-- Repeat a step on a value until it gives a result. Each round but the last reads a token. -/
def repeatFrom {σ α : Type} (start : σ) (step : σ → Parser (σ ⊕ α)) : Parser α := do
  let state ← get
  repeatWithin step (state.stream.weight + 1) start

/-- How deep a recursion can go before all tokens are read: there are fewer than eight calls between
two tokens. -/
def depthLimit : Parser Nat := do
  return 8 * (← get).stream.weight + 8

/-! ### Names -/

def declareGlobal (name : String) (symbol : Symbol) (span : Span) : Parser Unit := do
  match (← get).scopes.lookup? name with
  | some previous =>
    throw (.typingWith (Site.red span :: (previous.span.map Site.green).toList) (.duplicateGlobal name))
  | none => modifyScopes fun scopes => scopes.bindGlobal name ⟨symbol, some span⟩

def declareLocal (name : String) (symbol : Symbol) (span : Span) : Parser Unit := do
  match (← get).scopes.innermost.find? name with
  | some previous =>
    throw (.clash (previous.span.getD {}) span (.alreadyDeclared name))
  | none => modifyScopes fun scopes => scopes.bindInnermost name ⟨symbol, some span⟩

/-! ### Nodes -/

def makeExpr (expr : Expr) : Parser ExprId := do
  let program ← program
  modifyProgram fun program => { program with exprs := program.exprs.append expr }
  return program.exprs.next

def makeStmt (stmt : Stmt) : Parser StmtId := do
  let program ← program
  modifyProgram fun program => { program with stmts := program.stmts.append stmt }
  return program.stmts.next

def makeVariable (var : Variable) : Parser VarId := do
  let program ← program
  modifyProgram fun program => program.addVariable var
  return program.vars.next

def makeFunction (function : Function) : Parser FunctionId := do
  let program ← program
  modifyProgram fun program => program.addFunction function
  return program.functions.next

def makeType (type : TypeNode) : Parser TypeId := do
  let program ← program
  modifyProgram fun program => { program with types := program.types.append type }
  return program.types.next

def pointerTo (pointee : TypeId) (storage : StorageClass) : Parser TypeId := do
  let (type, program) := (← program).pointerTo pointee storage
  modifyProgram fun _ => program
  return type

end Parser

end Shader
