import Shader.Graph.Variables

/-! # Lowering functions

The graph of a function follows its body statement by statement. Renamed variables become values;
everything else is read and changed in memory. Every branching construct gets blocks of its own, which
are sealed as soon as all jumps to them are made.

No expression or statement is nested deeper than there are expressions or statements. An expression
that is read from a location is visited twice, once as an expression and once as a location. -/

namespace Shader

/-! ## Places -/

inductive PlaceRoot where
  | renamed (var : VarId) (value : ValueId)
  | memory (pointer : ValueId)
  deriving DecidableEq, Repr

structure Place where
  root : PlaceRoot
  path : List ValueId := []
  deriving DecidableEq, Repr

def Place.extend (place : Place) (step : ValueId) : Place :=
  { place with path := place.path ++ [step] }

def BinaryOp.opcode? : BinaryOp → Option Opcode
  | .add => some .add
  | .sub => some .sub
  | .mul => some .mul
  | .div => some .div
  | .rem => some .rem
  | .bitAnd => some .bitAnd
  | .bitOr => some .bitOr
  | .bitXor => some .bitXor
  | .shl => some .shl
  | .shr => some .shr
  | .logicalAnd => some .logicalAnd
  | .logicalOr => some .logicalOr
  | .equal => some .equal
  | .notEqual => some .notEqual
  | .less => some .less
  | .lessEqual => some .lessEqual
  | .greater => some .greater
  | .greaterEqual => some .greaterEqual
  | _ => none

def Program.one (program : Program) (type : TypeId) : Literal :=
  match program.primitive? type with
  | some (.float 64) => .double 0x3FF0000000000000
  | some (.float _) => .single 0x3F800000
  | _ => .int 1

namespace Build

def literal (value : Literal) (type : TypeId) : Build ValueId :=
  emit { opcode := .const, payload := .literal value, type := some type }

def memberMarker (index : Nat) : Build ValueId :=
  emit { opcode := .memberAccess, payload := .member index }

def swizzleMarker (components : List Nat) : Build ValueId :=
  emit { opcode := .swizzleIndices, payload := .components components }

def elementPointer (pointer : ValueId) (path : List ValueId) (type : TypeId) : Build ValueId := do
  if path.isEmpty then return pointer
  else emit { opcode := .elementPtr, args := pointer :: path, type := some type }

def loadPlace (place : Place) (type : TypeId) : Build ValueId := do
  match place.root with
  | .renamed _ value =>
    if place.path.isEmpty then return value
    else emit { opcode := .extractValue, args := value :: place.path, type := some type }
  | .memory pointer =>
    let element ← elementPointer pointer place.path type
    emit { opcode := .load, args := [element], type := some type }

def storePlace (place : Place) (value : ValueId) (type : TypeId) : Build Unit := do
  match place.root with
  | .renamed var whole =>
    let changed ←
      if place.path.isEmpty then pure value
      else
        emit
          { opcode := .insertValue
            args := whole :: value :: place.path
            type := ((← get).value whole).type }
    writeVar (← get).current var changed
  | .memory pointer =>
    let element ← elementPointer pointer place.path type
    let _ ← emit { opcode := .store, args := [element, value] }

/-- A value as a vector, when a vector is asked for: a scalar goes to all components. -/
def asVector (program : Program) (value : ValueId) (target : TypeId) : Build ValueId := do
  let type := ((← get).value value).type
  if !program.isVector target || type == some target then return value
  else emit { opcode := .splat, args := [value], type := some target }

/-- Compute a binary operator. A vector is multiplied by a scalar directly; for all other operators
the scalar goes to all components first. -/
def arithmetic (program : Program) (op : BinaryOp) (left right : ValueId) (type : TypeId) :
    Build ValueId := do
  match op.opcode? with
  | none => refuse ⟨.lowering (.operatorUnsupported op.token), [], []⟩
  | some opcode =>
    let right ←
      match ((← get).value left).type with
      | some target => if opcode = .mul then pure right else asVector program right target
      | none => pure right
    emit { opcode, args := [left, right], type := some type }

def variablePlace (program : Program) (var : VarId) (span : Span) : Build Place := do
  let node := program.var var
  if node.kind = .global then
    let pointer ← emit { opcode := .globalVar, payload := .var var, type := some node.type }
    return { root := .memory pointer }
  else if Graph.isRenamed program var then
    let value ← readVar program (← get).current var
    return { root := .renamed var value }
  else
    match (← get).slot? var with
    | some pointer => return { root := .memory pointer }
    | none => refuse (.loweringAt span (.storageMissing node.name))

/-- Add or subtract one at a location. The result is the old or the new content. -/
def stepPlace (program : Program) (op : UnaryOp) (place : Place) (type : TypeId) :
    Build ValueId := do
  let old ← loadPlace place type
  let one ← literal (program.one type) type
  let opcode := if op = .preIncrement ∨ op = .postIncrement then .add else .sub
  let new ← emit { opcode, args := [old, one], type := some type }
  storePlace place new type
  return if op.isTrailing then old else new

/-- Make the two arms of a choice. Both of them end in the block where they come together. -/
def chooseWith (program : Program) (condition : ValueId) (onTrue onFalse : Build ValueId)
    (type : TypeId) : Build ValueId := do
  let construct ← nextConstruct
  let trueBlock ← newBlock construct "ternary_then"
  let falseBlock ← newBlock construct "ternary_else"
  let after ← newBlock construct "ternary_after"
  let head := (← get).current
  setMerge head (.selection after)
  let _ ← condJump head condition trueBlock falseBlock
  sealBlock program trueBlock
  sealBlock program falseBlock
  setCurrent trueBlock
  let trueValue ← onTrue
  let _ ← jump (← get).current after
  setCurrent falseBlock
  let falseValue ← onFalse
  let _ ← jump (← get).current after
  sealBlock program after
  setCurrent after
  let phi ← makeValue after { opcode := .phi, args := [trueValue, falseValue], type := some type }
  removePhi phi

def storeMember (value : Build ValueId) (slot : ValueId) (index : Nat) (type : TypeId) :
    Build Unit := do
  let value ← value
  let marker ← memberMarker index
  let pointer ← emit { opcode := .elementPtr, args := [slot, marker], type := some type }
  let _ ← emit { opcode := .store, args := [pointer, value] }

/-! ## Expressions -/

mutual

def exprWithin (program : Program) : Nat → ExprId → Build ValueId
  | 0, _ => fail .exhausted
  | depth + 1, id => do
    let expr := program.expr id
    match expr.kind with
    | .literal value => literal value expr.type
    | .var _ | .deref _ | .index _ _ =>
      let place ← placeWithin program depth id
      loadPlace place expr.type
    | .member base index =>
      if expr.isLvalue then
        let place ← placeWithin program depth id
        loadPlace place expr.type
      else
        let base ← baseWithin program depth base
        let marker ← memberMarker index
        emit { opcode := .extractValue, args := [base, marker], type := some expr.type }
    | .swizzle base components =>
      if expr.isLvalue then
        let place ← placeWithin program depth id
        loadPlace place expr.type
      else
        let base ← baseWithin program depth base
        let marker ← swizzleMarker components
        emit { opcode := .swizzleExpr, args := [base, marker], type := some expr.type }
    | .binary op _ left right => binaryWithin program depth op left right expr.type
    | .unary op operand => unaryWithin program depth op operand expr
    | .ternary condition onTrue onFalse =>
      let condition ← exprWithin program depth condition
      chooseWith program condition (exprWithin program depth onTrue)
        (exprWithin program depth onFalse) expr.type
    | .call function arguments =>
      let args ← arguments.mapM (exprWithin program depth)
      emit { opcode := .call, args, payload := .function function, type := some expr.type }
    | .structInit type arguments =>
      let slot ← emit { opcode := .alloca, type := some type }
      let members := arguments.zip (program.members type)
      members.zipIdx.forM fun ((argument, member), index) =>
        storeMember (exprWithin program depth argument) slot index member.type
      emit { opcode := .load, args := [slot], type := some type }

/-- Make the aggregate that a part is read from, which a pointer is followed to. -/
def baseWithin (program : Program) : Nat → ExprId → Build ValueId
  | 0, _ => fail .exhausted
  | depth + 1, base => do
    let value ← exprWithin program depth base
    match program.pointee? (program.expr base).type with
    | some pointee => emit { opcode := .load, args := [value], type := some pointee }
    | none => return value

def placeWithin (program : Program) : Nat → ExprId → Build Place
  | 0, _ => fail .exhausted
  | depth + 1, id => do
    let expr := program.expr id
    match expr.kind with
    | .var var => variablePlace program var expr.span
    | .deref pointer =>
      let value ← exprWithin program depth pointer
      return { root := .memory value }
    | .member base index =>
      let place ← rootWithin program depth base
      let marker ← memberMarker index
      return place.extend marker
    | .swizzle base components =>
      let place ← rootWithin program depth base
      let marker ← swizzleMarker components
      return place.extend marker
    | .index base position =>
      let pointer ← exprWithin program depth base
      let position ← exprWithin program depth position
      return { root := .memory pointer, path := [position] }
    | _ => refuse (.loweringAt expr.span .targetInvalid)

/-- Find the location that a path goes on from. A pointer is followed by an index of zero. -/
def rootWithin (program : Program) : Nat → ExprId → Build Place
  | 0, _ => fail .exhausted
  | depth + 1, base => do
    if program.isPointer (program.expr base).type then
      let pointer ← exprWithin program depth base
      let zero ← literal (.int 0) .s32
      return { root := .memory pointer, path := [zero] }
    else
      placeWithin program depth base

/-- Make the value of a binary operator. An assignment finds its location behind its value; a compound
one reads its location first. -/
def binaryWithin (program : Program) : Nat → BinaryOp → ExprId → ExprId → TypeId → Build ValueId
  | 0, _, _, _, _ => fail .exhausted
  | depth + 1, op, left, right, type => do
    let leftType := (program.expr left).type
    if op = .comma then
      let _ ← exprWithin program depth left
      exprWithin program depth right
    else if op = .assign then
      let value ← exprWithin program depth right
      let value ← asVector program value leftType
      let place ← placeWithin program depth left
      storePlace place value leftType
      return value
    else if op.isAssignment then
      let place ← placeWithin program depth left
      let old ← loadPlace place leftType
      let operand ← exprWithin program depth right
      let value ← arithmetic program op.base old operand leftType
      storePlace place value leftType
      return value
    else
      let left ← exprWithin program depth left
      let right ← exprWithin program depth right
      arithmetic program op left right type

def unaryWithin (program : Program) : Nat → UnaryOp → ExprId → Expr → Build ValueId
  | 0, _, _, _ => fail .exhausted
  | depth + 1, op, operand, expr => do
    let compute (opcode : Opcode) : Build ValueId := do
      let value ← exprWithin program depth operand
      emit { opcode, args := [value], type := some expr.type }
    match op with
    | .plus => exprWithin program depth operand
    | .negate => compute .negate
    | .logicalNot => compute .logicalNot
    | .bitNot => compute .bitNot
    | .preIncrement | .preDecrement | .postIncrement | .postDecrement =>
      let place ← placeWithin program depth operand
      stepPlace program op place expr.type
    | .addressOf => refuse (.loweringAt expr.span .addressUnsupported)
    | .dereference => refuse (.loweringAt expr.span .dereferenceMisplaced)

end

def expr (program : Program) (id : ExprId) : Build ValueId :=
  exprWithin program (3 * program.exprs.size + 3) id

/-! ## Statements -/

/-- Values behind the ending of a block go to a fresh block that nothing jumps to. -/
def ensureOpen (program : Program) : Build Unit := do
  let graph ← get
  if graph.isTerminated graph.current then
    let construct ← nextConstruct
    let block ← newBlock construct "unreachable"
    sealBlock program block
    setCurrent block

def jumpIfOpen (target : BlockId) : Build Unit := do
  let graph ← get
  unless graph.isTerminated graph.current do
    let _ ← jump graph.current target

def declareVar (program : Program) (init : Option ValueId) (var : VarId) : Build Unit := do
  let type := (program.var var).type
  if Graph.isRenamed program var then
    let value ←
      match init with
      | some value => pure value
      | none => emit { opcode := .zeroInit, type := some type }
    writeVar (← get).current var value
  else
    let slot ← emit { opcode := .alloca, payload := .var var, type := some type }
    setSlot var slot
    if let some value := init then
      let _ ← emit { opcode := .store, args := [slot, value] }

def optionalExpr (program : Program) : Option ExprId → Build (Option ValueId)
  | some id => do
    let value ← expr program id
    return some value
  | none => return none

def branchWith (program : Program) (block target : BlockId) (body : Build Unit) : Build Unit := do
  sealBlock program block
  setCurrent block
  body
  jumpIfOpen target

def ifElseWith (program : Program) (condition : ExprId) (onTrue : Build Unit)
    (onFalse : Option (Build Unit)) : Build Unit := do
  let condition ← expr program condition
  let construct ← nextConstruct
  let trueBlock ← newBlock construct "if_body"
  match onFalse with
  | some onFalse =>
    let falseBlock ← newBlock construct "if_else"
    let after ← newBlock construct "if_after"
    let head := (← get).current
    setMerge head (.selection after)
    let _ ← condJump head condition trueBlock falseBlock
    branchWith program trueBlock after onTrue
    branchWith program falseBlock after onFalse
    sealBlock program after
    setCurrent after
  | none =>
    let after ← newBlock construct "if_after"
    let head := (← get).current
    setMerge head (.selection after)
    let _ ← condJump head condition trueBlock after
    branchWith program trueBlock after onTrue
    sealBlock program after
    setCurrent after

/-- Open the blocks of a loop in front of its condition: the block that the loop comes back to, and
the one where the condition starts. They differ when the condition branches. -/
def openLoop (program : Program) (construct : Nat) (branches : Bool) :
    Build (BlockId × BlockId) := do
  if branches then
    let header ← newBlock construct "for_header"
    let _ ← jump (← get).current header
    let condition ← newBlock construct "for_cond"
    let _ ← jump header condition
    sealBlock program condition
    return (header, condition)
  else
    let condition ← newBlock construct "for_cond"
    let _ ← jump (← get).current condition
    return (condition, condition)

def loopCondition (program : Program) : Option ExprId → Build ValueId
  | some condition => expr program condition
  | none => literal (.bool true) .bool

def forLoopWith (program : Program) (init condition step : Option ExprId) (body : Build Unit) :
    Build Unit := do
  let construct ← nextConstruct
  let initBlock ← newBlock construct "for_init"
  let _ ← jump (← get).current initBlock
  sealBlock program initBlock
  setCurrent initBlock
  let _ ← optionalExpr program init
  let branches := (condition.map program.branches).getD false
  let (header, conditionBlock) ← openLoop program construct branches
  setCurrent conditionBlock
  let condition ← loopCondition program condition
  let bodyBlock ← newBlock construct "for_body"
  let after ← newBlock construct "for_after"
  let _ ← condJump (← get).current condition bodyBlock after
  sealBlock program bodyBlock
  sealBlock program after
  setCurrent bodyBlock
  body
  let stepBlock ← newBlock construct "for_incr"
  jumpIfOpen stepBlock
  sealBlock program stepBlock
  setCurrent stepBlock
  let _ ← optionalExpr program step
  let _ ← jump (← get).current header
  sealBlock program header
  setMerge header (.loop after stepBlock)
  setCurrent after

def stmtWithin (program : Program) : Nat → StmtId → Build Unit
  | 0, _ => fail .exhausted
  | depth + 1, id => do
    ensureOpen program
    match (program.stmt id).kind with
    | .expr value =>
      let _ ← expr program value
    | .varDecl vars init =>
      let init ← optionalExpr program init
      vars.forM (declareVar program init)
    | .block stmts => stmts.forM (stmtWithin program depth)
    | .ifElse condition onTrue onFalse =>
      ifElseWith program condition (stmtWithin program depth onTrue)
        (onFalse.map (stmtWithin program depth))
    | .forLoop init condition step body =>
      forLoopWith program init condition step (stmtWithin program depth body)
    | .returnStmt (some value) =>
      let value ← expr program value
      let _ ← returnValue (← get).current value
    | .returnStmt none =>
      let _ ← returnVoid (← get).current

def stmt (program : Program) (id : StmtId) : Build Unit :=
  stmtWithin program (program.stmts.size + 1) id

/-! ## Functions -/

def arguments (program : Program) (function : Function) : Build Unit :=
  function.arguments.zipIdx.forM fun (argument, index) => do
    let entry := (← get).entry
    let value ← makeValue entry
      { opcode := .functionArg
        payload := .argument index
        type := some (program.var argument).type }
    writeVar entry argument value

/-- End the last block of a body. Only a function without a result may reach it. -/
def finishBody (function : Function) : Build Unit := do
  let graph ← get
  let block := graph.current
  if graph.isTerminated block then return ()
  else if graph.isUnreachable block then
    let _ ← unreachable block
  else if function.returnType == .void then
    let _ ← returnVoid block
  else
    refuse (.loweringAt function.span (.resultMissing function.name))

def body (program : Program) (function : Function) (body : StmtId) : Build Unit := do
  arguments program function
  stmt program body
  finishBody function

end Build

def lowerUnder (watch : Watch) (program : Program) (function : FunctionId) :
    Except Failure Graph :=
  let node := program.function function
  match node.body with
  | none => .error (.reported (.loweringAt node.span (.bodyMissing node.name)))
  | some body =>
    match (Build.body program node body).under watch (.start function) with
    | .ok _ graph => .ok graph
    | .error failure _ => .error failure

def lower (program : Program) (function : FunctionId) : Except Failure Graph :=
  lowerUnder .quiet program function

end Shader
