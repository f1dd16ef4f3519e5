import Shader.Graph.Basic
import Shader.Graph.Fault

/-! # Building graphs

The steps that make values and blocks. A step that fails leaves what it did up to then. -/

namespace Shader

/-- The items of a list with another one in front of a given one, or at the end if it is not there. -/
def insertBefore {α : Type} [DecidableEq α] (anchor item : α) (items : List α) : List α :=
  items.takeWhile (· != anchor) ++ item :: items.dropWhile (· != anchor)

def Block.place (block : Block) (isPhi : ValueId → Bool) (value : ValueId) (opcode : Opcode) :
    Except Fault Block :=
  if opcode = .phi then
    .ok { block with
      values := block.values.takeWhile isPhi ++ value :: block.values.dropWhile isPhi }
  else if opcode.isEnding then
    if block.ending.isSome then .error (.alreadyTerminated block.name)
    else .ok { block with values := block.values ++ [value], ending := some value }
  else
    match block.ending with
    | some ending => .ok { block with values := insertBefore ending value block.values }
    | none => .ok { block with values := block.values ++ [value] }

namespace Graph

def addArg (graph : Graph) (user arg : ValueId) : Graph :=
  (graph.modifyValue user fun value => { value with args := value.args ++ [arg] }).modifyValue arg
    fun value => { value with uses := value.uses ++ [user] }

def allocate (graph : Graph) (block : BlockId) (operation : Operation) : ValueId × Graph :=
  let id := graph.values.next
  let value : Value := { operation with block, args := [] }
  let graph := { graph with values := graph.values.append value }
  (id, operation.args.foldl (fun graph arg => graph.addArg id arg) graph)

def addEdge (graph : Graph) (source target : BlockId) : Graph :=
  (graph.modifyBlock source fun block => { block with succs := block.succs ++ [target] }).modifyBlock
    target fun block => { block with preds := block.preds ++ [source] }

end Graph

/-- What looks at the graph behind every completed call, and says whether to go on. -/
abbrev Watch := Graph → Bool

def Watch.quiet : Watch := fun _ => true

structure Build (α : Type) where
  under : Watch → EStateM Failure Graph α

namespace Build

instance : Monad Build where
  pure value := ⟨fun _ => pure value⟩
  bind step next := ⟨fun watch => step.under watch >>= fun value => (next value).under watch⟩

instance : MonadStateOf Graph Build where
  get := ⟨fun _ => get⟩
  set graph := ⟨fun _ => set graph⟩
  modifyGet change := ⟨fun _ => modifyGet change⟩

instance : MonadExceptOf Failure Build where
  throw failure := ⟨fun _ => throw failure⟩
  tryCatch step handle :=
    ⟨fun watch => tryCatch (step.under watch) fun failure => (handle failure).under watch⟩

def run {α : Type} (step : Build α) : EStateM Failure Graph α :=
  step.under .quiet

instance {α : Type} : CoeFun (Build α) fun _ => Graph → EStateM.Result Failure Graph α := ⟨run⟩

def fail {α : Type} (fault : Fault) : Build α :=
  throw (.fault fault)

def refuse {α : Type} (diagnostic : Diagnostic) : Build α :=
  throw (.reported diagnostic)

def require (condition : Bool) (fault : Fault) : Build Unit :=
  if condition then pure () else fail fault

def accept {α : Type} : Except Fault α → Build α
  | .ok value => pure value
  | .error fault => fail fault

def look : Build Unit :=
  ⟨fun watch graph => if watch graph then .ok () graph else .error (.fault .objection) graph⟩

def watched {α : Type} (call : Build α) : Build α := do
  let result ← call
  look
  return result

/-! ## Values -/

def addArg (user arg : ValueId) : Build Unit :=
  watched (modify fun graph => graph.addArg user arg)

def allocate (block : BlockId) (operation : Operation) : Build ValueId :=
  modifyGet fun graph => graph.allocate block operation

def place (block : BlockId) (value : ValueId) (opcode : Opcode) : Build Unit := do
  let graph ← get
  let placed ← accept ((graph.block block).place graph.isPhi value opcode)
  modify fun graph => graph.modifyBlock block fun _ => placed

def makeValue (block : BlockId) (operation : Operation) : Build ValueId := watched do
  require (!(← get).isEditing) .valueDuringEdit
  let value ← allocate block operation
  place block value operation.opcode
  return value

def emit (operation : Operation) : Build ValueId := do
  makeValue (← get).current operation

/-! ## Blocks -/

def nextConstruct : Build Nat :=
  modifyGet fun graph => (graph.construct + 1, { graph with construct := graph.construct + 1 })

def newBlock (construct : Nat) (name : String) : Build BlockId :=
  modifyGet fun graph =>
    (graph.blocks.next,
      { graph with blocks := graph.blocks.append { name := s!"{construct}_{name}" } })

def setCurrent (block : BlockId) : Build Unit :=
  modify fun graph => { graph with current := block }

def setMerge (block : BlockId) (merge : Merge) : Build Unit :=
  modify fun graph => graph.modifyBlock block fun block => { block with merge := some merge }

def addEdge (source target : BlockId) : Build Unit := do
  let block := (← get).block target
  require (!block.isSealed) (.predecessorAfterSeal block.name)
  modify fun graph => graph.addEdge source target

def jump (block target : BlockId) : Build ValueId := do
  addEdge block target
  makeValue block { opcode := .jump, payload := .target target }

def condJump (block : BlockId) (condition : ValueId) (onTrue onFalse : BlockId) :
    Build ValueId := do
  addEdge block onTrue
  addEdge block onFalse
  makeValue block
    { opcode := .condJump, args := [condition], payload := .targets onTrue onFalse }

def returnValue (block : BlockId) (value : ValueId) : Build ValueId :=
  makeValue block { opcode := .returnValue, args := [value] }

def returnVoid (block : BlockId) : Build ValueId :=
  makeValue block { opcode := .returnVoid }

def unreachable (block : BlockId) : Build ValueId :=
  makeValue block { opcode := .unreachable }

end Build

end Shader
