import Shader.Graph.Build

/-! # Editing graphs

An edit collects insertions and removals and carries them out together when it is finished. Replacing
the uses of a value takes effect at once, so that several replacements can follow each other before
anything is removed. -/

namespace Shader

structure PendingInsert where
  value : ValueId
  block : BlockId
  before : ValueId
  deriving DecidableEq, Repr

structure Edit where
  inserts : List PendingInsert := []
  removals : List ValueId := []
  deriving DecidableEq, Repr, Inhabited

namespace Graph

def otherUsers (graph : Graph) (value : ValueId) : List ValueId :=
  ((graph.value value).uses.filter (· != value)).eraseDups

def moveUses (graph : Graph) (old new user : ValueId) : Graph :=
  let moved := (graph.value user).args.count old
  (graph.modifyValue user fun value =>
    { value with args := value.args.map fun arg => if arg = old then new else arg }).modifyValue new
      fun value => { value with uses := value.uses ++ List.replicate moved user }

def rebind (graph : Graph) (old new : ValueId) : Graph :=
  let change (value : ValueId) : ValueId := if value = old then new else value
  { graph with
    blocks := graph.blocks.map fun block =>
      { block with bindings := block.bindings.mapValues change }
    slots := graph.slots.mapValues change }

/-- Let all other users of a value, and all variables, use another value instead. The value keeps the
uses by itself. -/
def replaceUses (graph : Graph) (old new : ValueId) : Graph :=
  let moved := (graph.otherUsers old).foldl (fun graph user => graph.moveUses old new user) graph
  (moved.modifyValue old fun value =>
    { value with uses := value.uses.filter (· == old) }).rebind old new

def hasOtherUses (graph : Graph) (value : ValueId) : Bool :=
  (graph.value value).uses.any (· != value)

def removeValue (graph : Graph) (value : ValueId) : Graph :=
  let node := graph.value value
  let cleared := graph.modifyValue value fun node => { node with args := [] }
  let released := node.args.foldl
    (fun graph arg => graph.modifyValue arg fun node => { node with uses := node.uses.erase value })
    cleared
  (released.modifyValue value fun node => { node with uses := [], removed := true }).modifyBlock
    node.block fun block =>
      { block with
        values := block.values.filter (· != value)
        ending := if block.ending = some value then none else block.ending }

def insert (graph : Graph) (pending : PendingInsert) : Except Fault Graph :=
  if pending.before ∈ (graph.block pending.block).values then
    .ok (graph.modifyBlock pending.block fun block =>
      { block with values := insertBefore pending.before pending.value block.values })
  else .error (.anchorMissing pending.before.index)

def removeUnused (graph : Graph) (value : ValueId) : Except Fault Graph :=
  if graph.hasOtherUses value then .error (.stillUsed value.index)
  else .ok (graph.removeValue value)

def applyEdit (graph : Graph) (edit : Edit) : Except Fault Graph := do
  let inserted ← edit.inserts.foldlM insert graph
  let removed ← edit.removals.foldlM removeUnused inserted
  return { removed with isEditing := false }

end Graph

namespace Build

def startEdit : Build Edit := do
  require (!(← get).isEditing) .editOpen
  modify fun graph => { graph with isEditing := true }
  return {}

def insertBefore (edit : Edit) (block : BlockId) (operation : Operation) (before : ValueId) :
    Build (ValueId × Edit) := do
  require (← get).isEditing .insertOutsideEdit
  let value ← allocate block operation
  return (value, { edit with inserts := edit.inserts ++ [⟨value, block, before⟩] })

def replaceUses (old new : ValueId) : Build Unit := do
  require (← get).isEditing .replaceOutsideEdit
  modify fun graph => graph.replaceUses old new

def queueRemoval (edit : Edit) (value : ValueId) : Build Edit := do
  require (← get).isEditing .removeOutsideEdit
  if value ∈ edit.removals then return edit
  else return { edit with removals := edit.removals ++ [value] }

def finishEdit (edit : Edit) : Build Unit := do
  require (← get).isEditing .finishWithoutEdit
  let edited ← accept ((← get).applyEdit edit)
  set edited

end Build

end Shader
