import Shader.Graph.Edit

/-! # Variables and phis

Variables are renamed while a graph is built: a block notes the value that each variable has at its
end, and a read looks through the predecessors. Where several come together it makes a phi, and a phi
with only one choice is removed again. A block whose predecessors are not all known gets a phi that is
filled when it is sealed.

A read goes at most once through each block with several predecessors, and between two of them at
most once through each other block. -/

namespace Shader

namespace Graph

/-- Whether a variable is renamed: arguments are, and locals without parts. Everything else lives in
memory. -/
def isRenamed (program : Program) (var : VarId) : Bool :=
  let node := program.var var
  match node.kind with
  | .global => false
  | .argument _ => true
  | .localVar => program.isPrimitive node.type

def slot? (graph : Graph) (var : VarId) : Option ValueId :=
  graph.slots.find? var

def choices (graph : Graph) (phi : ValueId) : List ValueId :=
  ((graph.value phi).args.filter (· != phi)).eraseDups

def phiUsers (graph : Graph) (phi : ValueId) : List ValueId :=
  (graph.otherUsers phi).filter graph.isPhi

def lookupLimit (graph : Graph) : Nat :=
  (graph.blocks.size + 1) * (graph.blocks.size + 1)

def removalLimit (graph : Graph) : Nat :=
  graph.values.size + 2

end Graph

namespace Build

/-! ## Phis -/

def retirePhi (recheck : ValueId → Build ValueId) (phi same : ValueId) : Build ValueId := do
  let users := (← get).phiUsers phi
  let replacing ← startEdit
  replaceUses phi same
  finishEdit replacing
  let removing ← startEdit
  let removing ← queueRemoval removing phi
  finishEdit removing
  modify fun graph => graph.modifyValue phi fun value => { value with replacedBy := some same }
  users.forM fun user => do
    unless ((← get).value user).removed do
      let _ ← recheck user
  let graph ← get
  let survivor := graph.resolve same
  require (!(graph.value survivor).removed) (.survivorRemoved survivor.index)
  return survivor

def undefinedLike (phi : ValueId) : Build ValueId := do
  let value := (← get).value phi
  makeValue value.block { opcode := .undef, payload := value.payload, type := value.type }

def removePhiWithin : Nat → ValueId → Build ValueId
  | 0, _ => fail .exhausted
  | depth + 1, phi => watched do
    match (← get).choices phi with
    | [] =>
      let same ← undefinedLike phi
      retirePhi (removePhiWithin depth) phi same
    | [same] => retirePhi (removePhiWithin depth) phi same
    | _ => return phi

def removePhi (phi : ValueId) : Build ValueId := do
  removePhiWithin (← get).removalLimit phi

/-- Remove a phi of which others may have been removed already, and say whether it was removed. -/
def prunePhi (phi : ValueId) : Build Bool := do
  if ((← get).value phi).removed then return false
  else
    let survivor ← removePhi phi
    return survivor != phi

/-- Remove all phis with only one choice. The result is how many were found in the order of the
blocks, not counting those that went with another. -/
def prunePhis : Build Nat := do
  let graph ← get
  let removed ← (graph.liveValues.filter graph.isPhi).mapM prunePhi
  return removed.count true

/-! ## Variables -/

def setSlot (var : VarId) (slot : ValueId) : Build Unit :=
  modify fun graph => { graph with slots := graph.slots.insert var slot }

def writeVar (block : BlockId) (var : VarId) (value : ValueId) : Build Unit :=
  modify fun graph => graph.modifyBlock block fun block =>
    { block with bindings := block.bindings.insert var value }

/-- Give a phi one operand for each predecessor of its block, and remove it if that leaves it only one
choice. -/
def fillPhiWith (read : BlockId → Build ValueId) (phi : ValueId) : Build ValueId := do
  let block := ((← get).value phi).block
  ((← get).block block).preds.forM fun pred => do
    let value ← read pred
    addArg phi value
  let graph ← get
  require ((graph.value phi).args.length == (graph.block block).preds.length) (.phiOperands phi.index)
  removePhi phi

def emptyPhi (program : Program) (block : BlockId) (var : VarId) : Build ValueId :=
  makeValue block
    { opcode := .phi, payload := .var var, type := some (program.var var).type }

/-- Find the value of a variable that a block has no note of: in the only predecessor, or by a phi. -/
def searchVarWith (program : Program) (read : BlockId → Build ValueId) (block : BlockId)
    (var : VarId) : Build ValueId := do
  let node := (← get).block block
  if !node.isSealed then
    let phi ← emptyPhi program block var
    modify fun graph => graph.modifyBlock block fun node =>
      { node with incomplete := node.incomplete ++ [(var, phi)] }
    return phi
  else
    match node.preds with
    | [] =>
      makeValue block
        { opcode := .undef, payload := .var var, type := some (program.var var).type }
    | [pred] => read pred
    | _ =>
      let phi ← emptyPhi program block var
      writeVar block var phi
      fillPhiWith read phi

def defineVarWith (program : Program) (read : BlockId → Build ValueId) (block : BlockId)
    (var : VarId) : Build ValueId := do
  let value ← searchVarWith program read block var
  writeVar block var value
  return value

/-- The value of a variable at the end of a block, found less than `depth` blocks away. -/
def readVarWithin (program : Program) (var : VarId) : Nat → BlockId → Build ValueId
  | 0, _ => fail .exhausted
  | depth + 1, block => watched do
    match ((← get).block block).bindings.find? var with
    | some value => return value
    | none => defineVarWith program (readVarWithin program var depth) block var

def readVar (program : Program) (block : BlockId) (var : VarId) : Build ValueId := do
  readVarWithin program var (← get).lookupLimit block

/-- The value of a variable at the end of a block, whether or not the block has a note of it. -/
def defineVar (program : Program) (block : BlockId) (var : VarId) : Build ValueId := do
  defineVarWith program (readVarWithin program var (← get).lookupLimit) block var

def fillPhi (program : Program) (var : VarId) (phi : ValueId) : Build ValueId := do
  fillPhiWith (readVarWithin program var (← get).lookupLimit) phi

/-- Say that all predecessors of a block are known, and fill the phis that waited for it. -/
def sealBlock (program : Program) (block : BlockId) : Build Unit := watched do
  let node := (← get).block block
  require (!node.isSealed) (.sealedTwice node.name)
  modify fun graph => graph.modifyBlock block fun node => { node with incomplete := [] }
  node.incomplete.forM fun (var, phi) => do
    let _ ← fillPhi program var phi
  modify fun graph => graph.modifyBlock block fun node => { node with isSealed := true }

end Build

end Shader
