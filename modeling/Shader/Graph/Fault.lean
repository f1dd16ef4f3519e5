import Shader.Diagnostic.Basic

/-! # Faults

A `Fault` is a misuse of the operations on a graph or a module. A source never causes one; whoever
drives the operations by hand can. -/

namespace Shader

/-- A misuse of the operations on a graph. Values are given by their numbers, blocks by their
names. -/
inductive Fault where
  | valueDuringEdit
  | alreadyTerminated (block : String)
  | predecessorAfterSeal (block : String)
  | phiOperands (phi : Nat)
  | sealedTwice (block : String)
  | editOpen
  | insertOutsideEdit
  | replaceOutsideEdit
  | removeOutsideEdit
  | finishWithoutEdit
  | anchorMissing (value : Nat)
  | stillUsed (value : Nat)
  | survivorRemoved (value : Nat)
  | operandMissing (count position : Nat)
  | pathMissing (count position : Nat)
  | idsExhausted
  | exhausted
  | objection
  deriving DecidableEq, Repr

def Fault.message : Fault → String
  | .valueDuringEdit => "make_value called while a rewrite is open"
  | .alreadyTerminated block => "block " ++ quoted block ++ " is already terminated"
  | .predecessorAfterSeal block =>
    "cannot add a predecessor to sealed block " ++ quoted block
  | .phiOperands phi => s!"phi %{phi} has the wrong number of operands"
  | .sealedTwice block => "block " ++ quoted block ++ " sealed twice"
  | .editOpen => "a rewrite is already in progress"
  | .insertOutsideEdit => "insert_before called outside of a rewrite"
  | .replaceOutsideEdit => "replace_uses called outside of a rewrite"
  | .removeOutsideEdit => "remove called outside of a rewrite"
  | .finishWithoutEdit => "finish_rewrite called without an open rewrite"
  | .anchorMissing value => s!"insert anchor %{value} is not in its block"
  | .stillUsed value => s!"removing %{value} which still has uses"
  | .survivorRemoved value => s!"%{value} was removed without a replacement"
  | .operandMissing count position =>
    s!"index out of bounds: the len is {count} but the index is {position}"
  | .pathMissing count position =>
    s!"range start index {position} out of range for slice of length {count}"
  | .idsExhausted => "id space exhausted"
  | .exhausted => "recursion limit reached"
  | .objection => "the graph was objected to"

inductive Failure where
  | reported (diagnostic : Diagnostic)
  | fault (fault : Fault)
  deriving DecidableEq, Repr

end Shader
