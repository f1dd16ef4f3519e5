import Shader.Graph.Basic

/-! # Consistency of graphs

Operands and uses are two views of the same edges. `Graph.inconsistency?` finds the first place where
they do not agree. -/

namespace Shader

/-- A disagreement between operands and uses. Values are given by their numbers. -/
inductive Inconsistency where
  | removedOperand (value operand : Nat)
  | countMismatch (value operand forward backward : Nat)
  | removedUser (value user : Nat)
  | missingOperand (value user : Nat)
  deriving DecidableEq, Repr

def Inconsistency.message : Inconsistency → String
  | .removedOperand value operand => s!"%{value} uses removed value %{operand}"
  | .countMismatch value operand forward backward =>
    s!"%{value} lists %{operand} as an arg {forward} times, " ++
      s!"but %{operand} lists it as a user {backward} times"
  | .removedUser value user => s!"%{value} is used by removed value %{user}"
  | .missingOperand value user =>
    s!"%{value} lists %{user} as a user, but it is not an arg"

namespace Graph

def operandInconsistency? (graph : Graph) (value operand : ValueId) : Option Inconsistency :=
  let forward := (graph.value value).args.count operand
  let backward := (graph.value operand).uses.count value
  if (graph.value operand).removed then some (.removedOperand value.index operand.index)
  else if forward ≠ backward then
    some (.countMismatch value.index operand.index forward backward)
  else none

def userInconsistency? (graph : Graph) (value user : ValueId) : Option Inconsistency :=
  if (graph.value user).removed then some (.removedUser value.index user.index)
  else if value ∉ (graph.value user).args then some (.missingOperand value.index user.index)
  else none

def valueInconsistency? (graph : Graph) (value : ValueId) : Option Inconsistency :=
  ((graph.value value).args.findSome? (graph.operandInconsistency? value)).or
    ((graph.value value).uses.findSome? (graph.userInconsistency? value))

def inconsistency? (graph : Graph) : Option Inconsistency :=
  graph.liveValues.findSome? graph.valueInconsistency?

end Graph

end Shader
