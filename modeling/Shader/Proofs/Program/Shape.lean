import Mathlib
import Shader.Graph.Lowering

/-! # The shape of programs

What lowering needs to know of a program: nodes are made of older nodes, and an expression reads only
variables that are declared around it.

Expressions can also be asked to be straight: no part of them chooses what is evaluated. -/

namespace Shader

/-! ## Parts of statements -/

namespace StmtKind

/-- The expressions of a statement, without those of the statements in it. -/
def exprs : StmtKind → List ExprId
  | .expr value => [value]
  | .varDecl _ init => init.toList
  | .block _ => []
  | .ifElse condition _ _ => [condition]
  | .forLoop init condition step _ => init.toList ++ condition.toList ++ step.toList
  | .returnStmt value => value.toList

/-- The variables that a statement declares for the statements behind it. -/
def declared : StmtKind → List VarId
  | .varDecl vars _ => vars
  | _ => []

def branches : StmtKind → List StmtId
  | .ifElse _ onTrue onFalse => onTrue :: onFalse.toList
  | .forLoop _ _ _ body => [body]
  | _ => []

def row : StmtKind → List StmtId
  | .block stmts => stmts
  | _ => []

def isReturn : StmtKind → Bool
  | .returnStmt _ => true
  | _ => false

end StmtKind

attribute [simp] ExprKind.children StmtKind.exprs

namespace Program

variable {program : Program} {holds other : ExprId → Prop} {straight : Prop} {scope : Set VarId}
  {id : ExprId}

structure Ordered (program : Program) : Prop where
  expr : ∀ id, ∀ child ∈ (program.expr id).kind.children, child.index < id.index
  row : ∀ id, ∀ child ∈ (program.stmt id).kind.row, child.index < id.index
  branch : ∀ id, ∀ child ∈ (program.stmt id).kind.branches, child.index < id.index
  part : ∀ id, ∀ expr ∈ (program.stmt id).kind.exprs, expr.index < program.exprs.size

/-- An expression is a location: a variable, what a pointer points to, or a part of one of them. -/
def IsPlace (program : Program) (id : ExprId) : Prop :=
  match (program.expr id).kind with
  | .var _ | .deref _ | .index _ _ => True
  | .member base _ | .swizzle base _ =>
    program.isPointer (program.expr base).type = true ∨ (program.expr base).isLvalue = true
  | _ => False

/-- Nodes are made of older nodes, and what is stored to is a location. -/
structure Lawful (program : Program) : Prop extends program.Ordered where
  place : ∀ id, (program.expr id).isLvalue = true → program.IsPlace id
  target : ∀ id op spot left right, (program.expr id).kind = .binary op spot left right →
    op.isAssignment = true → (program.expr left).isLvalue = true
  step : ∀ id op operand, (program.expr id).kind = .unary op operand →
    op ≠ .dereference ∧ (op.isIncrement = true → (program.expr operand).isLvalue = true)

/-- A statement leaves the function where it ends: it is a return, or a block that ends in one. -/
def Leaves (program : Program) (id : StmtId) : Prop :=
  (program.stmt id).kind.isReturn = true ∨ ∃ before last, (program.stmt id).kind.row = before ++ [last] ∧
      (program.stmt last).kind.isReturn = true

/-! ## Expressions in scope -/

/-- Something holds of an expression and of all expressions in it. -/
inductive Everywhere (program : Program) (holds : ExprId → Prop) : ExprId → Prop where
  | intro {id : ExprId} (here : holds id)
      (below : ∀ child ∈ (program.expr id).kind.children, Everywhere program holds child) :
    Everywhere program holds id

theorem Everywhere.here (everywhere : program.Everywhere holds id) : holds id := by
  cases everywhere with
  | intro here => exact here

theorem Everywhere.child (everywhere : program.Everywhere holds id) :
    ∀ child ∈ (program.expr id).kind.children, program.Everywhere holds child := by
  cases everywhere with
  | intro _ below => exact below

theorem Everywhere.mono (everywhere : program.Everywhere holds id) (implies : ∀ id, holds id → other id) :
    program.Everywhere other id := by
  induction everywhere with
  | intro here _ ih => exact .intro (implies _ here) ih

def Within (program : Program) : ExprId → ExprId → Prop :=
  Relation.ReflTransGen fun id child => child ∈ (program.expr id).kind.children

theorem Ordered.everywhere (ordered : program.Ordered) (all : ∀ part, program.Within id part → holds part) :
    program.Everywhere holds id := by
  induction size : id.index using Nat.strong_induction_on generalizing id with
  | _ size ih =>
    subst size
    exact .intro (all id .refl) fun child isChild =>
      ih _ (ordered.expr id child isChild) (fun part within => all part (.head isChild within)) rfl

/-- An expression is a global variable or one that is in scope, if it is a variable. -/
def ReadsWithin (program : Program) (scope : Set VarId) (id : ExprId) : Prop :=
  ∀ var, (program.expr id).kind = .var var → var ∈ scope ∨ (program.var var).kind = .global

def IsStraight (program : Program) (id : ExprId) : Prop :=
  ∀ condition onTrue onFalse, (program.expr id).kind ≠ .ternary condition onTrue onFalse

/-- An expression reads only variables in scope, and nothing in it chooses if it has to be straight. -/
abbrev Fits (program : Program) (straight : Prop) (scope : Set VarId) : ExprId → Prop :=
  program.Everywhere fun id => program.ReadsWithin scope id ∧ (straight → program.IsStraight id)

/-- Every function that an expression calls, or an expression in it, has a property. -/
abbrev CallsOnly (program : Program) (allowed : FunctionId → Prop) : ExprId → Prop :=
  program.Everywhere fun id => ∀ callee arguments, (program.expr id).kind = .call callee arguments → allowed callee

/-- A function calls only older ones: so do all statements that are not newer than its body. -/
def CallsOlder (program : Program) (function : FunctionId) : Prop :=
  ∀ body, (program.function function).body = some body → ∀ stmt : StmtId, stmt.index ≤ body.index →
    ∀ expr ∈ (program.stmt stmt).kind.exprs, program.CallsOnly (·.index < function.index) expr

/-- Every function that is called has a property, and every place where an address is taken has one. -/
abbrev Uses (program : Program) (allowed : FunctionId → Prop) (blamed : Span → Prop) : ExprId → Prop :=
  program.Everywhere fun id =>
    (∀ callee arguments, (program.expr id).kind = .call callee arguments → allowed callee) ∧
      ∀ operand, (program.expr id).kind = .unary .addressOf operand → blamed (program.expr id).span

/-! ## Statements in scope -/

def Inside (program : Program) : StmtId → StmtId → Prop :=
  Relation.ReflTransGen fun id child => child ∈ (program.stmt id).kind.row ++ (program.stmt id).kind.branches

theorem Ordered.inside_le (ordered : program.Ordered) {outer inner : StmtId}
    (inside : program.Inside outer inner) : inner.index ≤ outer.index := by
  induction inside with
  | refl => exact le_rfl
  | @tail middle child _ isChild older =>
    rcases List.mem_append.1 isChild with isRow | isBranch
    · exact (ordered.row middle child isRow).le.trans older
    · exact (ordered.branch middle child isBranch).le.trans older

def Occurs (program : Program) (stmt : StmtId) (id : ExprId) : Prop :=
  ∃ inner, program.Inside stmt inner ∧ ∃ root ∈ (program.stmt inner).kind.exprs, program.Within root id

/-- The variables that statements declare for the statements behind them. -/
def declaredBy (program : Program) (stmts : List StmtId) : Set VarId :=
  {var | ∃ stmt ∈ stmts, var ∈ (program.stmt stmt).kind.declared}

/-- The expressions of a statement, and of all statements in it, read only variables in scope, and
declared variables are new and not global. -/
inductive Scoped (program : Program) : Set VarId → StmtId → Prop where
  | intro {scope : Set VarId} {id : StmtId}
      (exprs : ∀ expr ∈ (program.stmt id).kind.exprs, program.Fits False scope expr)
      (new : ∀ var ∈ (program.stmt id).kind.declared, var ∉ scope)
      (own : ∀ var ∈ (program.stmt id).kind.declared, (program.var var).kind ≠ .global)
      (row : ∀ before child after, (program.stmt id).kind.row = before ++ child :: after →
        Scoped program (scope ∪ program.declaredBy before) child)
      (branches : ∀ child ∈ (program.stmt id).kind.branches, Scoped program scope child) :
    Scoped program scope id

end Program

end Shader
