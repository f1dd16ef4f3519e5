import Shader.Proofs.Parser.Declaration

/-! # Well-typed programs

What the types of a parsed program can be relied on for.

* `Program.WellTyped` says that nodes are made of older nodes, and that every expression, condition,
  initial value and result has the type that the typing rules ask for.
* `parse_wellTyped` says that `parse` gives nothing else. -/

namespace Shader

namespace Program

/-- The nodes of a program are well-founded and well-typed. -/
structure WellTyped (program : Program) : Prop where
  exprChild : ∀ id, ∀ child ∈ (program.expr id).kind.children, child < id
  /-- The rules give an expression the type and the kind of location that it has, and no other. -/
  exprType : ∀ id : ExprId, id.index < program.exprs.size → ∀ type lvalue,
    program.HasType (program.expr id).kind type lvalue ↔
      type = (program.expr id).type ∧ lvalue = (program.expr id).isLvalue
  stmtChild : ∀ id, ∀ child ∈ (program.stmt id).kind.row ++ (program.stmt id).kind.branches, child < id
  stmtPart : ∀ id, ∀ expr ∈ (program.stmt id).kind.exprs, expr.index < program.exprs.size
  condition : ∀ id : StmtId, id.index < program.stmts.size →
    ∀ condition ∈ (program.stmt id).kind.conditions, (program.expr condition).type = .bool
  /-- Variables that are declared together have the initial value of the declaration. -/
  declared : ∀ (id : StmtId) vars init, id.index < program.stmts.size →
    (program.stmt id).kind = .varDecl vars init →
      ∀ var ∈ vars, var.index < program.vars.size ∧ (program.var var).init = init
  varInit : ∀ var : VarId, var.index < program.vars.size → ∀ init ∈ (program.var var).init,
    (program.expr init).type = (program.var var).type
  member : ∀ type, ∀ member ∈ program.members type, member.type < type ∧
    ∀ init ∈ member.init, (program.expr init).type = member.type
  pointee : ∀ type pointee, program.pointee? type = some pointee → pointee < type
  /-- The body of a function returns only results of the type of its result. -/
  returns : ∀ function body, (program.function function).body = some body →
    program.Returns (some (program.function function).returnType) body

variable {program : Program}

theorem HasInit.type_eq {type : TypeId} {init : Option ExprId} (typed : program.HasInit type init) :
    ∀ id ∈ init, (program.expr id).type = type :=
  fun id found => (typed id (Option.mem_toList.2 found)).2

theorem Sane.wellTyped (sane : program.Sane) : program.WellTyped where
  exprChild := sane.ordered.expr
  exprType id has type lvalue := by
    have judged := (sane.typed id has).judged
    constructor
    · intro typed
      exact typed.unique sane.pointers.distinct judged
    · rintro ⟨rfl, rfl⟩
      exact judged
  stmtChild id child found :=
    (List.mem_append.1 found).elim (sane.ordered.row id child) (sane.ordered.branch id child)
  stmtPart := sane.ordered.part
  condition id has := (sane.stmts id has).conditions
  declared id vars init has isDecl := (sane.stmts id has).vars vars init isDecl
  varInit var has := (sane.vars var has).init.type_eq
  member _ _ found := (sane.member_fits found).2.imp_right HasInit.type_eq
  pointee _ _ points := sane.pointee_lt points
  returns function body found := (sane.body function body found).results

end Program

/-- What `parse` accepts is well-founded and well-typed. -/
theorem parse_wellTyped {source : String} {program : Program} (parsed : parse source = .ok program) :
    program.WellTyped :=
  (sane_of_parse parsed).wellTyped

/-- A source with a struct, a vector, a pointer, a call and a branch. -/
def typedSource : String :=
  "struct S\x7bfloat3 a;\x7d;float g(S s)\x7bfloat x=s.a.zx.y*sin(2.0f);float t=x;if(x<1.0f)return *&t;" ++
    "return -x;\x7d"

def typedProgram : Program :=
  (parsePartial typedSource).1

theorem parse_typedSource : parse typedSource = .ok typedProgram := parse_eq_of_isNone (by decide +kernel)

/-- The third expression selects two components of a vector: it is a location of two floats. -/
theorem parse_wellTyped_sample : parse typedSource = .ok typedProgram ∧
    (typedProgram.expr ⟨2⟩).kind = .swizzle ⟨1⟩ [2, 0] ∧
      typedProgram.HasType (.swizzle ⟨1⟩ [2, 0]) .float2 true := by
  have ⟨has, isSwizzle, isVector, isLocation⟩ : 2 < typedProgram.exprs.size ∧
      (typedProgram.expr ⟨2⟩).kind = .swizzle ⟨1⟩ [2, 0] ∧
      (typedProgram.expr ⟨2⟩).type = .float2 ∧ (typedProgram.expr ⟨2⟩).isLvalue = true := by
    decide +kernel
  refine ⟨parse_typedSource, isSwizzle, ?_⟩
  have typed := (parse_wellTyped parse_typedSource).exprType ⟨2⟩ has .float2 true
  rw [isSwizzle] at typed
  exact typed.2 ⟨isVector.symm, isLocation.symm⟩

end Shader
