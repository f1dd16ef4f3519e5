import Shader.Proofs.Program.Binding
import Shader.Proofs.Program.Judgement
import Shader.Proofs.Program.Shape

/-! # Programs that grow

A parser only adds to its program, so what holds of the nodes that are there stays true. -/

namespace Shader

/-! ## Arenas -/

namespace Arena

variable {kind : NodeKind} {α : Type} {before middle after : Arena kind α} {handle : Handle kind}

/-- The items of an arena are in another one, under the same handles. -/
structure Grows (before after : Arena kind α) : Prop where
  size : before.size ≤ after.size
  get? : ∀ handle : Handle kind, handle.index < before.size → after.get? handle = before.get? handle

theorem Grows.refl : before.Grows before := ⟨le_rfl, fun _ _ => rfl⟩

theorem Grows.trans (first : before.Grows middle) (second : middle.Grows after) : before.Grows after where
  size := first.size.trans second.size
  get? handle has := (second.get? handle (has.trans_le first.size)).trans (first.get? handle has)

theorem grows_append (item : α) : before.Grows (before.append item) where
  size := by simp
  get? handle has := by
    have old : handle ≠ before.next := by
      rintro rfl
      exact lt_irrefl _ has
    rw [get?_append, if_neg old]

variable [Inhabited α]

theorem Grows.get (grows : before.Grows after) (has : handle.index < before.size) :
    after.get handle = before.get handle := by
  rw [Arena.get, Arena.get, grows.get? handle has]

theorem get_append_of_size_le (item : α) (beyond : before.size ≤ handle.index)
    (has : handle.index < (before.append item).size) :
    handle = before.next ∧ (before.append item).get handle = item := by
  have isNew : handle = before.next := by
    rw [size_append] at has
    exact Handle.ext_index (Nat.le_antisymm (Nat.le_of_lt_succ has) beyond)
  exact ⟨isNew, isNew ▸ get_append_next before item⟩

theorem has_of_get_ne (differs : before.get handle ≠ default) : handle.index < before.size := by
  by_contra beyond
  exact differs (get_of_size_le (not_lt.1 beyond))

end Arena

def StmtKind.conditions : StmtKind → List ExprId
  | .ifElse condition _ _ => [condition]
  | .forLoop _ condition _ _ => condition.toList
  | _ => []

namespace Program

variable {before middle after program : Program}

/-! ## Growth -/

/-- The nodes of a program are in another one. Only the marks on the attributes of variables may
differ. -/
structure Grows (before after : Program) : Prop where
  types : before.types.Grows after.types
  exprs : before.exprs.Grows after.exprs
  stmts : before.stmts.Grows after.stmts
  functions : before.functions.Grows after.functions
  vars : before.vars.size ≤ after.vars.size
  var : ∀ var : VarId, var.index < before.vars.size →
    (after.var var).kind = (before.var var).kind ∧ (after.var var).type = (before.var var).type ∧
      (after.var var).init = (before.var var).init
  marks : ∀ var : VarId, var.index < before.vars.size → (before.var var).Marks (after.var var)

theorem Grows.refl : before.Grows before :=
  ⟨.refl, .refl, .refl, .refl, le_rfl, fun _ _ => ⟨rfl, rfl, rfl⟩, fun _ _ => .refl⟩

theorem Grows.trans (first : before.Grows middle) (second : middle.Grows after) : before.Grows after where
  types := first.types.trans second.types
  exprs := first.exprs.trans second.exprs
  stmts := first.stmts.trans second.stmts
  functions := first.functions.trans second.functions
  vars := first.vars.trans second.vars
  var var has := by
    obtain ⟨kind, type, init⟩ := first.var var has
    obtain ⟨laterKind, laterType, laterInit⟩ := second.var var (has.trans_le first.vars)
    exact ⟨laterKind.trans kind, laterType.trans type, laterInit.trans init⟩
  marks var has := (first.marks var has).trans (second.marks var (has.trans_le first.vars))

/-! Nodes that are there are what they were. -/

section Nodes

variable (grows : before.Grows after)

include grows

theorem Grows.type {type : TypeId} (known : type.index < before.types.size) :
    after.type type = before.type type :=
  grows.types.get known

theorem Grows.expr {id : ExprId} (has : id.index < before.exprs.size) : after.expr id = before.expr id :=
  grows.exprs.get has

theorem Grows.stmt {id : StmtId} (has : id.index < before.stmts.size) : after.stmt id = before.stmt id :=
  grows.stmts.get has

theorem Grows.function {function : FunctionId} (has : function.index < before.functions.size) :
    after.function function = before.function function :=
  grows.functions.get has

end Nodes

variable {scope : Set VarId} {result : Option TypeId} {id : ExprId} {stmt : StmtId}
  {holds other : ExprId → Prop}

/-- The variables of a program are in another one, marks included, and new ones are no arguments. -/
def KeepsVars (before after : Program) : Prop :=
  ∀ var : VarId, after.var var = before.var var ∨
    before.vars.size ≤ var.index ∧ (after.var var).kind.isArgument = false

theorem KeepsVars.refl : before.KeepsVars before := fun _ => .inl rfl

theorem KeepsVars.trans (first : before.KeepsVars middle) (second : middle.KeepsVars after)
    (size : before.vars.size ≤ middle.vars.size) : before.KeepsVars after := by
  intro var
  rcases second var with same | ⟨isNew, noArgument⟩
  · rw [same]
    exact first var
  · exact .inr ⟨size.trans isNew, noArgument⟩

theorem KeepsVars.var (keeps : before.KeepsVars after) {var : VarId} (has : var.index < before.vars.size) :
    after.var var = before.var var :=
  (keeps var).resolve_right fun ⟨isNew, _⟩ => absurd has isNew.not_gt

theorem Everywhere.grows (everywhere : before.Everywhere holds id) (ordered : before.Ordered)
    (grows : before.Grows after) (has : id.index < before.exprs.size)
    (implies : ∀ id : ExprId, id.index < before.exprs.size → holds id → other id) :
    after.Everywhere other id := by
  induction everywhere with
  | @intro id here below ih =>
    refine .intro (implies id has here) ?_
    rw [grows.expr has]
    intro child found
    exact ih child found ((ordered.expr id child found).trans has)

/-! ## What nodes need -/

/-- An expression has the type that the rules give it, which is one of the program. -/
structure Typed (program : Program) (expr : Expr) : Prop where
  known : expr.type.index < program.types.size
  judged : program.HasType expr.kind expr.type expr.isLvalue

def HasInit (program : Program) (type : TypeId) (init : Option ExprId) : Prop :=
  ∀ id ∈ init.toList, id.index < program.exprs.size ∧ (program.expr id).type = type

/-- Conditions are truth values, and declared variables share their initial value. -/
structure StmtTyped (program : Program) (kind : StmtKind) : Prop where
  conditions : ∀ condition ∈ kind.conditions, (program.expr condition).type = .bool
  vars : ∀ vars init, kind = .varDecl vars init →
    ∀ var ∈ vars, var.index < program.vars.size ∧ (program.var var).init = init

/-- A type with a handle is made of older types, members have initial values of their types and
attributes with a use, and vectors are made of floats. -/
structure TypeFits (program : Program) (id : TypeId) (node : TypeNode) : Prop where
  members : ∀ members width, node.kind = .struct members width →
    ∀ member ∈ members, member.type.index < id.index ∧ program.HasInit member.type member.init
  used : ∀ members width, node.kind = .struct members width →
    ∀ member ∈ members, ∀ attr ∈ member.attributes, attr.used = true
  vector : ∀ members width, node.kind = .struct members (some width) →
    members.map Member.type = List.replicate width .f32
  pointee : ∀ pointee storage, node.kind = .pointer pointee storage → pointee.index < id.index

/-- A variable has a type of the program, and an initial value of that type if it has one. Only
arguments have attributes or are pointers. -/
structure VarFits (program : Program) (var : Variable) : Prop where
  known : var.type.index < program.types.size
  init : program.HasInit var.type var.init
  bare : var.kind.isArgument = false → program.IsBare var

/-- Returning a value ends a function with a result of the type that it has to have, and returning
nothing one without. There is nothing to return from outside of functions. -/
def ReturnFits (program : Program) : Option TypeId → Option ExprId → Prop
  | some result, some value => result ≠ .void ∧ (program.expr value).type = result
  | some result, none => result = .void
  | none, _ => False

/-- A statement, and every statement in it, returns results of a type. -/
inductive Returns (program : Program) (result : Option TypeId) : StmtId → Prop where
  | intro {id : StmtId}
      (here : ∀ value, (program.stmt id).kind = .returnStmt value → program.ReturnFits result value)
      (row : ∀ child ∈ (program.stmt id).kind.row, Returns program result child)
      (branches : ∀ child ∈ (program.stmt id).kind.branches, Returns program result child) :
    Returns program result id

/-- A body reads only variables in scope, and returns a result if there has to be one. -/
structure HasBody (program : Program) (function : Function) (body : StmtId) : Prop where
  has : body.index < program.stmts.size
  arguments : ∀ argument ∈ function.arguments, (program.var argument).kind.isArgument = true
  within : program.Scoped {var | var ∈ function.arguments} body
  returns : function.returnType = .void ∨ program.Leaves body
  results : program.Returns (some function.returnType) body

/-- A function has a signature of known types, a body that fits it if it has one, and a use for all
attributes. -/
structure FunctionFits (program : Program) (function : Function) : Prop where
  result : function.returnType.index < program.types.size
  arguments : ∀ argument ∈ function.arguments, argument.index < program.vars.size
  body : ∀ body, function.body = some body → program.HasBody function body
  used : ∀ attr ∈ function.attributes, attr.used = true
  binds : program.Binds function function.arguments

/-- The table of pointer types has exactly the pointer types of the program. -/
structure PointersListed (program : Program) : Prop where
  listed : ∀ type pointee storage, (program.type type).kind = .pointer pointee storage →
    program.pointerTypes.find? (pointee, storage) = some type
  kind : ∀ type pointee storage, program.pointerTypes.find? (pointee, storage) = some type →
    (program.type type).kind = .pointer pointee storage

theorem PointersListed.distinct (pointers : program.PointersListed) : program.PointersDistinct := by
  intro type other pointee storage first second
  have found := pointers.listed type pointee storage first
  rw [pointers.listed other pointee storage second] at found
  exact (Option.some.inj found).symm

structure Sane (program : Program) : Prop where
  ordered : program.Ordered
  typed : ∀ id : ExprId, id.index < program.exprs.size → program.Typed (program.expr id)
  stmts : ∀ id : StmtId, id.index < program.stmts.size → program.StmtTyped (program.stmt id).kind
  builtin : Program.initial.types.Grows program.types
  types : ∀ id : TypeId, id.index < program.types.size → program.TypeFits id (program.type id)
  pointers : program.PointersListed
  vars : ∀ id : VarId, id.index < program.vars.size → program.VarFits (program.var id)
  functions : ∀ id : FunctionId, id.index < program.functions.size →
    program.FunctionFits (program.function id)
  calls : ∀ id : FunctionId, id.index < program.functions.size → program.CallsOlder id

/-- Every function is declared once at most, and behind those that are older. -/
structure DeclaresOnce (program : Program) : Prop where
  known : ∀ function, .function function ∈ program.declarations → function.index < program.functions.size
  once : program.declarations.Pairwise fun first second =>
    ∀ older newer, first = .function older → second = .function newer → older.index < newer.index

theorem DeclaresOnce.grows (declares : before.DeclaresOnce) (grows : before.Grows after)
    (same : after.declarations = before.declarations) : after.DeclaresOnce := by
  refine ⟨fun function found => ?_, by rw [same]; exact declares.once⟩
  rw [same] at found
  exact (declares.known function found).trans_le grows.functions.size

theorem DeclaresOnce.sorted (declares : program.DeclaresOnce) :
    program.definedFunctions.Pairwise (·.index < ·.index) := by
  refine List.Pairwise.filterMap _ (fun first second sorted function isFirst other isSecond => ?_)
    declares.once
  refine sorted function other ?_ ?_
  · split at isFirst
    · split_ifs at isFirst
      cases isFirst
      rfl
    · cases isFirst
  · split at isSecond
    · split_ifs at isSecond
      cases isSecond
      rfl
    · cases isSecond

theorem has_of_body {id : FunctionId} {body : StmtId} (found : (program.function id).body = some body) :
    id.index < program.functions.size := by
  refine Arena.has_of_get_ne fun missing => ?_
  rw [show program.function id = default from missing] at found
  cases found

theorem Sane.body (sane : program.Sane) (id : FunctionId) (body : StmtId)
    (found : (program.function id).body = some body) :
    program.HasBody (program.function id) body :=
  (sane.functions id (has_of_body found)).body body found

theorem Sane.callsOlder (sane : program.Sane) (id : FunctionId) : program.CallsOlder id :=
  fun body found => sane.calls id (has_of_body found) body found

theorem StructBehind.isPointer {base struct : TypeId} (behind : program.StructBehind base struct true) :
    program.isPointer base = true := by
  cases behind with
  | pointee points =>
    unfold pointee? at points
    unfold Program.isPointer
    split at points
    · rfl
    · cases points

theorem HasType.isPlace {id : ExprId} {kind : ExprKind} {type : TypeId} {lvalue : Bool}
    (judged : program.HasType kind type lvalue) (same : (program.expr id).kind = kind) (isLvalue : lvalue = true) :
    program.IsPlace id := by
  have isRoot {base struct : TypeId} {lvalue follows : Bool} (behind : program.StructBehind base struct follows)
      (either : (lvalue || follows) = true) : program.isPointer base = true ∨ lvalue = true := by
    refine (Bool.or_eq_true_iff.1 either).symm.imp_left fun follows => ?_
    subst follows
    exact behind.isPointer
  unfold IsPlace
  rw [same]
  cases judged with
  | var | deref | index => trivial
  | member behind => exact isRoot behind isLvalue
  | swizzle behind => exact isRoot behind (Bool.and_eq_true_iff.1 isLvalue).1
  | _ => cases isLvalue

theorem Sane.lawful (sane : program.Sane) : program.Lawful := by
  have judged {id : ExprId} (isThere : program.expr id ≠ default) :=
    (sane.typed id (Arena.has_of_get_ne isThere)).judged
  refine ⟨sane.ordered, fun id isLvalue => ?_, fun id op spot left right isBinary isTarget => ?_,
    fun id op operand isUnary => ?_⟩
  · refine (judged fun missing => ?_).isPlace rfl isLvalue
    rw [missing] at isLvalue
    cases isLvalue
  · have judged : program.HasType (.binary op spot left right) _ _ := isBinary ▸ judged fun missing => by
      rw [missing] at isBinary
      cases isBinary
    generalize (program.expr id).type = type, (program.expr id).isLvalue = lvalue at judged
    cases judged with
    | comma => cases isTarget
    | vector _ _ target | scalar _ _ _ target => exact target isTarget
  · have judged : program.HasType (.unary op operand) _ _ := isUnary ▸ judged fun missing => by
      rw [missing] at isUnary
      cases isUnary
    generalize (program.expr id).type = type, (program.expr id).isLvalue = lvalue at judged
    cases judged with
    | sign isSign => rcases isSign with rfl | rfl <;> exact ⟨nofun, nofun⟩
    | increment steps _ target => exact ⟨fun isDeref => (by subst isDeref; cases steps), fun _ => target⟩
    | _ => exact ⟨nofun, nofun⟩

/-! ## Types that stay -/

theorem has_of_kind_ne {type : TypeId} (differs : (program.type type).kind ≠ .primitive .void) :
    type.index < program.types.size := by
  refine Arena.has_of_get_ne fun missing => differs ?_
  rw [show program.type type = default from missing]
  rfl

theorem has_of_isStruct {type : TypeId} (isStruct : program.isStruct type = true) :
    type.index < program.types.size := by
  refine has_of_kind_ne fun isVoid => ?_
  rw [Program.isStruct, isVoid] at isStruct
  cases isStruct

theorem has_of_pointee {type pointee : TypeId} (points : program.pointee? type = some pointee) :
    type.index < program.types.size := by
  refine has_of_kind_ne fun isVoid => ?_
  rw [pointee?, isVoid] at points
  cases points

theorem Sane.pointee_lt (sane : program.Sane) {type pointee : TypeId}
    (points : program.pointee? type = some pointee) : pointee.index < type.index := by
  have has := has_of_pointee points
  unfold pointee? at points
  split at points
  · rename_i target storage isPointer
    cases points
    exact (sane.types type has).pointee _ _ isPointer
  · cases points

theorem Sane.member_fits (sane : program.Sane) {type : TypeId} {member : Member}
    (found : member ∈ program.members type) :
    type.index < program.types.size ∧ member.type.index < type.index ∧ program.HasInit member.type member.init := by
  unfold members members? at found
  split at found
  · rename_i members width isStruct
    have has : type.index < program.types.size := has_of_kind_ne (by simp [isStruct])
    exact ⟨has, (sane.types type has).members _ _ isStruct member found⟩
  · exact absurd found List.not_mem_nil

structure NoPointer (program : Program) (type : TypeId) : Prop where
  known : type.index < program.types.size
  noPointer : program.isPointer type = false

section Stays

variable (sane : before.Sane) (growth : before.Grows after)

include growth

theorem NoPointer.grows {type : TypeId} (plain : before.NoPointer type) : after.NoPointer type := by
  refine ⟨plain.known.trans_le growth.types.size, ?_⟩
  rw [isPointer, growth.type plain.known]
  exact plain.noPointer

theorem StructBehind.grows {type struct : TypeId} {follows : Bool}
    (behind : before.StructBehind type struct follows) : after.StructBehind type struct follows := by
  cases behind with
  | itself isStruct =>
    refine .itself ?_
    rwa [Program.isStruct, growth.type (has_of_isStruct isStruct)]
  | pointee points isStruct =>
    refine .pointee ?_ ?_
    · rwa [pointee?, growth.type (has_of_pointee points)]
    · rwa [Program.isStruct, growth.type (has_of_isStruct isStruct)]

omit growth in
theorem StructBehind.isStruct {type struct : TypeId} {follows : Bool}
    (behind : program.StructBehind type struct follows) : program.isStruct struct = true := by
  cases behind with
  | itself isStruct => exact isStruct
  | pointee _ isStruct => exact isStruct

include sane in
theorem HasType.grows {kind : ExprKind} {type : TypeId} {lvalue : Bool}
    (judged : before.HasType kind type lvalue)
    (has : ∀ child ∈ kind.children, child.index < before.exprs.size) :
    after.HasType kind type lvalue := by
  have same (child : ExprId) (found : child ∈ kind.children) :
      after.expr child = before.expr child := growth.expr (has child found)
  have sameType (child : ExprId) (found : child ∈ kind.children) :
      after.type (after.expr child).type = before.type (before.expr child).type := by
    rw [same child found]
    exact growth.type (sane.typed child (has child found)).known
  have sameTypes (arguments : List ExprId) (found : ∀ child ∈ arguments, child ∈ kind.children) :
      arguments.map (fun argument => (after.expr argument).type) =
        arguments.map fun argument => (before.expr argument).type :=
    List.map_congr_left fun child inside => by rw [same child (found child inside)]
  cases judged with
  | literal value => exact .literal value
  | @var var known =>
    rw [← (growth.var var known).2.1]
    exact .var (known.trans_le growth.vars)
  | @comma opSpan left right =>
    rw [← same right (by simp)]
    exact .comma
  | @vector op opSpan left right isVector works target operand =>
    have sameLeft := same left (by simp)
    have sameRight := same right (by simp)
    have sameNode := sameType left (by simp)
    rw [← sameLeft, ← sameRight] at operand
    rw [← sameLeft] at target ⊢
    refine .vector ?_ works target operand
    rwa [Program.isVector, vectorWidth?, sameNode]
  | @scalar op opSpan left right noComma noVoid noVector target domain equal =>
    have sameLeft := same left (by simp)
    have sameRight := same right (by simp)
    have sameNode := sameType left (by simp)
    have sameDomain (domain : OperandDomain) : after.inDomain (after.expr left).type domain =
          before.inDomain (before.expr left).type domain := by
      rw [sameLeft] at sameNode ⊢
      cases domain <;> simp only [inDomain, isPrimitive, isNumeric, isInteger, isFloat, primitive?, sameNode]
    simp only [← sameDomain] at domain
    rw [← sameLeft, ← sameRight] at equal
    rw [← sameLeft] at noVoid target ⊢
    refine .scalar noComma noVoid ?_ target domain equal
    rwa [Program.isVector, vectorWidth?, sameNode]
  | @sign op operand isSign isNumeric =>
    have sameNode := sameType operand (by simp)
    rw [← same operand (by simp)]
    refine .sign isSign ?_
    simpa only [Program.isNumeric, isInteger, isFloat, primitive?, sameNode] using isNumeric
  | @logicalNot operand fits =>
    have sameNode := sameType operand (by simp)
    have sameOperand := same operand (by simp)
    rw [← sameOperand]
    refine .logicalNot (fits.imp (sameOperand ▸ ·) fun isInteger => ?_)
    simpa only [Program.isInteger, primitive?, sameNode] using isInteger
  | @bitNot operand isInteger =>
    have sameNode := sameType operand (by simp)
    rw [← same operand (by simp)]
    refine .bitNot ?_
    simpa only [Program.isInteger, primitive?, sameNode] using isInteger
  | @increment op operand steps isNumeric target =>
    have sameNode := sameType operand (by simp)
    rw [← same operand (by simp)] at target ⊢
    refine .increment steps ?_ target
    simpa only [Program.isNumeric, isInteger, isFloat, primitive?, sameNode] using isNumeric
  | @addressOf operand type target noSwizzle isPointer =>
    have known : type.index < before.types.size := has_of_kind_ne (by simp [isPointer])
    rw [← growth.type known, ← same operand (by simp)] at isPointer
    rw [← same operand (by simp)] at target noSwizzle
    exact .addressOf target noSwizzle isPointer
  | @deref pointer type points =>
    refine .deref ?_
    rwa [pointee?, sameType pointer (by simp)]
  | @ternary condition onTrue onFalse isBool equal =>
    rw [← same condition (by simp)] at isBool
    rw [← same onTrue (by simp)] at equal ⊢
    rw [← same onFalse (by simp)] at equal
    exact .ternary isBool equal
  | @member base index struct member follows behind found =>
    have known := has_of_isStruct behind.isStruct
    rw [← same base (by simp)] at behind ⊢
    refine .member (behind.grows growth) ?_
    rwa [members, members?, growth.type known]
  | @swizzle base components struct type width follows behind isVector below several found =>
    have known := has_of_isStruct behind.isStruct
    rw [← same base (by simp)] at behind ⊢
    refine .swizzle (behind.grows growth) ?_ below several found
    rwa [vectorWidth?, growth.type known]
  | @index base position type points isInteger =>
    refine .index ?_ ?_
    · rwa [pointee?, sameType base (by simp)]
    · simpa only [Program.isInteger, primitive?, sameType position (by simp)]
        using isInteger
  | @call function arguments known isPlain equal =>
    have sameParameters : (before.function function).arguments.map
        (fun argument => (after.var argument).type) =
        (before.function function).arguments.map fun argument => (before.var argument).type :=
      List.map_congr_left fun argument found =>
        (growth.var argument ((sane.functions function known).arguments argument found)).2.1
    rw [← sameTypes arguments fun _ found => found, ← sameParameters] at equal
    rw [← growth.function known] at isPlain equal ⊢
    exact .call (known.trans_le growth.functions.size) isPlain equal
  | @structInit type arguments isStruct equal =>
    have known := has_of_isStruct isStruct
    rw [← sameTypes arguments fun _ found => found] at equal
    refine .structInit ?_ ?_
    · rwa [Program.isStruct, growth.type known]
    · rwa [members, members?, growth.type known]

include sane in
theorem Typed.grows {expr : Expr} (typed : before.Typed expr)
    (has : ∀ child ∈ expr.kind.children, child.index < before.exprs.size) : after.Typed expr :=
  ⟨typed.known.trans_le growth.types.size, typed.judged.grows sane growth has⟩

theorem HasInit.grows {type : TypeId} {init : Option ExprId} (typed : before.HasInit type init) :
    after.HasInit type init := by
  intro id found
  obtain ⟨has, isType⟩ := typed id found
  exact ⟨has.trans_le growth.exprs.size, growth.expr has ▸ isType⟩

theorem TypeFits.grows {type : TypeId} {node : TypeNode} (fits : before.TypeFits type node) :
    after.TypeFits type node where
  members members width isStruct member found :=
    (fits.members members width isStruct member found).imp_right fun typed => typed.grows growth
  used := fits.used
  vector := fits.vector
  pointee := fits.pointee

theorem VarFits.grows {var : VarId} (fits : before.VarFits (before.var var))
    (has : var.index < before.vars.size) : after.VarFits (after.var var) := by
  obtain ⟨kind, type, init⟩ := growth.var var has
  constructor
  · rw [type]
    exact fits.known.trans_le growth.types.size
  · rw [type, init]
    exact fits.init.grows growth
  · rw [kind]
    intro isPlain
    obtain ⟨unmarked, noPointer⟩ := fits.bare isPlain
    refine ⟨(growth.marks var has).eq_nil_iff.2 unmarked, ?_⟩
    rwa [Program.isPointer, type, growth.type fits.known]

theorem StmtTyped.grows {kind : StmtKind} (typed : before.StmtTyped kind)
    (has : ∀ expr ∈ kind.exprs, expr.index < before.exprs.size) : after.StmtTyped kind where
  conditions condition found := by
    have inside : condition ∈ kind.exprs := by
      cases kind with
      | ifElse => exact found
      | forLoop => exact List.mem_append_left _ (List.mem_append_right _ found)
      | _ => exact absurd found List.not_mem_nil
    rw [growth.expr (has condition inside)]
    exact typed.conditions condition found
  vars vars init isDecl var found := by
    obtain ⟨known, shared⟩ := typed.vars vars init isDecl var found
    exact ⟨known.trans_le growth.vars, (growth.var var known).2.2.trans shared⟩

end Stays

/-! ## Scopes that stay -/

/-- An expression that is there reads only variables in scope. -/
structure Readable (program : Program) (scope : Set VarId) (id : ExprId) : Prop where
  has : id.index < program.exprs.size
  fits : program.Fits False scope id

theorem Sane.has_var (sane : program.Sane) {var : VarId} (has : id.index < program.exprs.size)
    (isVar : (program.expr id).kind = .var var) : var.index < program.vars.size := by
  have judged := (sane.typed id has).judged
  generalize (program.expr id).type = type, (program.expr id).isLvalue = lvalue at judged
  rw [isVar] at judged
  cases judged with
  | var known => exact known

/-- A statement that is there reads only variables in scope, and returns results of a type. -/
structure Runnable (program : Program) (result : Option TypeId) (scope : Set VarId) (id : StmtId) :
    Prop where
  has : id.index < program.stmts.size
  within : program.Scoped scope id
  returns : program.Returns result id

/-- Statements in a row are runnable, each one with the variables that those in front of it declare. -/
def RunnableRow (program : Program) (result : Option TypeId) (scope : Set VarId)
    (stmts : List StmtId) : Prop :=
  ∀ front child rest, stmts = front ++ child :: rest →
    program.Runnable result (scope ∪ program.declaredBy front) child

theorem declaredBy_cons (stmts : List StmtId) :
    program.declaredBy (stmt :: stmts) = program.declaredBy [stmt] ∪ program.declaredBy stmts := by
  ext var
  simp [declaredBy]

theorem RunnableRow.cons {stmts : List StmtId} (first : program.Runnable result scope stmt)
    (others : program.RunnableRow result (scope ∪ program.declaredBy [stmt]) stmts) :
    program.RunnableRow result scope (stmt :: stmts) := by
  intro front child rest split
  cases front with
  | nil =>
    cases split
    simpa [declaredBy] using first
  | cons head front =>
    cases split
    rw [declaredBy_cons, ← Set.union_assoc]
    exact others front child rest rfl

theorem RunnableRow.mem {stmts : List StmtId} (row : program.RunnableRow result scope stmts)
    (found : stmt ∈ stmts) : ∃ inner, program.Runnable result inner stmt := by
  obtain ⟨front, rest, split⟩ := List.append_of_mem found
  exact ⟨_, row front stmt rest split⟩

theorem has_of_not_global {var : VarId} (own : (program.var var).kind ≠ .global) :
    var.index < program.vars.size := by
  by_contra beyond
  have missing : program.var var = default := Arena.get_of_size_le (not_lt.1 beyond)
  exact own (by rw [missing]; rfl)

theorem has_of_isArgument {var : VarId} (own : (program.var var).kind.isArgument = true) :
    var.index < program.vars.size := by
  refine has_of_not_global fun isGlobal => ?_
  rw [isGlobal] at own
  cases own

theorem Sane.callsOnly (sane : program.Sane) (id : ExprId) (has : id.index < program.exprs.size) :
    program.CallsOnly (·.index < program.functions.size) id := by
  induction size : id.index using Nat.strong_induction_on generalizing id with
  | _ size ih =>
    subst size
    refine .intro (fun callee arguments isCall => ?_) fun child inside => ?_
    · have judged := (sane.typed id has).judged
      rw [isCall] at judged
      generalize (program.expr id).type = type, (program.expr id).isLvalue = isLvalue at judged
      cases judged with
      | call known => exact known
    · have older := sane.ordered.expr id child inside
      exact ih child.index older child (older.trans has) rfl

section Stays

variable (sane : before.Sane) (growth : before.Grows after)

include growth

theorem Grows.declaredBy {stmts : List StmtId}
    (has : ∀ stmt ∈ stmts, stmt.index < before.stmts.size) :
    after.declaredBy stmts = before.declaredBy stmts := by
  ext var
  refine exists_congr fun stmt => and_congr_right fun found => ?_
  rw [growth.stmt (has stmt found)]

theorem Grows.not_global {var : VarId} (own : (before.var var).kind ≠ .global) :
    (after.var var).kind ≠ .global := by
  rwa [(growth.var var (has_of_not_global own)).1]

theorem Grows.isArgument {var : VarId} (own : (before.var var).kind.isArgument = true) :
    (after.var var).kind.isArgument = true := by
  rwa [(growth.var var (has_of_isArgument own)).1]

theorem ReturnFits.grows {value : Option ExprId} (fits : before.ReturnFits result value)
    (has : ∀ expr ∈ value.toList, expr.index < before.exprs.size) :
    after.ReturnFits result value := by
  cases result with
  | none => exact fits
  | some type =>
    cases value with
    | none => exact fits
    | some value =>
      exact ⟨fits.1, growth.expr (has value (by simp)) ▸ fits.2⟩

include sane

theorem Sane.readsWithin (has : id.index < before.exprs.size)
    (reads : before.ReadsWithin scope id) : after.ReadsWithin scope id := by
  intro var isVar
  rw [growth.expr has] at isVar
  refine (reads var isVar).imp_right fun isGlobal => ?_
  exact (growth.var var (sane.has_var has isVar)).1.trans isGlobal

theorem Sane.fits (has : id.index < before.exprs.size) (fits : before.Fits False scope id) :
    after.Fits False scope id :=
  fits.grows sane.ordered growth has fun _ has both =>
    ⟨sane.readsWithin growth has both.1, False.elim⟩

theorem Readable.grows (readable : before.Readable scope id) : after.Readable scope id :=
  ⟨readable.has.trans_le growth.exprs.size, sane.fits growth readable.has readable.fits⟩

theorem Sane.scoped (has : stmt.index < before.stmts.size)
    (within : before.Scoped scope stmt) : after.Scoped scope stmt := by
  induction within with
  | @intro scope stmt exprs new own row branches rowInduction branchInduction =>
    have old (child : StmtId) (found : child ∈ (before.stmt stmt).kind.row) :
        child.index < before.stmts.size := (sane.ordered.row stmt child found).trans has
    refine .intro ?_ ?_ ?_ ?_ ?_ <;> rw [growth.stmt has]
    · intro expr found
      exact sane.fits growth (sane.ordered.part stmt expr found) (exprs expr found)
    · exact new
    · exact fun var found => growth.not_global (own var found)
    · intro front child rest split
      have inRow (other : StmtId) (found : other ∈ front ++ child :: rest) :
          other.index < before.stmts.size := old other (split ▸ found)
      rw [growth.declaredBy fun other found => inRow other (List.mem_append_left _ found)]
      exact rowInduction front child rest split (inRow child (by simp))
    · intro child found
      exact branchInduction child found ((sane.ordered.branch stmt child found).trans has)

theorem Sane.results (has : stmt.index < before.stmts.size)
    (returns : before.Returns result stmt) : after.Returns result stmt := by
  induction returns with
  | @intro stmt here row branches rowInduction branchInduction =>
    refine .intro ?_ ?_ ?_ <;> rw [growth.stmt has]
    · intro value isReturn
      refine (here value isReturn).grows growth fun expr found => ?_
      refine sane.ordered.part stmt expr ?_
      rw [isReturn]
      exact found
    · intro child found
      exact rowInduction child found ((sane.ordered.row stmt child found).trans has)
    · intro child found
      exact branchInduction child found ((sane.ordered.branch stmt child found).trans has)

theorem Runnable.grows (runnable : before.Runnable result scope stmt) : after.Runnable result scope stmt :=
  ⟨runnable.has.trans_le growth.stmts.size, sane.scoped growth runnable.has runnable.within,
    sane.results growth runnable.has runnable.returns⟩

theorem Leaves.grows (leaves : before.Leaves stmt) (has : stmt.index < before.stmts.size) :
    after.Leaves stmt := by
  unfold Leaves
  rw [growth.stmt has]
  refine leaves.imp_right ?_
  rintro ⟨front, last, split, isReturn⟩
  have found : last ∈ (before.stmt stmt).kind.row := split ▸ List.mem_append_right _ List.mem_cons_self
  exact ⟨front, last, split, growth.stmt ((sane.ordered.row stmt last found).trans has) ▸ isReturn⟩

theorem HasBody.grows {function : Function} (hasBody : before.HasBody function stmt) :
    after.HasBody function stmt where
  has := hasBody.has.trans_le growth.stmts.size
  arguments argument found := growth.isArgument (hasBody.arguments argument found)
  within := sane.scoped growth hasBody.has hasBody.within
  returns := hasBody.returns.imp_right fun leaves => leaves.grows sane growth hasBody.has
  results := sane.results growth hasBody.has hasBody.results

theorem FunctionFits.grows {function : Function} (fits : before.FunctionFits function) :
    after.FunctionFits function where
  result := fits.result.trans_le growth.types.size
  arguments argument found := (fits.arguments argument found).trans_le growth.vars
  body body found := (fits.body body found).grows sane growth
  used := fits.used
  binds := fits.binds.keep fun argument found => by
    have has := fits.arguments argument found
    exact ⟨growth.marks argument has, (growth.var argument has).2.1, growth.type (sane.vars argument has).known⟩

theorem CallsOlder.grows {function : FunctionId} (calls : before.CallsOlder function)
    (has : function.index < before.functions.size) : after.CallsOlder function := by
  intro body isBody stmt old expr found
  rw [growth.function has] at isBody
  have hasBody := (sane.functions function has).body body isBody
  rw [growth.stmt (old.trans_lt hasBody.has)] at found
  refine (calls body isBody stmt old expr found).grows sane.ordered growth (sane.ordered.part stmt expr found) ?_
  intro id has only
  rwa [growth.expr has]

end Stays

/-! ## Adding nodes -/

/-- An expression with a handle is made of older ones and is typed. -/
structure ExprFits (program : Program) (id : ExprId) (expr : Expr) : Prop where
  children : ∀ child ∈ expr.kind.children, child.index < id.index
  typed : program.Typed expr

/-- A statement with a handle is made of older ones, and of expressions that are there. -/
structure StmtFits (program : Program) (id : StmtId) (node : Stmt) : Prop where
  row : ∀ child ∈ node.kind.row, child.index < id.index
  branch : ∀ child ∈ node.kind.branches, child.index < id.index
  part : ∀ expr ∈ node.kind.exprs, expr.index < program.exprs.size
  typed : program.StmtTyped node.kind

/-- The new nodes of a program that grows are made of older ones and are typed. There need not be any. -/
structure Adds (before after : Program) : Prop where
  grows : before.Grows after
  pointers : after.PointersListed
  expr : ∀ id : ExprId, before.exprs.size ≤ id.index → id.index < after.exprs.size →
    after.ExprFits id (after.expr id) := by
      exact fun _ beyond known => absurd known beyond.not_gt
  stmt : ∀ id : StmtId, before.stmts.size ≤ id.index → id.index < after.stmts.size →
    after.StmtFits id (after.stmt id) := by
      exact fun _ beyond known => absurd known beyond.not_gt
  type : ∀ id : TypeId, before.types.size ≤ id.index → id.index < after.types.size →
    after.TypeFits id (after.type id) := by
      exact fun _ beyond known => absurd known beyond.not_gt
  var : ∀ id : VarId, before.vars.size ≤ id.index → id.index < after.vars.size →
    after.VarFits (after.var id) := by
      exact fun _ beyond known => absurd known beyond.not_gt
  function : ∀ id : FunctionId, before.functions.size ≤ id.index →
    id.index < after.functions.size → after.FunctionFits (after.function id) ∧ after.CallsOlder id := by
      exact fun _ beyond known => absurd known beyond.not_gt

/-- Nodes are made of older ones if those that are there are: a handle of nothing stands for a node
without parts. -/
theorem ordered_of_known (expr : ∀ id : ExprId, id.index < program.exprs.size →
      ∀ child ∈ (program.expr id).kind.children, child.index < id.index)
    (stmt : ∀ id : StmtId, id.index < program.stmts.size →
      program.StmtFits id (program.stmt id)) : program.Ordered := by
  have exprs (id : ExprId) : ∀ child ∈ (program.expr id).kind.children, child.index < id.index := by
    by_cases has : id.index < program.exprs.size
    · exact expr id has
    · rw [show program.expr id = default from Arena.get_of_size_le (not_lt.1 has)]
      exact fun _ found => absurd found List.not_mem_nil
  have stmts (id : StmtId) : id.index < program.stmts.size ∨ program.stmt id = default := by
    by_cases has : id.index < program.stmts.size
    · exact .inl has
    · exact .inr (Arena.get_of_size_le (not_lt.1 has))
  refine ⟨exprs, fun id => ?_, fun id => ?_, fun id => ?_⟩ <;>
    rcases stmts id with has | missing
  · exact (stmt id has).row
  · rw [missing]
    exact fun _ found => absurd found List.not_mem_nil
  · exact (stmt id has).branch
  · rw [missing]
    exact fun _ found => absurd found List.not_mem_nil
  · exact (stmt id has).part
  · rw [missing]
    exact fun _ found => absurd found List.not_mem_nil

theorem Sane.adds (sane : before.Sane) (adds : before.Adds after) : after.Sane := by
  have grows := adds.grows
  have exprFits (id : ExprId) (known : id.index < after.exprs.size) : after.ExprFits id (after.expr id) := by
    by_cases has : id.index < before.exprs.size
    · rw [grows.expr has]
      exact ⟨sane.ordered.expr id, (sane.typed id has).grows sane grows
        fun child found => (sane.ordered.expr id child found).trans has⟩
    · exact adds.expr id (not_lt.1 has) known
  have stmtFits (id : StmtId) (known : id.index < after.stmts.size) : after.StmtFits id (after.stmt id) := by
    by_cases has : id.index < before.stmts.size
    · rw [grows.stmt has]
      have parts := sane.ordered.part id
      exact ⟨sane.ordered.row id, sane.ordered.branch id,
        fun expr found => (parts expr found).trans_le grows.exprs.size,
        (sane.stmts id has).grows grows parts⟩
    · exact adds.stmt id (not_lt.1 has) known
  refine ⟨ordered_of_known (fun id known => (exprFits id known).children) stmtFits,
    fun id known => (exprFits id known).typed, fun id known => (stmtFits id known).typed,
    sane.builtin.trans grows.types, fun id known => ?_, adds.pointers, fun id known => ?_,
    fun id known => ?_, fun id known => ?_⟩
  · by_cases has : id.index < before.types.size
    · rw [grows.type has]
      exact (sane.types id has).grows grows
    · exact adds.type id (not_lt.1 has) known
  · by_cases has : id.index < before.vars.size
    · exact (sane.vars id has).grows grows has
    · exact adds.var id (not_lt.1 has) known
  · by_cases has : id.index < before.functions.size
    · rw [grows.function has]
      exact (sane.functions id has).grows sane grows
    · exact (adds.function id (not_lt.1 has) known).1
  · by_cases has : id.index < before.functions.size
    · exact (sane.calls id has).grows sane grows has
    · exact (adds.function id (not_lt.1 has) known).2

theorem Sane.of_same_nodes (sane : before.Sane) (grows : before.Grows after)
    (exprs : after.exprs = before.exprs) (stmts : after.stmts = before.stmts)
    (types : after.types = before.types) (functions : after.functions = before.functions)
    (vars : after.vars.size = before.vars.size)
    (pointers : after.pointerTypes = before.pointerTypes) : after.Sane := by
  refine sane.adds ⟨grows, ⟨?_, ?_⟩, fun id beyond known => ?_, fun id beyond known => ?_,
    fun id beyond known => ?_, fun id beyond known => ?_, fun id beyond known => ?_⟩
  · intro type pointee storage
    rw [pointers, Program.type, types]
    exact sane.pointers.listed type pointee storage
  · intro type pointee storage
    rw [pointers, Program.type, types]
    exact sane.pointers.kind type pointee storage
  · exact absurd (exprs ▸ known) beyond.not_gt
  · exact absurd (stmts ▸ known) beyond.not_gt
  · exact absurd (types ▸ known) beyond.not_gt
  · exact absurd (vars ▸ known) beyond.not_gt
  · exact absurd (functions ▸ known) beyond.not_gt

theorem grows_addExpr (expr : Expr) :
    before.Grows { before with exprs := before.exprs.append expr } :=
  ⟨.refl, Arena.grows_append expr, .refl, .refl, le_rfl, fun _ _ => ⟨rfl, rfl, rfl⟩, fun _ _ => .refl⟩

theorem Sane.addExpr (sane : before.Sane) {expr : Expr}
    (has : ∀ child ∈ expr.kind.children, child.index < before.exprs.size)
    (typed : before.Typed expr) : Sane { before with exprs := before.exprs.append expr } := by
  have grows := before.grows_addExpr expr
  refine sane.adds { grows, pointers := ⟨sane.pointers.listed, sane.pointers.kind⟩, expr := ?_ }
  intro id beyond known
  change ExprFits _ id ((before.exprs.append expr).get id)
  obtain ⟨rfl, isNew⟩ := Arena.get_append_of_size_le expr beyond known
  rw [isNew]
  exact ⟨has, typed.grows sane grows has⟩

theorem Sane.readable_addExpr (sane : before.Sane) {expr : Expr}
    (parts : ∀ child ∈ expr.kind.children, before.Readable scope child)
    (reads : ∀ var, expr.kind = .var var → var ∈ scope ∨ (before.var var).kind = .global) :
    Readable { before with exprs := before.exprs.append expr } scope before.exprs.next := by
  have isNew : Program.expr { before with exprs := before.exprs.append expr } before.exprs.next = expr :=
    Arena.get_append_next _ _
  refine ⟨by simp [Arena.next], .intro ⟨?_, False.elim⟩ ?_⟩
  · intro var isVar
    rw [isNew] at isVar
    exact reads var isVar
  · rw [isNew]
    intro child found
    exact ((parts child found).grows sane (grows_addExpr expr)).fits

theorem grows_addStmt (node : Stmt) :
    before.Grows { before with stmts := before.stmts.append node } :=
  ⟨.refl, .refl, Arena.grows_append node, .refl, le_rfl, fun _ _ => ⟨rfl, rfl, rfl⟩, fun _ _ => .refl⟩

theorem Sane.addStmt (sane : before.Sane) {node : Stmt}
    (row : ∀ child ∈ node.kind.row, child.index < before.stmts.size)
    (branches : ∀ child ∈ node.kind.branches, child.index < before.stmts.size)
    (parts : ∀ expr ∈ node.kind.exprs, expr.index < before.exprs.size)
    (typed : before.StmtTyped node.kind) :
    Sane { before with stmts := before.stmts.append node } := by
  have grows := before.grows_addStmt node
  refine sane.adds { grows, pointers := ⟨sane.pointers.listed, sane.pointers.kind⟩, stmt := ?_ }
  intro id beyond known
  change StmtFits _ id ((before.stmts.append node).get id)
  obtain ⟨rfl, isNew⟩ := Arena.get_append_of_size_le node beyond known
  rw [isNew]
  exact ⟨row, branches, parts, typed.grows grows parts⟩

theorem Sane.runnable_addStmt (sane : before.Sane) {node : Stmt}
    (exprs : ∀ expr ∈ node.kind.exprs, before.Readable scope expr)
    (new : ∀ var ∈ node.kind.declared, var ∉ scope)
    (own : ∀ var ∈ node.kind.declared, (before.var var).kind ≠ .global)
    (row : before.RunnableRow result scope node.kind.row)
    (branches : ∀ child ∈ node.kind.branches, before.Runnable result scope child)
    (returns : ∀ value, node.kind = .returnStmt value → before.ReturnFits result value) :
    Runnable { before with stmts := before.stmts.append node } result scope before.stmts.next ∧
      declaredBy { before with stmts := before.stmts.append node } [before.stmts.next] =
        {var | var ∈ node.kind.declared} := by
  have grows : before.Grows { before with stmts := before.stmts.append node } := grows_addStmt node
  have isNew : Program.stmt { before with stmts := before.stmts.append node } before.stmts.next = node :=
    Arena.get_append_next _ _
  have old (child : StmtId) (found : child ∈ node.kind.row) : child.index < before.stmts.size := by
    obtain ⟨_, runnable⟩ := row.mem found
    exact runnable.has
  refine ⟨⟨by simp [Arena.next], .intro ?_ ?_ ?_ ?_ ?_, .intro ?_ ?_ ?_⟩, by simp [declaredBy, isNew]⟩ <;>
    rw [isNew]
  · exact fun expr found => ((exprs expr found).grows sane grows).fits
  · exact new
  · exact fun var found => grows.not_global (own var found)
  · intro front child rest split
    have inFront (other : StmtId) (found : other ∈ front) : other.index < before.stmts.size :=
      old other (split ▸ List.mem_append_left _ found)
    rw [grows.declaredBy inFront]
    exact ((row front child rest split).grows sane grows).within
  · exact fun child found => ((branches child found).grows sane grows).within
  · intro value isReturn
    refine (returns value isReturn).grows grows fun expr found => (exprs expr ?_).has
    rw [isReturn]
    exact found
  · intro child found
    obtain ⟨_, runnable⟩ := row.mem found
    exact (runnable.grows sane grows).returns
  · exact fun child found => ((branches child found).grows sane grows).returns

theorem grows_addVariable (var : Variable) : before.Grows (before.addVariable var) := by
  have vars : before.vars.Grows (before.vars.append var) := Arena.grows_append var
  have same (id : VarId) (has : id.index < before.vars.size) :
      (before.addVariable var).var id = before.var id := vars.get has
  refine ⟨.refl, .refl, .refl, .refl, vars.size, fun id has => ?_, fun id has => ?_⟩ <;> rw [same id has]
  · exact ⟨rfl, rfl, rfl⟩
  · exact .refl

theorem keepsVars_addVariable {var : Variable} (noArgument : var.kind.isArgument = false) :
    before.KeepsVars (before.addVariable var) := by
  intro id
  rw [addVariable, Program.var, Program.var, Arena.get_append]
  split_ifs with isNew
  · exact .inr ⟨isNew ▸ le_rfl, noArgument⟩
  · exact .inl rfl

theorem Sane.addVariable (sane : before.Sane) {var : Variable} (fits : before.VarFits var) :
    (before.addVariable var).Sane := by
  have grows := before.grows_addVariable var
  refine sane.adds { grows, pointers := ⟨sane.pointers.listed, sane.pointers.kind⟩, var := ?_ }
  intro id beyond known
  have isNew : (before.addVariable var).var id = var := (Arena.get_append_of_size_le var beyond known).2
  rw [isNew]
  exact ⟨fits.known, fits.init.grows grows, fun isPlain =>
    ⟨(fits.bare isPlain).unmarked, (fits.bare isPlain).noPointer⟩⟩

theorem grows_addFunction (function : Function) : before.Grows (before.addFunction function) :=
  ⟨.refl, .refl, .refl, Arena.grows_append function, le_rfl, fun _ _ => ⟨rfl, rfl, rfl⟩, fun _ _ => .refl⟩

theorem Sane.addFunction (sane : before.Sane) {function : Function}
    (fits : before.FunctionFits function) : (before.addFunction function).Sane := by
  have grows := before.grows_addFunction function
  refine sane.adds { grows, pointers := ⟨sane.pointers.listed, sane.pointers.kind⟩, function := ?_ }
  intro id beyond known
  have isNew : (before.addFunction function).function id = function :=
    (Arena.get_append_of_size_le function beyond known).2
  refine ⟨by rw [isNew]; exact fits.grows sane grows, fun body isBody stmt old expr found => ?_⟩
  have has := sane.ordered.part stmt expr found
  refine (sane.callsOnly expr has).grows sane.ordered grows has fun _ _ known callee arguments isCall => ?_
  exact (known callee arguments isCall).trans_le beyond

theorem grows_addType (type : TypeNode) (pointers : Table (TypeId × StorageClass) TypeId) :
    before.Grows { before with types := before.types.append type, pointerTypes := pointers } :=
  ⟨Arena.grows_append type, .refl, .refl, .refl, le_rfl, fun _ _ => ⟨rfl, rfl, rfl⟩, fun _ _ => .refl⟩

theorem Sane.addType (sane : before.Sane) {node : TypeNode}
    {pointers : Table (TypeId × StorageClass) TypeId}
    (fits : before.TypeFits before.types.next node)
    (listed : PointersListed
      { before with types := before.types.append node, pointerTypes := pointers }) :
    Sane { before with types := before.types.append node, pointerTypes := pointers } := by
  have grows := before.grows_addType node pointers
  refine sane.adds { grows, pointers := listed, type := ?_ }
  intro id beyond known
  change TypeFits _ id ((before.types.append node).get id)
  obtain ⟨rfl, isNew⟩ := Arena.get_append_of_size_le node beyond known
  rw [isNew]
  exact fits.grows grows

theorem type_addType (node : TypeNode) (pointers : Table (TypeId × StorageClass) TypeId)
    (type : TypeId) :
    Program.type { before with types := before.types.append node, pointerTypes := pointers } type =
      if type = before.types.next then node else before.type type :=
  before.types.get_append node type

theorem PointersListed.addStruct (pointers : before.PointersListed) {node : TypeNode}
    (noPointer : ∀ pointee storage, node.kind ≠ .pointer pointee storage) :
    PointersListed { before with types := before.types.append node } := by
  have isType (type : TypeId) :
      Program.type { before with types := before.types.append node } type =
        if type = before.types.next then node else before.type type :=
    before.type_addType node before.pointerTypes type
  constructor
  · intro type pointee storage isPointer
    rw [isType] at isPointer
    split_ifs at isPointer
    · exact absurd isPointer (noPointer pointee storage)
    · exact pointers.listed type pointee storage isPointer
  · intro type pointee storage found
    have isPointer := pointers.kind type pointee storage found
    have known : type.index < before.types.size := has_of_kind_ne (by simp [isPointer])
    rw [isType, if_neg]
    · exact isPointer
    · rintro rfl
      exact absurd known (lt_irrefl _)

/-! ## Pointer types -/

theorem grows_pointerTo (pointee : TypeId) (storage : StorageClass) :
    program.Grows (program.pointerTo pointee storage).2 := by
  unfold pointerTo
  split
  · exact .refl
  · exact grows_addType _ _

theorem declarations_pointerTo (pointee : TypeId) (storage : StorageClass) :
    (program.pointerTo pointee storage).2.declarations = program.declarations := by
  unfold pointerTo
  split <;> rfl

theorem vars_pointerTo (pointee : TypeId) (storage : StorageClass) :
    (program.pointerTo pointee storage).2.vars = program.vars := by
  unfold pointerTo
  split <;> rfl

theorem Sane.kind_pointerTo (sane : program.Sane) (pointee : TypeId) (storage : StorageClass) :
    ((program.pointerTo pointee storage).2.type (program.pointerTo pointee storage).1).kind =
      .pointer pointee storage := by
  unfold Program.pointerTo
  split
  · rename_i type found
    exact sane.pointers.kind type pointee storage found
  · dsimp only
    rw [type_addType, if_pos rfl]

theorem Sane.pointerTo (sane : program.Sane) {pointee : TypeId} (storage : StorageClass)
    (known : pointee.index < program.types.size) :
    (program.pointerTo pointee storage).2.Sane := by
  unfold Program.pointerTo
  split
  · exact sane
  · rename_i missing
    refine sane.addType ⟨?_, ?_, ?_, ?_⟩ ⟨?_, ?_⟩
    · exact fun members width isStruct => nomatch isStruct
    · exact fun members width isStruct => nomatch isStruct
    · exact fun members width isStruct => nomatch isStruct
    · rintro _ _ ⟨⟩
      exact known
    · intro type target memory isPointer
      rw [type_addType] at isPointer
      split_ifs at isPointer with isNew
      · cases isPointer
        rw [isNew]
        exact Table.find?_insert_self _ _ _
      · have found := sane.pointers.listed type target memory isPointer
        have differs : (target, memory) ≠ (pointee, storage) := by
          intro same
          rw [same, missing] at found
          cases found
        dsimp only
        rw [Table.find?_insert_of_ne _ _ differs]
        exact found
    · intro type target memory found
      rw [type_addType]
      by_cases same : (target, memory) = (pointee, storage)
      · cases same
        rw [Table.find?_insert_self] at found
        cases found
        rw [if_pos rfl]
      · rw [Table.find?_insert_of_ne _ _ same] at found
        have isPointer := sane.pointers.kind type target memory found
        have old : type.index < program.types.size := has_of_kind_ne (by simp [isPointer])
        rw [if_neg]
        · exact isPointer
        · rintro rfl
          exact absurd old (lt_irrefl _)

end Program

end Shader
