import Shader.Proofs.Program.Growth

/-! # Sound checks

What the checks of the parser accept has the type that they give, in the sense of the typing judgement. -/

namespace Shader

theorem Literal.type_lt (value : Literal) : value.type.index < builtinTypes.length := by
  cases value <;> simp only [Literal.type] <;> decide

namespace Program

variable {op : UnaryOp} {expr : Expr} {base : ExprId} {width : Nat} {name : String}
  {components : List Nat} {span : Span} {follows : Bool} {arguments : List Expr}

variable {program : Program} {type struct : TypeId} {left right operand : ExprId} {opSpan : Span}

/-! ## Operators -/

theorem agree_of_ok {result given : TypeId} {mismatch : Diagnostic} {first second : TypeId}
    (accepted : (if first != second then .error mismatch else .ok result) = Except.ok given) :
    second = first ∧ given = result := by
  split_ifs at accepted with differs
  cases accepted
  have same : first = second := by simpa using differs
  exact ⟨same.symm, rfl⟩

theorem hasType_of_typeOfScalarBinary {op : BinaryOp} (noComma : op ≠ .comma)
    (noVoid : (program.expr left).type ≠ .void)
    (noVector : program.isVector (program.expr left).type = false)
    (target : op.isAssignment = true → (program.expr left).isLvalue = true)
    (checked : typeOfScalarBinary program op opSpan (program.expr left) (program.expr right) =
      .ok type) : program.HasType (.binary op opSpan left right) type false := by
  unfold typeOfScalarBinary at checked
  dsimp only at checked
  cases isDomain : op.base.domain? with
  | none =>
    rw [isDomain] at checked
    obtain ⟨same, rfl⟩ := agree_of_ok checked
    refine .scalar noComma noVoid noVector target ?_ same
    intro domain found
    rw [isDomain] at found
    cases found
  | some domain =>
    rw [isDomain] at checked
    dsimp only at checked
    by_cases inDomain : program.inDomain (program.expr left).type domain = true
    · rw [if_pos inDomain] at checked
      obtain ⟨same, rfl⟩ := agree_of_ok checked
      refine .scalar noComma noVoid noVector target ?_ same
      intro other found
      rw [isDomain] at found
      cases found
      exact inDomain
    · rw [if_neg inDomain] at checked
      cases checked

theorem hasType_of_typeOfVectorBinary {op : BinaryOp}
    (isVector : program.isVector (program.expr left).type = true)
    (target : op.isAssignment = true → (program.expr left).isLvalue = true)
    (checked : typeOfVectorBinary program op opSpan (program.expr left) (program.expr right) =
      .ok type) : program.HasType (.binary op opSpan left right) type false := by
  unfold typeOfVectorBinary at checked
  split_ifs at checked with fails differs
  cases checked
  refine .vector isVector (by simpa using fails) target ?_
  simp only [Bool.and_eq_true, bne_iff_ne] at differs
  simp only [List.mem_cons, List.not_mem_nil, or_false]
  tauto

theorem hasType_of_typeOfBinary {op : BinaryOp}
    (checked : typeOfBinary program op opSpan (program.expr left) (program.expr right) = .ok type) :
    program.HasType (.binary op opSpan left right) type false := by
  unfold typeOfBinary at checked
  split_ifs at checked with isComma misses isVoid isVector
  · have same : op = .comma := by simpa using isComma
    cases checked
    rw [same]
    exact .comma
  all_goals
    have target (assigns : op.isAssignment = true) : (program.expr left).isLvalue = true := by
      simpa [assigns] using misses
  · exact hasType_of_typeOfVectorBinary isVector target checked
  · exact hasType_of_typeOfScalarBinary (by simpa using isComma) (by simpa using isVoid)
      (by simpa using isVector) target checked

theorem isNumeric_of_typeOfNumeric (checked : typeOfNumeric program op opSpan expr = .ok type) :
    program.isNumeric expr.type = true ∧ type = expr.type := by
  unfold typeOfNumeric at checked
  split_ifs at checked with isNumeric
  cases checked
  exact ⟨isNumeric, rfl⟩

theorem hasType_of_typeOfUnary (leads : op.isTrailing = false)
    (noDeref : op ≠ .dereference) (noAddress : op ≠ .addressOf)
    (checked : typeOfUnary program op opSpan (program.expr operand) = .ok type) :
    program.HasType (.unary op operand) type false := by
  unfold typeOfUnary at checked
  cases op with
  | dereference => exact absurd rfl noDeref
  | addressOf => exact absurd rfl noAddress
  | postIncrement | postDecrement => exact absurd leads (by decide)
  | preIncrement | preDecrement =>
    dsimp only at checked
    split_ifs at checked with isLocation
    obtain ⟨isNumeric, rfl⟩ := isNumeric_of_typeOfNumeric checked
    exact .increment rfl isNumeric isLocation
  | plus | negate =>
    obtain ⟨isNumeric, rfl⟩ := isNumeric_of_typeOfNumeric checked
    exact .sign (by simp) isNumeric
  | logicalNot =>
    dsimp only at checked
    split_ifs at checked with isBool isInteger
    · cases checked
      exact .logicalNot (.inl (by simpa using isBool))
    · obtain ⟨-, rfl⟩ := isNumeric_of_typeOfNumeric checked
      exact .logicalNot (.inr isInteger)
  | bitNot =>
    dsimp only at checked
    split_ifs at checked with isInteger
    obtain ⟨-, rfl⟩ := isNumeric_of_typeOfNumeric checked
    exact .bitNot isInteger

theorem hasType_of_typeOfTrailing (trails : op.isTrailing = true)
    (checked : typeOfTrailing program op opSpan (program.expr operand) = .ok type) :
    program.HasType (.unary op operand) type false := by
  unfold typeOfTrailing at checked
  split_ifs at checked with isNumeric isLocation
  cases checked
  refine .increment ?_ (by simpa using isNumeric) (by simpa using isLocation)
  cases op with
  | postIncrement | postDecrement => rfl
  | _ => exact absurd trails (by decide)

theorem hasType_of_typeOfDeref
    (checked : typeOfDeref program opSpan (program.expr operand) = .ok type) :
    program.HasType (.deref operand) type true := by
  unfold typeOfDeref at checked
  split at checked
  · rename_i pointee points
    cases checked
    exact .deref points
  · cases checked

theorem isAddress_of_checkAddress (checked : checkAddress opSpan expr = .ok ()) :
    expr.isLvalue = true ∧ ∀ base components, expr.kind ≠ .swizzle base components := by
  unfold checkAddress at checked
  split_ifs at checked with misses
  split at checked
  · cases checked
  · rename_i noSwizzle
    exact ⟨by simpa using misses, noSwizzle⟩

theorem hasType_of_typeOfTernary {condition onTrue onFalse : ExprId}
    (checked : typeOfTernary program (program.expr condition) (program.expr onTrue)
      (program.expr onFalse) = .ok type) :
    program.HasType (.ternary condition onTrue onFalse) type false := by
  unfold typeOfTernary at checked
  split_ifs at checked with noBool differs
  cases checked
  have same : (program.expr onTrue).type = (program.expr onFalse).type := by simpa using differs
  exact .ternary (by simpa using noBool) same.symm

theorem pointee_of_typeOfIndex {openSpan : Span}
    (checked : typeOfIndex program openSpan expr = .ok type) :
    program.pointee? expr.type = some type := by
  unfold typeOfIndex at checked
  split at checked
  · rename_i element points
    cases checked
    exact points
  · cases checked

theorem isInteger_of_checkIndex {openSpan : Span}
    (checked : checkIndex program openSpan expr = .ok ()) : program.isInteger expr.type = true := by
  unfold checkIndex at checked
  split_ifs at checked with isInteger
  exact isInteger

/-! ## Members -/

theorem structBehind_of_structOf {dotSpan : Span} {base : TypeId}
    (checked : structOf program dotSpan base = .ok struct) :
    program.StructBehind base struct (struct != base) := by
  unfold structOf at checked
  split_ifs at checked with isStruct
  · cases checked
    simpa using StructBehind.itself isStruct
  · split at checked
    · rename_i pointee points
      split_ifs at checked with isStructBehind
      cases checked
      have differs : (struct != base) = true := by
        rw [bne_iff_ne]
        rintro rfl
        exact isStruct isStructBehind
      rw [differs]
      exact .pointee points isStructBehind
    · cases checked

theorem lt_of_mem_componentsIn {letters : List Char} {name : List Char}
    (found : componentsIn? letters width name = some components) :
    ∀ component ∈ components, component < width := by
  unfold componentsIn? at found
  induction name generalizing components with
  | nil =>
    cases found
    exact fun _ inside => absurd inside List.not_mem_nil
  | cons letter rest ih =>
    rw [List.mapM_cons] at found
    simp only [bind, Option.bind_eq_some_iff, pure, Option.some.injEq] at found
    obtain ⟨first, isFirst, others, areOthers, rfl⟩ := found
    obtain ⟨-, below⟩ := Option.filter_eq_some_iff.1 isFirst
    rintro component (_ | ⟨_, inside⟩)
    · simpa using below
    · exact ih areOthers component inside

theorem lt_of_mem_swizzle {name : List Char} (found : swizzle? name width = some components) :
    ∀ component ∈ components, component < width := by
  unfold swizzle? at found
  split_ifs at found
  obtain ⟨letters, -, inLetters⟩ := List.exists_of_findSome?_eq_some found
  exact lt_of_mem_componentsIn inLetters

theorem Sane.member_of_vector (sane : program.Sane) {component : Nat}
    (isVector : program.vectorWidth? struct = some width) (below : component < width) :
    ∃ member, (program.members struct)[component]? = some member ∧ member.type = .f32 := by
  unfold vectorWidth? at isVector
  split at isVector
  · rename_i members _ isStruct
    subst isVector
    have has : struct.index < program.types.size := has_of_kind_ne (by simp [isStruct])
    have floats := (sane.types struct has).vector members width isStruct
    have length : members.length = width := by simpa using congrArg List.length floats
    have isMembers : program.members struct = members := by
      rw [Program.members, members?, isStruct]
      rfl
    obtain ⟨member, found⟩ : ∃ member, members[component]? = some member :=
      ⟨_, List.getElem?_eq_getElem (by omega)⟩
    refine ⟨member, isMembers ▸ found, ?_⟩
    have inFloats := List.mem_map_of_mem (f := Member.type) (List.mem_of_getElem? found)
    rw [floats] at inFloats
    exact List.eq_of_mem_replicate inFloats
  · cases isVector

theorem hasType_of_findMember {index : Nat}
    (behind : program.StructBehind (program.expr base).type struct follows)
    (checked : findMember program struct name span = .ok (.member index type)) :
    program.HasType (.member base index) type ((program.expr base).isLvalue || follows) := by
  unfold findMember at checked
  dsimp only at checked
  split at checked
  · split at checked
    · rename_i member found
      cases checked
      exact .member behind found
    · cases checked
  · cases checked

theorem findMember_ne_swizzle : findMember program struct name span ≠ .ok (.swizzle components type) := by
  unfold findMember
  dsimp only
  split
  · split <;> exact fun found => nomatch found
  · exact fun found => nomatch found

theorem Sane.hasType_of_member (sane : program.Sane) {index : Nat}
    (behind : program.StructBehind (program.expr base).type struct follows)
    (checked : selectMember program struct name span = .ok (.member index type)) :
    program.HasType (.member base index) type ((program.expr base).isLvalue || follows) := by
  unfold selectMember at checked
  split at checked
  · -- one letter of a vector
    rename_i component found
    cases checked
    obtain ⟨width, isVector, isSwizzle⟩ := Option.bind_eq_some_iff.1 found
    have below := lt_of_mem_swizzle isSwizzle index (by simp)
    obtain ⟨member, isMember, isFloat⟩ := sane.member_of_vector isVector below
    rw [← isFloat]
    exact .member behind isMember
  · split at checked
    · cases checked
    · cases checked
  · exact hasType_of_findMember behind checked

theorem hasType_of_swizzle (behind : program.StructBehind (program.expr base).type struct follows)
    (checked : selectMember program struct name span = .ok (.swizzle components type)) :
    program.HasType (.swizzle base components) type
      (((program.expr base).isLvalue || follows) && decide components.Nodup) := by
  unfold selectMember at checked
  split at checked
  · cases checked
  · rename_i found several
    split at checked
    · rename_i vector isVector
      cases checked
      obtain ⟨width, hasWidth, isSwizzle⟩ := Option.bind_eq_some_iff.1 several
      refine .swizzle behind hasWidth (lt_of_mem_swizzle isSwizzle) ?_ isVector
      rcases components with _ | ⟨first, _ | ⟨second, rest⟩⟩
      · cases isVector
      · exact absurd rfl (found first)
      · simp
    · cases checked
  · exact absurd checked findMember_ne_swizzle

/-! ## Arguments -/

theorem type_of_checkInit (checked : checkInit program type expr = .ok ()) : expr.type = type := by
  unfold checkInit at checked
  split_ifs at checked with differs
  simpa using differs

theorem types_of_checkMembers {total : Nat} {members : List TypeId}
    (checked : checkMembers program type total members arguments = .ok ())
    (length : arguments.length = members.length) : arguments.map Expr.type = members := by
  induction arguments generalizing members with
  | nil => exact (List.length_eq_zero_iff.1 length.symm).symm
  | cons argument rest ih =>
    cases members with
    | nil => cases length
    | cons member members =>
      rw [checkMembers] at checked
      cases accepted : checkInit program member argument with
      | error diagnostic =>
        rw [accepted] at checked
        cases checked
      | ok =>
        rw [accepted] at checked
        rw [List.map_cons, type_of_checkInit accepted, ih checked (by simpa using length)]

theorem types_of_checkInitializer {closeSpan : Span}
    (checked : checkInitializer program type closeSpan arguments = .ok ()) :
    arguments.map Expr.type = (program.members type).map Member.type := by
  unfold checkInitializer at checked
  dsimp only at checked
  cases accepted : checkMembers program type ((program.members type).map Member.type).length
      ((program.members type).map Member.type) arguments with
  | error diagnostic =>
    rw [accepted] at checked
    cases checked
  | ok =>
    rw [accepted] at checked
    simp only [bind, Except.bind] at checked
    split_ifs at checked with differs
    exact types_of_checkMembers accepted (by simpa using differs)

theorem types_of_checkArgumentTypes {parameters : List TypeId}
    (checked : checkArgumentTypes program parameters arguments = .ok ())
    (length : arguments.length = parameters.length) : arguments.map Expr.type = parameters := by
  induction arguments generalizing parameters with
  | nil => exact (List.length_eq_zero_iff.1 length.symm).symm
  | cons argument rest ih =>
    cases parameters with
    | nil => cases length
    | cons parameter parameters =>
      rw [checkArgumentTypes] at checked
      split_ifs at checked with differs
      have same : argument.type = parameter := by simpa using differs
      rw [List.map_cons, same, ih checked (by simpa using length)]

theorem types_of_checkArguments {callee : Function} {callSpan : Span}
    (checked : checkArguments program callee callSpan arguments = .ok ()) :
    arguments.map Expr.type = callee.arguments.map fun argument => (program.var argument).type := by
  unfold checkArguments at checked
  dsimp only at checked
  split_ifs at checked with differs
  exact types_of_checkArgumentTypes checked (by simpa using differs)

theorem type_of_checkCondition (checked : checkCondition program expr = .ok ()) : expr.type = .bool := by
  unfold checkCondition at checked
  split_ifs at checked with differs
  simpa using differs

theorem type_of_checkReturn (checked : checkReturn program type expr = .ok ()) : expr.type = type := by
  unfold checkReturn at checked
  split_ifs at checked with differs
  simpa using differs

/-! ## Types of the program -/

theorem Sane.has_builtin (sane : program.Sane) (below : type.index < builtinTypes.length) :
    type.index < program.types.size :=
  lt_of_lt_of_le below sane.builtin.size

theorem Sane.typed_of_hasType (sane : program.Sane)
    (judged : program.HasType expr.kind expr.type expr.isLvalue)
    (has : ∀ child ∈ expr.kind.children, child.index < program.exprs.size) :
    program.Typed expr := by
  refine ⟨?_, judged⟩
  have known (child : ExprId) (found : child ∈ expr.kind.children) :
      (program.expr child).type.index < program.types.size := (sane.typed child (has child found)).known
  revert known
  generalize expr.type = type, expr.kind = kind, expr.isLvalue = lvalue at judged
  intro known
  cases judged with
  | literal value => exact sane.has_builtin value.type_lt
  | @var var has => exact (sane.vars var has).known
  | comma | vector | sign | logicalNot | bitNot | increment | ternary =>
    exact known _ (by simp)
  | scalar =>
    split
    · exact sane.has_builtin (by decide)
    · exact known _ (by simp)
  | addressOf _ _ isPointer => exact has_of_kind_ne (by simp [isPointer])
  | deref points | index points => exact (sane.pointee_lt points).trans (has_of_pointee points)
  | member _ found =>
    obtain ⟨has, older, -⟩ := sane.member_fits (List.mem_of_getElem? found)
    exact older.trans has
  | @swizzle _ components _ _ _ _ _ _ _ _ found =>
    refine sane.has_builtin ?_
    unfold floatVector? at found
    split at found <;> cases found <;> decide
  | @call function _ has => exact (sane.functions function has).result
  | structInit isStruct => exact has_of_isStruct isStruct

end Program

end Shader
