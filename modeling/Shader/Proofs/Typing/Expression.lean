import Shader.Proofs.Typing.Place

/-! # Types of lowered expressions

The value that an expression is lowered to has the type of the expression. -/

namespace Shader

namespace Program

variable {opSpan : Span} {left right : ExprId} {lvalue : Bool}

variable {program : Program} {type struct target : TypeId} {follows : Bool}

theorem pointee_of_isStruct (isStruct : program.isStruct type = true) : program.pointee? type = none := by
  unfold Program.isStruct at isStruct
  unfold pointee?
  split at isStruct
  · rename_i kind
    rw [kind]
  · cases isStruct

theorem isPointer_of_pointee (points : program.pointee? type = some target) :
    program.isPointer type = true := by
  unfold pointee? at points
  split at points
  · rename_i kind
    rw [isPointer, kind]
  · cases points

theorem isPointer_of_isStruct (isStruct : program.isStruct type = true) : program.isPointer type = false := by
  unfold Program.isStruct at isStruct
  unfold isPointer
  split at isStruct
  · rename_i kind
    rw [kind]
  · cases isStruct

theorem HasType.operates {op : BinaryOp}
    (judged : program.HasType (.binary op opSpan left right) type lvalue) (noComma : op ≠ .comma) :
    program.Operates op.base (program.expr left).type (program.expr right).type type := by
  cases judged with
  | comma => exact absurd rfl noComma
  | vector isVector works target operand => exact .vector isVector works operand
  | scalar _ _ noVector target domain same =>
    rw [same]
    exact .scalar noVector domain

theorem HasType.comma_type
    (judged : program.HasType (.binary .comma opSpan left right) type lvalue) :
    type = (program.expr right).type := by
  cases judged with
  | comma => rfl
  | vector isVector works => exact absurd works (by decide)
  | scalar noComma => exact absurd rfl noComma

theorem HasType.assigned_type {op : BinaryOp}
    (judged : program.HasType (.binary op opSpan left right) type lvalue)
    (assigns : op.isAssignment = true) : type = (program.expr left).type := by
  cases judged with
  | comma => cases assigns
  | vector => rfl
  | scalar =>
    have noComparison : op.base.isComparison = false := by
      cases op <;> first | rfl | cases assigns
    rw [noComparison]
    rfl

end Program

namespace Build

open Shader.Graph

variable {program : Program} {graph : Graph} {waiting : Set BlockId} {condition value : ValueId}
  {type : TypeId} {depth : Nat}

abbrev MakesTyped (program : Program) (type : TypeId) (step : Build ValueId) : Prop :=
  ∀ waiting graph, graph.Underway program (waiting ∪ {graph.current}) →
    Makes program waiting step graph fun value after => after.Carries value type

theorem pointee_of_carries {pointer : TypeId} (carries : graph.Carries value pointer)
    (points : program.pointee? pointer = some type) : graph.pointee? program value = some type := by
  rw [Graph.pointee?, carries.2, if_neg Bool.false_ne_true, carries.1]
  exact points

theorem whole_of_carries {values : List ValueId} {types : List TypeId}
    (carries : List.Forall₂ graph.Carries values types) : ∀ value ∈ values, graph.Whole value := by
  induction carries with
  | nil => simp
  | cons isValue _ ih => simpa using ⟨isValue.whole, ih⟩

theorem eq_of_mem_zip {α β γ : Type} {left : α → γ} {right : β → γ} {first : α} {second : β}
    {lefts : List α} {rights : List β} (same : lefts.map left = rights.map right)
    (found : (first, second) ∈ lefts.zip rights) : left first = right second := by
  have related : List.Forall₂ (fun first second => left first = right second) lefts rights := by
    rwa [← List.forall₂_eq_eq_eq, List.forall₂_map_left_iff, List.forall₂_map_right_iff] at same
  exact (List.forall₂_iff_zip.1 related).2 found

/-! ## Choices -/

/-- A choice between two values of a type. All its blocks get their endings, but the one where its
arms come together, which is the current one then. -/
theorem chooseWith_typed {onTrue onFalse : Build ValueId}
    (underway : graph.Underway program (waiting ∪ {graph.current}))
    (isCondition : graph.Carries condition .bool) (truly : MakesTyped program type onTrue)
    (falsely : MakesTyped program type onFalse) :
    Makes program waiting (chooseWith program condition onTrue onFalse type) graph
      fun value after => after.Carries value type := by
  have advances := advances_refl underway
  refine Gives.bind (advances_nextConstruct advances) fun construct _ advances => ?_
  refine Gives.bind (advances_newBlock advances) fun trueBlock _ advances => ?_
  refine Gives.bind (advances_newBlock advances) fun falseBlock _ advances => ?_
  refine Gives.bind (advances_newBlock advances) fun after middle advances => ?_
  refine gives_get_bind ?_
  rw [advances.current]
  refine Gives.bind (advances_setMerge advances) fun _ last advances => ?_
  have headed : graph.Advances program
      (waiting ∪ {trueBlock} ∪ {falseBlock} ∪ {after} ∪ {graph.current}) graph.current last :=
    advances.mono (by tauto_set)
  refine Gives.bind (advances_condJump headed (isCondition.grows headed.grows)) ?_
  intro _ _ advances
  refine Gives.bind (advances_sealBlock advances) fun _ _ advances => ?_
  refine Gives.bind (advances_sealBlock advances) fun _ _ advances => ?_
  refine Gives.bind (advances_setCurrent advances) fun _ trueStart advances => ?_
  have onTrue : graph.Advances program (waiting ∪ {falseBlock} ∪ {after} ∪ {trueBlock}) trueBlock
      trueStart := advances.mono (by tauto_set)
  refine Gives.bind (advances_makes onTrue (truly _ _)) ?_
  rintro trueValue trueEnd ⟨arrives, isTrue⟩
  -- the value of an arm is carried along from the end of the arm
  have advances := advances_refl arrives.underway
  refine gives_get_bind (Gives.bind (advances_jump advances) fun _ jumped advances => ?_)
  refine Gives.bind (advances_setCurrent advances) fun _ falseStart advances => ?_
  have onFalse : trueEnd.Advances program (waiting ∪ {after} ∪ {falseBlock}) falseBlock falseStart :=
    advances.mono (by tauto_set)
  refine Gives.bind (advances_makes onFalse (falsely _ _)) ?_
  rintro falseValue falseEnd ⟨arrivesAgain, isFalse⟩
  have advances := advances_refl arrivesAgain.underway
  refine gives_get_bind (Gives.bind (advances_jump advances) fun _ jumped advances => ?_)
  refine Gives.bind (advances_sealBlock advances) fun _ _ advances => ?_
  refine Gives.bind (advances_setCurrent advances) fun _ joined advances => ?_
  have grows : trueEnd.Grows joined := arrivesAgain.grows.trans advances.grows
  have isTrue := isTrue.grows grows
  have isFalse := isFalse.grows advances.grows
  have makes : Gives (makeValue after
      { opcode := .phi, args := [trueValue, falseValue], type := some type }) joined
      fun phi last => joined.Remains program last ∧ last.PhiOf type phi := by
    refine Gives.mono (gives_makeValue ?_) ?_
    · simpa using ⟨isTrue.hasValue, isFalse.hasValue⟩
    · rintro _ last ⟨rfl, adds⟩
      refine ⟨adds.remains advances.underway.typed ⟨.inl ?_, rfl, .of_plain rfl⟩ ⟨type, rfl, ?_⟩ rfl, ?_⟩
      · simpa using ⟨isTrue.whole, isFalse.whole⟩
      · simpa using ⟨isTrue, isFalse⟩
      · rw [PhiOf, adds.new]
        exact ⟨rfl, rfl⟩
  refine Gives.bind makes ?_
  rintro phi made ⟨remains, isPhi⟩
  refine Gives.mono (removePhi_typed remains.typed isPhi) ?_
  rintro result last ⟨again, isResult⟩
  have ends := (advances.remains remains).remains again
  refine ⟨arrives.grows.trans (arrivesAgain.grows.trans ends.grows),
    ends.paired ∘ arrivesAgain.paired ∘ arrives.paired, ?_, isResult⟩
  rw [ends.current]
  exact ends.underway

/-! ## Expressions -/

/-- What lowering does with expressions that are nested less than `depth` deep. -/
structure LowersTyped (program : Program) (depth : Nat) : Prop where
  expr : ∀ id : ExprId, id.index < program.exprs.size →
    MakesTyped program (program.expr id).type (exprWithin program depth id)
  /-- A part is read from a value of the struct that it belongs to. -/
  base : ∀ (id : ExprId) struct follows, id.index < program.exprs.size →
    program.StructBehind (program.expr id).type struct follows →
      MakesTyped program struct (baseWithin program depth id)
  place : ∀ waiting graph (id : ExprId), id.index < program.exprs.size →
    graph.Underway program (waiting ∪ {graph.current}) →
      Makes program waiting (placeWithin program depth id) graph fun place after =>
        after.PlaceTyped program place (program.expr id).type
  /-- A path goes on from a place of the struct that the part belongs to. -/
  root : ∀ waiting graph (id : ExprId) struct follows, id.index < program.exprs.size →
    program.StructBehind (program.expr id).type struct follows →
      graph.Underway program (waiting ∪ {graph.current}) →
        Makes program waiting (rootWithin program depth id) graph fun place after =>
          after.PlaceTyped program place struct
  binary : ∀ op opSpan (left right : ExprId) type lvalue, left.index < program.exprs.size →
    right.index < program.exprs.size → program.HasType (.binary op opSpan left right) type lvalue →
        MakesTyped program type (binaryWithin program depth op left right type)
  unary : ∀ op (operand : ExprId) (expr : Expr) lvalue, operand.index < program.exprs.size →
    program.HasType (.unary op operand) expr.type lvalue →
      MakesTyped program expr.type (unaryWithin program depth op operand expr)

section Step

variable {id : ExprId}

variable (sane : program.Sane) (lowers : LowersTyped program depth)
include sane lowers

omit sane in
theorem baseWithin_typed {struct : TypeId} {follows : Bool} (has : id.index < program.exprs.size)
    (behind : program.StructBehind (program.expr id).type struct follows) :
    MakesTyped program struct (baseWithin program (depth + 1) id) := by
  intro waiting graph underway
  rw [baseWithin]
  refine Makes.bind (lowers.expr id has waiting graph underway) ?_
  intro value after _ underway carries
  cases behind with
  | itself isStruct =>
    rw [Program.pointee_of_isStruct isStruct]
    exact makes_pure underway carries
  | pointee points =>
    rw [points]
    exact emit_carries underway (Points.load (.inl (carries.whole))) trivial rfl rfl rfl

omit sane in
theorem rootWithin_typed {struct : TypeId} {follows : Bool} (has : id.index < program.exprs.size)
    (behind : program.StructBehind (program.expr id).type struct follows)
    (underway : graph.Underway program (waiting ∪ {graph.current})) :
    Makes program waiting (rootWithin program (depth + 1) id) graph fun place after =>
      after.PlaceTyped program place struct := by
  rw [rootWithin]
  cases behind with
  | itself isStruct =>
    rw [if_neg (by simp [Program.isPointer_of_isStruct isStruct])]
    exact lowers.place waiting graph id has underway
  | pointee points =>
    rw [if_pos (Program.isPointer_of_pointee points)]
    refine Makes.bind (lowers.expr id has waiting graph underway) ?_
    intro pointer middle _ underway isPointer
    refine Makes.bind (literal_typed underway) fun zero after grows underway isZero => ?_
    refine makes_pure underway ⟨(isPointer.grows grows).whole, ?_, by simp⟩
    simpa using isZero.whole

theorem placeWithin_typed (has : id.index < program.exprs.size)
    (underway : graph.Underway program (waiting ∪ {graph.current})) :
    Makes program waiting (placeWithin program (depth + 1) id) graph fun place after =>
      after.PlaceTyped program place (program.expr id).type := by
  have judged := (sane.typed id has).judged
  have children (child : ExprId) (found : child ∈ (program.expr id).kind.children) :
      child.index < program.exprs.size := (sane.ordered.expr id child found).trans has
  rw [placeWithin]
  generalize program.expr id = expr at judged children ⊢
  obtain ⟨kind, type, lvalue, span⟩ := expr
  dsimp only at judged children ⊢
  cases judged with
  | var => exact variablePlace_typed underway
  | @deref pointer type points =>
    refine Makes.bind (lowers.expr pointer (children _ (by simp)) waiting graph
      underway) ?_
    intro value after _ underway carries
    exact makes_pure underway ⟨carries.whole, by simp, fun _ => pointee_of_carries carries points⟩
  | @member base index struct member follows behind found =>
    refine Makes.bind (lowers.root waiting graph base struct follows
      (children _ (by simp)) behind underway) ?_
    intro place middle _ underway placed
    refine Makes.bind (memberMarker_typed underway) ?_
    intro marker after grows underway ⟨isMarker, isMember⟩
    refine makes_pure underway ((placed.grows grows).extend isMarker fun other same => ?_)
    obtain rfl : index = other := Payload.member.inj (isMember.symm.trans same)
    exact ⟨member, found, rfl⟩
  | @swizzle base components struct type width follows behind =>
    refine Makes.bind (lowers.root waiting graph base struct follows
      (children _ (by simp)) behind underway) ?_
    intro place middle _ underway placed
    refine Makes.bind (swizzleMarker_typed underway) ?_
    intro marker after grows underway ⟨isMarker, isComponents⟩
    refine makes_pure underway ((placed.grows grows).extend isMarker fun other same => ?_)
    rw [isComponents] at same
    cases same
  | @index base position type points =>
    refine Makes.bind (lowers.expr base (children _ (by simp)) waiting graph underway) ?_
    intro pointer middle _ underway isPointer
    refine Makes.bind (lowers.expr position (children _ (by simp)) waiting middle
      underway) ?_
    intro index after grows underway isIndex
    refine makes_pure underway ⟨(isPointer.grows grows).whole, ?_, by simp⟩
    simpa using isIndex.whole
  | _ => exact makes_refuse

theorem binaryWithin_typed {op : BinaryOp} {opSpan : Span} {left right : ExprId} {lvalue : Bool}
    (hasLeft : left.index < program.exprs.size) (hasRight : right.index < program.exprs.size)
    (judged : program.HasType (.binary op opSpan left right) type lvalue) :
    MakesTyped program type (binaryWithin program (depth + 1) op left right type) := by
  intro waiting graph underway
  rw [binaryWithin]
  split_ifs with isComma isAssign isCompound
  · subst isComma
    rw [judged.comma_type]
    refine Makes.bind (lowers.expr left hasLeft waiting graph underway) ?_
    intro _ after _ underway _
    exact lowers.expr right hasRight waiting after underway
  · subst isAssign
    have operates := judged.operates (by decide)
    rw [judged.assigned_type rfl]
    refine Makes.bind (lowers.expr right hasRight waiting graph underway) ?_
    intro operand _ _ underway isOperand
    refine Makes.bind (asVector_typed underway isOperand operates.spreads) ?_
    intro value _ _ underway isValue
    refine Makes.bind (lowers.place waiting _ left hasLeft underway) ?_
    intro place _ grows underway placed
    have isValue := isValue.grows grows
    refine Makes.bind (storePlace_typed underway placed isValue) ?_
    intro _ after grows underway _
    exact makes_pure underway (isValue.grows grows)
  · have operates := judged.operates isComma
    rw [judged.assigned_type isCompound] at operates ⊢
    refine Makes.bind (lowers.place waiting graph left hasLeft underway) ?_
    intro place _ _ underway placed
    refine Makes.bind (loadPlace_typed underway placed) fun old _ growsOld underway isOld => ?_
    refine Makes.bind (lowers.expr right hasRight waiting _ underway) ?_
    intro operand _ growsOperand underway isOperand
    refine Makes.bind (arithmetic_typed underway sane (isOld.grows growsOperand) isOperand operates) ?_
    intro value _ growsValue underway isValue
    have placed := placed.grows ((growsOld.trans growsOperand).trans growsValue)
    refine Makes.bind (storePlace_typed underway placed isValue) ?_
    intro _ after grows underway _
    exact makes_pure underway (isValue.grows grows)
  · have operates := judged.operates isComma
    have plain : op.base = op := by
      cases op <;> first | rfl | exact absurd rfl isCompound
    rw [plain] at operates
    refine Makes.bind (lowers.expr left hasLeft waiting graph underway) ?_
    intro leftValue _ _ underway isLeft
    refine Makes.bind (lowers.expr right hasRight waiting _ underway) ?_
    intro rightValue _ grows underway isRight
    exact arithmetic_typed underway sane (isLeft.grows grows) isRight operates

theorem unaryWithin_typed {op : UnaryOp} {operand : ExprId} {expr : Expr} {lvalue : Bool}
    (has : operand.index < program.exprs.size)
    (judged : program.HasType (.unary op operand) expr.type lvalue) :
    MakesTyped program expr.type (unaryWithin program (depth + 1) op operand expr) := by
  intro waiting graph underway
  unfold unaryWithin
  obtain ⟨kind, type, isLvalue, span⟩ := expr
  dsimp only at judged ⊢
  have compute (opcode : Opcode) (isUnary : opcode.isUnary = true)
      (same : type = (program.expr operand).type)
      (converts : program.Converts opcode (program.expr operand).type) :
      Makes program waiting (do
        let value ← exprWithin program depth operand
        emit { opcode, args := [value], type := some type }) graph fun value after =>
          after.Carries value type := by
    refine Makes.bind (lowers.expr operand has waiting graph underway) ?_
    intro value after _ underway isValue
    rw [← same] at isValue converts
    refine emit_carries underway ⟨.inl ?_, ?_, .of_plain ?_⟩ ?_ ?_ ?_ rfl
    · simpa using isValue.whole
    · cases opcode <;> first | rfl | cases isUnary
    · cases opcode <;> first | rfl | cases isUnary
    · exact (accepts_of_isUnary isUnary).2 ⟨value, type, rfl, isValue, converts, rfl⟩
    · cases opcode <;> first | rfl | cases isUnary
    · cases opcode <;> first | rfl | cases isUnary
  cases judged with
  | sign isSign isNumeric =>
    rcases isSign with rfl | rfl
    · exact lowers.expr operand has waiting graph underway
    · refine compute .negate rfl rfl ?_
      rcases Program.numericClass_of_isNumeric isNumeric with class_ | class_ | class_ <;>
        exact ⟨_, class_, rfl⟩
  | logicalNot fits =>
    refine compute .logicalNot rfl rfl ?_
    rcases fits with isBool | isInteger
    · rw [isBool]
      exact ⟨_, Program.numericClass_bool sane, rfl⟩
    · rcases Program.numericClass_of_isInteger isInteger with class_ | class_ <;>
        exact ⟨_, class_, rfl⟩
  | bitNot isInteger =>
    refine compute .bitNot rfl rfl ?_
    rcases Program.numericClass_of_isInteger isInteger with class_ | class_ <;>
      exact ⟨_, class_, rfl⟩
  | increment steps isNumeric target =>
    have stepping : Makes program waiting (do
        let place ← placeWithin program depth operand
        stepPlace program op place (program.expr operand).type) graph fun value after =>
          after.Carries value (program.expr operand).type := by
      refine Makes.bind (lowers.place waiting graph operand has underway) ?_
      intro place after _ underway placed
      exact stepPlace_typed underway placed isNumeric
    cases op <;> first | exact stepping | cases steps
  | addressOf => exact makes_refuse

omit sane in
theorem arguments_typed {arguments : List ExprId}
    (has : ∀ argument ∈ arguments, argument.index < program.exprs.size)
    (underway : graph.Underway program (waiting ∪ {graph.current})) :
    Makes program waiting (arguments.mapM (exprWithin program depth)) graph fun values after =>
      List.Forall₂ after.Carries values (arguments.map fun argument => (program.expr argument).type) := by
  refine Gives.mono (gives_mapM (fun rest values after => ∃ done, arguments = done ++ rest ∧
    graph.Grows after ∧ (graph.Paired → after.Paired) ∧
    after.Underway program (waiting ∪ {after.current}) ∧
    List.Forall₂ after.Carries values (done.map fun argument => (program.expr argument).type))
    ⟨[], rfl, .refl, id, underway, .nil⟩ ?_) ?_
  · rintro argument rest values middle ⟨done, all, grows, paired, underway, carries⟩
    have hasArgument := has argument (by simp [all])
    refine Gives.mono (lowers.expr argument hasArgument waiting middle underway) ?_
    rintro value after ⟨growsAgain, pairedAgain, underway, isValue⟩
    refine ⟨done ++ [argument], by simp [all], grows.trans growsAgain, pairedAgain ∘ paired, underway, ?_⟩
    rw [List.map_append]
    exact List.rel_append (carries.imp fun _ _ carries => carries.grows growsAgain) (.cons isValue .nil)
  · rintro values after ⟨done, all, grows, paired, underway, carries⟩
    rw [List.append_nil] at all
    exact ⟨grows, paired, underway, all ▸ carries⟩

omit sane lowers in
theorem storeMember_typed {step : Build ValueId} {slot : ValueId} {index : Nat}
    (underway : graph.Underway program (waiting ∪ {graph.current})) (whole : graph.Whole slot)
    (makes : MakesTyped program type step) :
    Makes program waiting (storeMember step slot index type) graph fun _ _ => True := by
  refine Makes.bind (makes waiting graph underway) fun value _ growsValue underway isValue => ?_
  refine Makes.bind (memberMarker_typed underway) ?_
  intro marker middle growsMarker underway ⟨isMarker, _⟩
  have whole := (whole.grows growsValue).grows growsMarker
  refine Makes.bind (part_typed underway (by simpa using ⟨whole, whole_of_isMarker isMarker⟩)) ?_
  intro pointer after grows underway ⟨isElement, points⟩
  have isValue := isValue.grows (growsMarker.trans grows)
  refine Makes.bind (store_typed underway isElement points isValue) ?_
  exact fun _ _ _ underway _ => makes_pure underway trivial

omit sane in
theorem structInit_typed {arguments : List ExprId}
    (has : ∀ argument ∈ arguments, argument.index < program.exprs.size)
    (same : arguments.map (fun argument => (program.expr argument).type) =
      (program.members type).map Member.type)
    (underway : graph.Underway program (waiting ∪ {graph.current})) :
    Makes program waiting (do
      let slot ← emit { opcode := .alloca, type := some type }
      let members := arguments.zip (program.members type)
      members.zipIdx.forM fun ((argument, member), index) =>
        storeMember (exprWithin program depth argument) slot index member.type
      emit { opcode := .load, args := [slot], type := some type }) graph fun value after =>
        after.Carries value type := by
  have slots : Makes program waiting (emit { opcode := .alloca, type := some type }) graph
      fun slot after => after.Whole slot := by
    refine emit_makes underway ⟨.inl (by simp), rfl, .of_plain rfl⟩ trivial rfl fun after _ made => ?_
    have isMemory : (after.value graph.values.next).opcode = .alloca := by rw [made]
    exact whole_of_opcode isMemory rfl (by decide)
  refine Makes.bind slots fun slot middle _ underway isSlot => ?_
  have stores : Makes program waiting
      ((arguments.zip (program.members type)).zipIdx.forM fun ((argument, member), index) =>
        storeMember (exprWithin program depth argument) slot index member.type) middle
      fun _ _ => True := by
    refine Gives.mono (gives_forM (fun rest after => middle.Grows after ∧
      (middle.Paired → after.Paired) ∧ after.Underway program (waiting ∪ {after.current}) ∧
      ∀ item ∈ rest, item.1 ∈ arguments.zip (program.members type)) ⟨.refl, id, underway, ?_⟩ ?_) ?_
    · rintro ⟨pair, index⟩ found
      exact List.fst_mem_of_mem_zipIdx found
    · rintro ⟨⟨argument, member⟩, index⟩ rest between ⟨grows, paired, underway, inside⟩
      have together := inside _ List.mem_cons_self
      have hasArgument := has argument (List.of_mem_zip together).1
      have isMember := eq_of_mem_zip same together
      refine Gives.mono (storeMember_typed underway (isSlot.grows grows)
        (isMember ▸ lowers.expr argument hasArgument)) ?_
      rintro _ after ⟨growsAgain, pairedAgain, underway, -⟩
      exact ⟨grows.trans growsAgain, pairedAgain ∘ paired, underway, fun item found =>
        inside item (List.mem_cons_of_mem _ found)⟩
    · rintro _ after ⟨grows, paired, underway, -⟩
      exact ⟨grows, paired, underway, trivial⟩
  refine Makes.bind stores fun _ after grows underway _ => ?_
  exact emit_carries underway (Points.load (.inl (isSlot.grows grows))) trivial rfl rfl rfl

theorem exprWithin_typed (has : id.index < program.exprs.size) :
    MakesTyped program (program.expr id).type (exprWithin program (depth + 1) id) := by
  intro waiting graph underway
  have judged := (sane.typed id has).judged
  have children (child : ExprId) (found : child ∈ (program.expr id).kind.children) :
      child.index < program.exprs.size := (sane.ordered.expr id child found).trans has
  have loads : Makes program waiting (do
      let place ← placeWithin program depth id
      loadPlace place (program.expr id).type) graph fun value after =>
        after.Carries value (program.expr id).type := by
    refine Makes.bind (lowers.place waiting graph id has underway) ?_
    intro place after _ underway placed
    exact loadPlace_typed underway placed
  rw [exprWithin]
  generalize program.expr id = expr at judged children loads ⊢
  have unaries (op : UnaryOp) (operand : ExprId) (has : operand.index < program.exprs.size)
      (judged : program.HasType (.unary op operand) expr.type expr.isLvalue) :=
    lowers.unary op operand expr expr.isLvalue has judged waiting graph underway
  obtain ⟨kind, type, lvalue, span⟩ := expr
  dsimp only at judged children loads unaries ⊢
  have again := judged
  cases judged with
  | literal => exact literal_typed underway
  | var | deref | index => exact loads
  | comma | vector | scalar =>
    exact lowers.binary _ _ _ _ _ _ (children _ (by simp))
      (children _ (by simp)) again waiting graph underway
  | sign | logicalNot | bitNot | increment | addressOf =>
    exact unaries _ _ (children _ (by simp)) again
  | @ternary condition onTrue onFalse isBool same =>
    refine Makes.bind (lowers.expr condition (children _ (by simp)) waiting graph
      underway) ?_
    intro value after _ underway isValue
    rw [isBool] at isValue
    refine chooseWith_typed underway isValue
      (lowers.expr onTrue (children _ (by simp))) ?_
    rw [← same]
    exact lowers.expr onFalse (children _ (by simp))
  | @member base index struct member follows behind found =>
    split_ifs
    · exact loads
    · refine Makes.bind (lowers.base base struct follows (children _ (by simp))
        behind waiting graph underway) ?_
      intro whole _ _ underway isWhole
      refine Makes.bind (memberMarker_typed underway) ?_
      intro marker after grows underway ⟨isMarker, isMember⟩
      have isWhole := isWhole.grows grows
      refine emit_carries underway ⟨.inl ?_, rfl, .of_plain rfl⟩ ?_ rfl rfl rfl
      · simpa using ⟨isWhole.whole, whole_of_isMarker isMarker⟩
      · refine ⟨whole, [marker], struct, member.type, rfl, isWhole, ⟨?_, by simp, ?_⟩, rfl⟩
        · simpa using isMarker
        · rintro other position same isPosition
          cases same
          obtain rfl : index = position := Payload.member.inj (isMember.symm.trans isPosition)
          exact ⟨member, found, rfl⟩
  | @swizzle base components struct type width follows behind =>
    split_ifs
    · exact loads
    · refine Makes.bind (lowers.base base struct follows (children _ (by simp))
        behind waiting graph underway) ?_
      intro whole _ _ underway isWhole
      refine Makes.bind (swizzleMarker_typed underway) ?_
      intro marker after grows underway ⟨isMarker, _⟩
      refine emit_carries underway ⟨.inl ?_, rfl, .of_plain rfl⟩ trivial rfl rfl rfl
      simpa using ⟨(isWhole.grows grows).whole, whole_of_isMarker isMarker⟩
  | @call function arguments hasFunction isPlain same =>
    refine Makes.bind (arguments_typed lowers children underway) ?_
    intro values after _ underway carries
    have same : arguments.map (fun argument => (program.expr argument).type) =
      program.parameterTypes function := same
    rw [same] at carries
    exact emit_carries underway ⟨.inl (whole_of_carries carries), rfl, .of_plain rfl⟩
      ⟨function, rfl, carries, rfl⟩ rfl rfl rfl
  | structInit isStruct same => exact structInit_typed lowers children same underway

end Step

theorem lowersTyped (sane : program.Sane) (depth : Nat) : LowersTyped program depth := by
  induction depth with
  | zero =>
    exact
      { expr _ _ _ _ _ := makes_fail
        base _ _ _ _ _ _ _ _ := makes_fail
        place _ _ _ _ _ := makes_fail
        root _ _ _ _ _ _ _ _ := makes_fail
        binary _ _ _ _ _ _ _ _ _ _ _ _ := makes_fail
        unary _ _ _ _ _ _ _ _ _ := makes_fail }
  | succ depth lowers =>
    exact
      { expr _ has := exprWithin_typed sane lowers has
        base _ _ _ has behind := baseWithin_typed lowers has behind
        place _ _ _ has underway := placeWithin_typed sane lowers has underway
        root _ _ _ _ _ has behind underway := rootWithin_typed lowers has behind underway
        binary _ _ _ _ _ _ hasLeft hasRight judged := binaryWithin_typed sane lowers hasLeft hasRight judged
        unary _ _ _ _ has judged := unaryWithin_typed sane lowers has judged }

theorem expr_typed (sane : program.Sane) {id : ExprId} (has : id.index < program.exprs.size) :
    MakesTyped program (program.expr id).type (expr program id) :=
  (lowersTyped sane _).expr id has

end Build

end Shader
