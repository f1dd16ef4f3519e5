import Shader.Proofs.Program.Growth
import Shader.Proofs.Typing.Action

/-! # Types of operators and places

What is computed from values of given types, and what is read from and stored to places of given types. -/

namespace Shader

/-! ## Operators -/

def PrimitiveType.class? : PrimitiveType → Option NumericClass
  | .float _ => some .float
  | .int _ true => some .signed
  | .int _ false => some .unsigned
  | .bool => some .bool
  | .void => none

namespace Program

variable {program : Program} {op : BinaryOp} {opcode : Opcode} {left right result type : TypeId}

/-- The types that a binary operator works on: a vector and a vector or a float, or operands of the
same type in the domain of the operator. -/
inductive Operates (program : Program) (op : BinaryOp) : TypeId → TypeId → TypeId → Prop where
  | vector {left right : TypeId} (isVector : program.isVector left = true)
      (works : op.worksOnVectors = true) (operand : right ∈ [.f32, .f64, left]) :
    Operates program op left right left
  | scalar {type : TypeId} (noVector : program.isVector type = false)
      (domain : ∀ domain, op.domain? = some domain → program.inDomain type domain = true) :
    Operates program op type type (if op.isComparison then .bool else type)

theorem isComparison_opcode (isOp : op.opcode? = some opcode) : opcode.isComparison = op.isComparison := by
  cases op <;> cases isOp <;> rfl

theorem isBinary_opcode (isOp : op.opcode? = some opcode) : opcode.isBinary = true := by
  cases op <;> cases isOp <;> rfl

theorem primitive_bool (sane : program.Sane) : program.primitive? .bool = some .bool := by
  have same : program.type .bool = Program.initial.type .bool := sane.builtin.get (by decide)
  rw [primitive?, same]
  rfl

theorem numericClass_of_primitive {primitive : PrimitiveType}
    (isPrimitive : program.primitive? type = some primitive) :
    program.numericClass? type = primitive.class? := by
  have noVector : program.isVector type = false := by
    unfold primitive? at isPrimitive
    split at isPrimitive
    · rename_i kind
      rw [isVector, vectorWidth?, kind]
      rfl
    · cases isPrimitive
  rw [numericClass?, noVector, if_neg Bool.false_ne_true, isPrimitive]
  rcases primitive with _ | _ | ⟨_, _ | _⟩ | _ <;> rfl

theorem numericClass_bool (sane : program.Sane) : program.numericClass? .bool = some .bool :=
  numericClass_of_primitive (primitive_bool sane)

theorem numericClass_of_isInteger (isInteger : program.isInteger type = true) :
    program.numericClass? type = some .signed ∨ program.numericClass? type = some .unsigned := by
  unfold Program.isInteger at isInteger
  split at isInteger
  · rename_i bits signed isPrimitive
    rw [numericClass_of_primitive isPrimitive]
    cases signed
    · exact .inr rfl
    · exact .inl rfl
  · cases isInteger

theorem numericClass_of_isNumeric (isNumeric : program.isNumeric type = true) :
    program.numericClass? type = some .float ∨ program.numericClass? type = some .signed ∨
      program.numericClass? type = some .unsigned := by
  rcases Bool.or_eq_true_iff.1 isNumeric with isInteger | isFloat
  · exact .inr (numericClass_of_isInteger isInteger)
  · unfold Program.isFloat at isFloat
    split at isFloat
    · rename_i bits isPrimitive
      exact .inl (numericClass_of_primitive isPrimitive)
    · cases isFloat

theorem exists_instruction (sane : program.Sane) (isOp : op.opcode? = some opcode)
    (domain : ∀ domain, op.domain? = some domain → program.inDomain type domain = true) :
    ∃ class_, program.numericClass? type = some class_ ∧
      (binaryInstruction? opcode class_).isSome = true := by
  have bools (inside : program.inDomain type .bool = true) : program.numericClass? type = some .bool := by
    obtain rfl : type = .bool := by simpa [inDomain] using inside
    exact numericClass_bool sane
  have integers (inside : program.inDomain type .integer = true) := numericClass_of_isInteger inside
  have numbers (inside : program.inDomain type .numeric = true) := numericClass_of_isNumeric inside
  have primitives (inside : program.inDomain type .primitive = true) :
      program.numericClass? type = some .bool ∨ program.numericClass? type = some .float ∨
        program.numericClass? type = some .signed ∨ program.numericClass? type = some .unsigned := by
    rcases Bool.or_eq_true_iff.1 inside with isBool | isNumeric
    · exact .inl (bools isBool)
    · exact .inr (numericClass_of_isNumeric isNumeric)
  -- each operator has an instruction for every class in its domain
  cases op <;> cases isOp
  case logicalOr | logicalAnd => exact ⟨_, bools (domain _ rfl), rfl⟩
  case bitOr | bitXor | bitAnd | shl | shr | rem =>
    rcases integers (domain _ rfl) with class_ | class_ <;> exact ⟨_, class_, rfl⟩
  case equal | notEqual =>
    rcases primitives (domain _ rfl) with class_ | class_ | class_ | class_ <;>
      exact ⟨_, class_, rfl⟩
  all_goals rcases numbers (domain _ rfl) with class_ | class_ | class_ <;> exact ⟨_, class_, rfl⟩

/-- Operands that an operator works on are combined by its opcode, once a scalar went to all components
of a vector; only a product takes it as it is. -/
theorem Operates.combines {operand : TypeId} (operates : program.Operates op left right result)
    (sane : program.Sane) (isOp : op.opcode? = some opcode)
    (spread : operand = left ∨ opcode = .mul ∧ operand = right) :
    program.Combines opcode left operand result := by
  cases operates with
  | vector isVector works floats =>
    have isFloat : program.numericClass? left = some .float := by
      rw [numericClass?, if_pos isVector]
    have noComparison : op.isComparison = false := by
      cases op <;> first | rfl | cases works
    refine ⟨?_, ?_, .float, isFloat, ?_⟩
    · rcases spread with rfl | ⟨isProduct, rfl⟩
      · exact .inl rfl
      · simp only [List.mem_cons, List.not_mem_nil, or_false] at floats
        rcases floats with single | double | same
        · exact .inr ⟨isProduct, isVector, .inl single⟩
        · exact .inr ⟨isProduct, isVector, .inr double⟩
        · exact .inl same.symm
    · rw [isComparison_opcode isOp, noComparison]
      rfl
    · cases op <;> cases isOp <;> first | rfl | cases works
  | scalar noVector domain =>
    refine ⟨.inl ?_, ?_, exists_instruction sane isOp domain⟩
    · exact (spread.elim id fun product => product.2).symm
    · rw [isComparison_opcode isOp]

theorem Operates.spreads (operates : program.Operates op left right result) :
    right = left ∨ program.isVector left = true := by
  cases operates with
  | vector isVector => exact .inr isVector
  | scalar => exact .inl rfl

end Program

namespace Graph

variable {program : Program} {graph after : Graph} {place : Place} {marker : ValueId} {type : TypeId}

/-! ## Places -/

/-- The content of a place has a type. The path into a renamed variable has only markers. -/
def PlaceTyped (program : Program) (graph : Graph) (place : Place) (type : TypeId) : Prop :=
  match place.root with
  | .renamed var value =>
    graph.Carries value (program.var var).type ∧ graph.PathTo program place.path (program.var var).type type
  | .memory pointer =>
    graph.Whole pointer ∧ (∀ step ∈ place.path, graph.Whole step) ∧
      (place.path = [] → graph.pointee? program pointer = some type)

theorem whole_of_isMarker (isMarker : (graph.value marker).opcode.isMarker = true) : graph.Whole marker := by
  cases opcode : (graph.value marker).opcode <;> rw [opcode] at isMarker <;> try cases isMarker
  · exact whole_of_opcode opcode rfl (by decide)
  · exact whole_of_opcode opcode rfl (by decide)

theorem PathTo.whole {path : List ValueId} {whole part : TypeId}
    (leads : graph.PathTo program path whole part) : ∀ step ∈ path, graph.Whole step :=
  fun step found => whole_of_isMarker (leads.markers step found)

theorem PlaceTyped.grows (typed : graph.PlaceTyped program place type) (grows : graph.Grows after) :
    after.PlaceTyped program place type := by
  unfold PlaceTyped at typed ⊢
  split at typed
  · obtain ⟨carries, leads⟩ := typed
    exact ⟨carries.grows grows, leads.grows grows⟩
  · obtain ⟨whole, path, points⟩ := typed
    exact ⟨whole.grows grows, fun step found => (path step found).grows grows, fun empty =>
      grows.pointee (points empty)⟩

theorem PlaceTyped.extend {part : TypeId} (typed : graph.PlaceTyped program place type)
    (isMarker : (graph.value marker).opcode.isMarker = true)
    (leads : ∀ index, (graph.value marker).payload = .member index →
      ∃ member, (program.members type)[index]? = some member ∧ member.type = part) :
    graph.PlaceTyped program (place.extend marker) part := by
  obtain ⟨root, path⟩ := place
  unfold PlaceTyped at typed ⊢
  cases root with
  | renamed var value =>
    obtain ⟨carries, before⟩ := typed
    refine ⟨carries, ?_, ?_, ?_⟩
    · intro other found
      rcases List.mem_append.1 found with found | found
      · exact before.markers other found
      · rw [List.mem_singleton.1 found]
        exact isMarker
    · intro empty
      exact absurd empty (by simp [Place.extend])
    · intro other index single isMember
      -- a path of one step has nothing in front of it
      have first : path = [] ∧ marker = other := by
        cases path with
        | nil => exact ⟨rfl, by simpa [Place.extend] using single⟩
        | cons head tail => simp [Place.extend] at single
      obtain ⟨empty, rfl⟩ := first
      rw [before.empty empty]
      exact leads index isMember
  | memory pointer =>
    obtain ⟨whole, steps, -⟩ := typed
    refine ⟨whole, ?_, fun empty => absurd empty (by simp [Place.extend])⟩
    intro step found
    rcases List.mem_append.1 found with found | found
    · exact steps step found
    · rw [List.mem_singleton.1 found]
      exact whole_of_isMarker isMarker

/-! ## Accesses -/

/-- Memory may be accessed at an address next: it is whole, or the address of a part that was made in
the current block. -/
def Points (graph : Graph) (pointer : ValueId) : Prop :=
  graph.Whole pointer ∨ graph.HasValue pointer ∧ (graph.value pointer).opcode = .elementPtr ∧
    (graph.value pointer).block = graph.current

theorem Points.load {pointer : ValueId} (points : graph.Points pointer) :
    graph.Takes graph.current { opcode := .load, args := [pointer], type := some type } :=
  ⟨points.imp (fun whole => by simpa using whole) fun ⟨has, isPart, home⟩ =>
    ⟨pointer, has, isPart, home, .inl ⟨rfl, rfl⟩⟩, rfl, .of_plain rfl⟩

theorem Points.store {pointer content : ValueId} (points : graph.Points pointer)
    (whole : graph.Whole content) :
    graph.Takes graph.current { opcode := .store, args := [pointer, content] } :=
  ⟨points.imp (fun isWhole => by simpa using ⟨isWhole, whole⟩) fun ⟨has, isPart, home⟩ =>
    ⟨pointer, has, isPart, home, .inr ⟨rfl, content, rfl, whole⟩⟩, rfl, .of_plain rfl⟩

end Graph

namespace Build

open Shader.Graph

variable {program : Program} {graph : Graph} {waiting : Set BlockId} {place : Place}
  {value left right pointer : ValueId} {type target leftType rightType : TypeId} {op : BinaryOp}

/-! ## Values -/

variable (underway : graph.Underway program (waiting ∪ {graph.current}))

include underway

theorem literal_typed {constant : Literal} :
    Makes program waiting (literal constant type) graph fun value after => after.Carries value type :=
  emit_carries underway ⟨.inl (by simp), rfl, nofun, fun _ => ⟨constant, rfl⟩, nofun⟩ trivial rfl rfl rfl

theorem memberMarker_typed {index : Nat} :
    Makes program waiting (memberMarker index) graph fun marker after =>
      (after.value marker).opcode.isMarker = true ∧ (after.value marker).payload = .member index := by
  refine emit_makes underway ⟨.inl (by simp), rfl, .of_plain rfl⟩ trivial rfl fun after _ made => ?_
  rw [made]
  exact ⟨rfl, rfl⟩

theorem swizzleMarker_typed {components : List Nat} :
    Makes program waiting (swizzleMarker components) graph fun marker after =>
      (after.value marker).opcode.isMarker = true ∧
        (after.value marker).payload = .components components := by
  refine emit_makes underway ⟨.inl (by simp), rfl, .of_plain rfl⟩ trivial rfl fun after _ made => ?_
  rw [made]
  exact ⟨rfl, rfl⟩

theorem asVector_typed (carries : graph.Carries value type)
    (spreads : type = target ∨ program.isVector target = true) :
    Makes program waiting (asVector program value target) graph fun result after =>
      after.Carries result target := by
  refine makes_get_bind ?_
  dsimp only
  split_ifs with same
  · refine makes_pure underway ?_
    rw [carries.1, Bool.or_eq_true, Bool.not_eq_true', beq_iff_eq, Option.some.injEq] at same
    rcases same with noVector | rfl
    · rcases spreads with rfl | isVector
      · exact carries
      · rw [noVector] at isVector
        cases isVector
    · exact carries
  · refine emit_carries underway ⟨.inl ?_, rfl, .of_plain rfl⟩ trivial rfl rfl rfl
    simpa using carries.whole

theorem arithmetic_typed (sane : program.Sane) (isLeft : graph.Carries left leftType)
    (isRight : graph.Carries right rightType)
    (operates : program.Operates op leftType rightType type) :
    Makes program waiting (arithmetic program op left right type) graph fun result after =>
      after.Carries result type := by
  unfold arithmetic
  split
  · exact makes_refuse
  · rename_i opcode isOp
    have isBinary := Program.isBinary_opcode isOp
    have finish (operand : ValueId) (operandType : TypeId) (after : Graph) (grows : graph.Grows after)
        (underway : after.Underway program (waiting ∪ {after.current}))
        (isOperand : after.Carries operand operandType)
        (fits : operandType = leftType ∨ opcode = .mul ∧ operandType = rightType) :
        Makes program waiting (emit { opcode, args := [left, operand], type := some type }) after
          fun result last => last.Carries result type := by
      have isLeft := isLeft.grows grows
      refine emit_carries underway ⟨.inl ?_, ?_, .of_plain ?_⟩ ?_ ?_ ?_ rfl
      · simpa using ⟨isLeft.whole, isOperand.whole⟩
      · cases opcode <;> first | rfl | cases isBinary
      · cases opcode <;> first | rfl | cases isBinary
      · exact (accepts_of_isBinary isBinary).2 ⟨left, operand, leftType, operandType, type, rfl, isLeft,
          isOperand, operates.combines sane isOp fits, rfl⟩
      · cases opcode <;> first | rfl | cases isBinary
      · cases opcode <;> first | rfl | cases isBinary
    refine makes_get_bind ?_
    rw [isLeft.1]
    dsimp only
    split_ifs with isProduct
    · exact finish right rightType graph .refl underway isRight (.inr ⟨isProduct, rfl⟩)
    · refine Makes.bind (asVector_typed underway isRight operates.spreads) ?_
      intro operand after grows underway isOperand
      exact finish operand leftType after grows underway isOperand (.inl rfl)

/-! ## Places -/

theorem part_typed {args : List ValueId} (whole : ∀ arg ∈ args, graph.Whole arg) :
    Makes program waiting (emit { opcode := .elementPtr, args, type := some type }) graph
      fun pointer after => after.pointee? program pointer = some type ∧ after.Points pointer := by
  refine emit_makes underway ⟨.inl whole, rfl, .of_plain rfl⟩ trivial rfl fun after _ made => ?_
  have points : after.pointee? program graph.values.next = some type := by
    rw [Graph.pointee?, made]
    rfl
  refine ⟨points, .inr ⟨hasValue_of_pointee points, ?_⟩⟩
  rw [made]
  exact ⟨rfl, rfl⟩

theorem elementPointer_typed {path : List ValueId} (whole : graph.Whole pointer)
    (steps : ∀ step ∈ path, graph.Whole step)
    (points : path = [] → graph.pointee? program pointer = some type) :
    Makes program waiting (elementPointer pointer path type) graph fun element after =>
      after.pointee? program element = some type ∧ after.Points element := by
  unfold elementPointer
  split_ifs with isEmpty
  · exact makes_pure underway ⟨points (List.isEmpty_iff.1 isEmpty), .inl whole⟩
  · exact part_typed underway (by simpa using ⟨whole, steps⟩)

theorem loadPlace_typed (typed : graph.PlaceTyped program place type) :
    Makes program waiting (loadPlace place type) graph fun value after =>
      after.Carries value type := by
  unfold loadPlace
  unfold PlaceTyped at typed
  rcases isRoot : place.root with ⟨var, value⟩ | pointer
  · rw [isRoot] at typed
    obtain ⟨carries, leads⟩ := typed
    dsimp only
    split_ifs with isEmpty
    · refine makes_pure underway ?_
      rw [← leads.empty (List.isEmpty_iff.1 isEmpty)]
      exact carries
    · refine emit_carries underway ⟨.inl ?_, rfl, .of_plain rfl⟩ ?_ rfl rfl rfl
      · simpa using ⟨carries.whole, leads.whole⟩
      · exact ⟨value, place.path, _, type, rfl, carries, leads, rfl⟩
  · rw [isRoot] at typed
    obtain ⟨whole, steps, points⟩ := typed
    refine Makes.bind (elementPointer_typed underway whole steps points) ?_
    intro element after _ underway ⟨_, points⟩
    exact emit_carries underway points.load trivial rfl rfl rfl

theorem store_typed (isElement : graph.pointee? program pointer = some type)
    (points : graph.Points pointer) (carries : graph.Carries value type) :
    Makes program waiting (emit { opcode := .store, args := [pointer, value] }) graph fun _ _ => True :=
  emit_makes underway (points.store (carries.whole))
    ⟨pointer, value, type, rfl, isElement, carries⟩ rfl fun _ _ _ => trivial

theorem storePlace_typed (typed : graph.PlaceTyped program place type)
    (carries : graph.Carries value type) :
    Makes program waiting (storePlace place value type) graph fun _ _ => True := by
  unfold storePlace
  unfold PlaceTyped at typed
  rcases isRoot : place.root with ⟨var, whole⟩ | pointer
  · rw [isRoot] at typed
    obtain ⟨isWhole, leads⟩ := typed
    dsimp only
    split_ifs with isEmpty
    · refine makes_get_bind (makes_writeVar underway ?_)
      rw [leads.empty (List.isEmpty_iff.1 isEmpty)]
      exact carries
    · refine makes_get_bind ?_
      have inserts : Makes program waiting (emit
          { opcode := .insertValue
            args := whole :: value :: place.path
            type := (graph.value whole).type }) graph fun changed after =>
          after.Carries changed (program.var var).type := by
        refine emit_carries underway ⟨.inl ?_, rfl, .of_plain rfl⟩ ?_ rfl rfl isWhole.1
        · simpa using ⟨isWhole.whole, carries.whole, leads.whole⟩
        · exact ⟨whole, value, place.path, _, rfl, isWhole, isWhole.1⟩
      refine Makes.bind inserts fun changed after _ underway isChanged => ?_
      exact makes_get_bind (makes_writeVar underway isChanged)
  · rw [isRoot] at typed
    obtain ⟨whole, steps, points⟩ := typed
    refine Makes.bind (elementPointer_typed underway whole steps points) ?_
    intro element after grows underway ⟨isElement, points⟩
    refine Makes.bind (store_typed underway isElement points (carries.grows grows)) ?_
    exact fun _ _ _ underway _ => makes_pure underway trivial

theorem variablePlace_typed {var : VarId} {span : Span} :
    Makes program waiting (variablePlace program var span) graph fun place after =>
      after.PlaceTyped program place (program.var var).type := by
  unfold variablePlace
  dsimp only
  split_ifs
  · -- a global variable is the address of its memory
    have address : Makes program waiting (emit
        { opcode := .globalVar, payload := .var var, type := some (program.var var).type }) graph
        fun pointer after => after.pointee? program pointer = some (program.var var).type ∧
          after.Whole pointer := by
      refine emit_makes underway ⟨.inl (by simp), rfl, nofun, nofun, fun _ => ⟨var, rfl⟩⟩ trivial rfl
        fun after _ made => ?_
      have isGlobal : (after.value graph.values.next).opcode = .globalVar := by rw [made]
      refine ⟨?_, whole_of_opcode isGlobal rfl (by decide)⟩
      rw [Graph.pointee?, made]
      rfl
    refine Makes.bind address ?_
    rintro pointer after _ underway ⟨points, whole⟩
    exact makes_pure underway ⟨whole, by simp, fun _ => points⟩
  · refine makes_get_bind (Makes.bind (makes_of_remains underway (readVar_typed underway.typed)) ?_)
    intro value after _ underway carries
    exact makes_pure underway ⟨carries, ⟨by simp, fun _ => rfl, by simp⟩⟩
  · refine makes_get_bind ?_
    split
    · rename_i pointer found
      obtain ⟨isSlot, isType⟩ := underway.typed.slots var pointer found
      refine makes_pure underway ⟨whole_of_opcode isSlot rfl (by decide), by simp, fun _ => ?_⟩
      rw [Graph.pointee?, isSlot]
      exact isType
    · exact makes_refuse

theorem stepPlace_typed {op : UnaryOp} (typed : graph.PlaceTyped program place type)
    (isNumeric : program.isNumeric type = true) :
    Makes program waiting (stepPlace program op place type) graph fun value after =>
      after.Carries value type := by
  refine Makes.bind (loadPlace_typed underway typed) fun old middle grows underway isOld => ?_
  refine Makes.bind (literal_typed underway) fun one last again underway isOne => ?_
  have isOld := isOld.grows again
  have steps (opcode : Opcode) (isStep : opcode = .add ∨ opcode = .sub) :
      Makes program waiting (emit { opcode, args := [old, one], type := some type }) last
        fun value after => after.Carries value type ∧ after.Carries old type := by
    have combines : program.Combines opcode type type type := by
      refine ⟨.inl rfl, ?_, ?_⟩
      · rcases isStep with rfl | rfl <;> rfl
      · rcases Program.numericClass_of_isNumeric isNumeric with class_ | class_ | class_ <;>
          rcases isStep with rfl | rfl <;> exact ⟨_, class_, rfl⟩
    have isBinary : opcode.isBinary = true := by rcases isStep with rfl | rfl <;> rfl
    refine emit_makes underway ⟨.inl ?_, ?_, .of_plain ?_⟩ ?_ ?_ fun after grows made => ?_
    · simpa using ⟨isOld.whole, isOne.whole⟩
    · rcases isStep with rfl | rfl <;> rfl
    · rcases isStep with rfl | rfl <;> rfl
    · exact (accepts_of_isBinary isBinary).2 ⟨old, one, type, type, type, rfl, isOld, isOne, combines, rfl⟩
    · rcases isStep with rfl | rfl <;> rfl
    · refine ⟨?_, isOld.grows grows⟩
      rw [Carries, made]
      rcases isStep with rfl | rfl <;> exact ⟨rfl, rfl⟩
  refine Makes.bind (steps _ ?_) ?_
  · split_ifs
    · exact .inl rfl
    · exact .inr rfl
  · rintro new after growsNew underway ⟨isNew, isOld⟩
    have placed := typed.grows ((grows.trans again).trans growsNew)
    refine Makes.bind (storePlace_typed underway placed isNew) fun _ final growsFinal underway _ => ?_
    refine makes_pure underway ?_
    split_ifs
    · exact isOld.grows growsFinal
    · exact isNew.grows growsFinal

end Build

end Shader
