import Shader.Proofs.Module.Instructed
import Shader.Proofs.Typing.Expression

/-! # Graphs whose operations have instructions

The instruction of an operation is chosen by the type of its first operand.

Replacing an argument changes types: a buffer is a pointer before and an address afterwards. No
operation works on pointers, so this makes no difference to one that has its instruction. -/

set_option mvcgen.warning false

namespace Shader

/-- Whether an operation on one or two operands has an instruction if the first is of a class. -/
def Opcode.computes (opcode : Opcode) (class_ : NumericClass) : Bool :=
  if opcode.isUnary then opcode.convertsClass class_ else (binaryInstruction? opcode class_).isSome

/-- Whether the types of the operands of a value with this opcode matter for its instruction. -/
def Opcode.isChecked (opcode : Opcode) : Bool :=
  opcode.isBinary || opcode.isUnary || opcode == .extractValue

namespace Program

variable {program : Program} {type : TypeId}

theorem numericClass?_of_isPointer (points : program.isPointer type = true) :
    program.numericClass? type = none := by
  unfold isPointer at points
  split at points
  · rename_i isKind
    simp [numericClass?, isVector, vectorWidth?, primitive?, isKind]
  · cases points

theorem members_of_isPointer (points : program.isPointer type = true) : program.members type = [] := by
  unfold isPointer at points
  split at points
  · rename_i isKind
    simp [members, members?, isKind]
  · cases points

end Program

namespace Graph

variable {program : Program} {graph after : Graph} {operation : Operation} {block : BlockId}
  {value old new : ValueId} {type : TypeId}

theorem hasValue_of_isChecked (isChecked : (graph.value value).opcode.isChecked = true ∨
    (graph.value value).opcode = .functionArg) : graph.HasValue value := by
  refine hasValue_of_opcode fun isUndefined => ?_
  rw [isUndefined] at isChecked
  rcases isChecked with isChecked | isArgument
  · cases isChecked
  · cases isArgument

/-! ## Computable graphs -/

/-- The operations of a graph have instructions. Where a value or an operand has no type, nothing is
said. -/
structure Computable (program : Program) (graph : Graph) : Prop where
  present : ∀ value, (graph.value value).opcode.isChecked = true →
    ∀ arg ∈ (graph.value value).args, graph.HasValue arg
  computed : ∀ value operand type,
    (graph.value value).opcode.isBinary = true ∨ (graph.value value).opcode.isUnary = true →
    (graph.value value).args[0]? = some operand → (graph.value operand).type = some type →
    ∃ class_, program.numericClass? type = some class_ ∧ (graph.value value).opcode.computes class_ = true
  reads : ∀ value base marker index type, (graph.value value).opcode = .extractValue →
    (graph.value value).args = [base, marker] → (graph.value marker).payload = .member index →
    (graph.value base).type = some type →
    ∃ member, (program.members type)[index]? = some member ∧ (graph.value value).type = some member.type
  arguments : ∀ value index argument, (graph.value value).opcode = .functionArg →
    (graph.value value).payload = .argument index →
    (program.function graph.function).arguments[index]? = some argument →
    (graph.value value).type = some (program.var argument).type

theorem Typed.computable (typed : graph.Typed program) : graph.Computable program := by
  constructor
  · intro value isChecked arg used
    simp only [Opcode.isChecked, Bool.or_eq_true, beq_iff_eq] at isChecked
    have accepts := typed.accepts value
    rcases isChecked with (isBinary | isUnary) | isRead
    · obtain ⟨left, right, _, _, _, args, isLeft, isRight, -⟩ := (accepts_of_isBinary isBinary).1 accepts
      rw [args] at used
      rcases List.mem_pair.1 used with rfl | rfl
      · exact isLeft.hasValue
      · exact isRight.hasValue
    · obtain ⟨operand, _, args, isOperand, -⟩ := (accepts_of_isUnary isUnary).1 accepts
      rw [args] at used
      rw [List.mem_singleton.1 used]
      exact isOperand.hasValue
    · unfold Accepts at accepts
      rw [isRead] at accepts
      obtain ⟨whole, path, _, _, args, isWhole, leads, -⟩ := accepts
      rw [args] at used
      rcases List.mem_cons.1 used with rfl | onPath
      · exact isWhole.hasValue
      · exact hasValue_of_isMarker (leads.markers arg onPath)
  · rintro value operand type (isBinary | isUnary) isOperand isType
    · obtain ⟨left, right, leftType, rightType, result, args, ⟨typedLeft, -⟩, -, combines, -⟩ :=
        (accepts_of_isBinary isBinary).1 (typed.accepts value)
      obtain rfl : left = operand := by simpa [args] using isOperand
      obtain rfl : leftType = type := Option.some.inj (typedLeft.symm.trans isType)
      obtain ⟨class_, isClass, found⟩ := combines.computed
      refine ⟨class_, isClass, ?_⟩
      have noUnary : (graph.value value).opcode.isUnary = false := by
        revert isBinary
        cases (graph.value value).opcode <;> simp [Opcode.isBinary, Opcode.isUnary]
      rw [Opcode.computes, noUnary]
      exact found
    · obtain ⟨first, firstType, args, ⟨typedFirst, -⟩, ⟨class_, isClass, converts⟩, -⟩ :=
        (accepts_of_isUnary isUnary).1 (typed.accepts value)
      obtain rfl : first = operand := by simpa [args] using isOperand
      obtain rfl : firstType = type := Option.some.inj (typedFirst.symm.trans isType)
      refine ⟨class_, isClass, ?_⟩
      rw [Opcode.computes, if_pos isUnary]
      exact converts
  · intro value base marker index type isRead args isMember isType
    have accepts := typed.accepts value
    unfold Accepts at accepts
    rw [isRead] at accepts
    obtain ⟨whole, path, wholeType, part, parts, ⟨typedWhole, -⟩, leads, typedPart⟩ := accepts
    rw [args] at parts
    cases parts
    obtain rfl : wholeType = type := Option.some.inj (typedWhole.symm.trans isType)
    obtain ⟨member, found, rfl⟩ := leads.member marker index rfl isMember
    exact ⟨member, found, typedPart⟩
  · intro value index argument isArgument payload found
    have accepts := typed.accepts value
    unfold Accepts at accepts
    rw [isArgument] at accepts
    obtain ⟨otherIndex, other, samePayload, foundOther, typedValue⟩ := accepts
    rw [payload] at samePayload
    cases samePayload
    obtain rfl : argument = other := Option.some.inj (found.symm.trans foundOther)
    exact typedValue

/-! ## Changes -/

/-- An operand of one graph can stand for an operand of another: it has the same type, or none, or the
other one is a pointer, and it is no marker that the other one is not. -/
structure StandsFor (program : Program) (graph after : Graph) (arg changed : ValueId) : Prop where
  present : after.HasValue changed
  type : (after.value changed).type = (graph.value arg).type ∨ (after.value changed).type = none ∨
    ∃ pointer, (graph.value arg).type = some pointer ∧ program.isPointer pointer = true
  payload : ∀ index, (after.value changed).payload = .member index → (graph.value arg).payload = .member index

theorem Grows.standsFor (grows : graph.Grows after) (has : graph.HasValue value) :
    StandsFor program graph after value value where
  present := grows.hasValue value has
  type := .inl (grows.sameType has)
  payload index isMember := by rwa [grows.payload has] at isMember

namespace Computable

section Changes

variable (computable : graph.Computable program)

include computable

/-- A change keeps a graph computable if it makes no value that is checked, and lets an operand that is
checked go or puts another one in its place. -/
theorem of_standsFor (grows : graph.Grows after)
    (known : ∀ value, (after.value value).opcode.isChecked = true ∨
      (after.value value).opcode = .functionArg → graph.HasValue value)
    (args : ∀ value, (graph.value value).opcode.isChecked = true → (after.value value).args = [] ∨
      List.Forall₂ (StandsFor program graph after) (graph.value value).args (after.value value).args) :
    after.Computable program := by
  have sameOpcode (value : ValueId) (isChecked : (after.value value).opcode.isChecked = true) :
      (after.value value).opcode = (graph.value value).opcode :=
    grows.opcode (known value (.inl isChecked))
  constructor
  · intro value isChecked arg used
    rw [sameOpcode value isChecked] at isChecked
    rcases args value isChecked with gone | stand
    · rw [gone] at used
      exact absurd used List.not_mem_nil
    · have each : List.Forall₂ (fun changed _ => after.HasValue changed ∧ True)
          (after.value value).args (graph.value value).args :=
        (stand.imp fun _ _ stands => ⟨stands.present, trivial⟩).flip
      exact ((List.forall₂_and_left _ _).1 each).1 arg used
  · intro value operand type isOperation isOperand isType
    have isChecked : (after.value value).opcode.isChecked = true := by
      rcases isOperation with isOperation | isOperation <;> simp [Opcode.isChecked, isOperation]
    have same := sameOpcode value isChecked
    rw [same] at isOperation isChecked ⊢
    rcases args value isChecked with gone | stand
    · rw [gone] at isOperand
      cases isOperand
    · obtain ⟨rest, isArgs⟩ : ∃ rest, (after.value value).args = operand :: rest := by
        cases isArgs : (after.value value).args with
        | nil => simp [isArgs] at isOperand
        | cons first rest =>
          obtain rfl : first = operand := by simpa [isArgs] using isOperand
          exact ⟨rest, rfl⟩
      rw [isArgs] at stand
      obtain ⟨before, others, stands, -, wasArgs⟩ := List.forall₂_cons_right_iff.1 stand
      have wasOperand : (graph.value value).args[0]? = some before := by rw [wasArgs]; rfl
      have known := computable.computed value before
      rcases stands.type with same | none | ⟨pointer, wasType, points⟩
      · exact known type isOperation wasOperand (same ▸ isType)
      · rw [none] at isType
        cases isType
      · obtain ⟨class_, isClass, -⟩ := known pointer isOperation wasOperand wasType
        rw [Program.numericClass?_of_isPointer points] at isClass
        cases isClass
  · intro value base marker index type isRead isArgs isMember isType
    have isChecked : (after.value value).opcode.isChecked = true := by simp [Opcode.isChecked, isRead]
    have has := known value (.inl isChecked)
    rw [grows.opcode has] at isRead isChecked
    rw [grows.sameType has]
    rcases args value isChecked with gone | stand
    · rw [gone] at isArgs
      cases isArgs
    · rw [isArgs] at stand
      obtain ⟨oldBase, rest, standsBase, others, wasArgs⟩ := List.forall₂_cons_right_iff.1 stand
      obtain ⟨oldMarker, last, standsMarker, none, rfl⟩ := List.forall₂_cons_right_iff.1 others
      cases none
      have read := computable.reads value oldBase oldMarker index
      have wasMember := standsMarker.payload index isMember
      rcases standsBase.type with same | none | ⟨pointer, wasType, points⟩
      · exact read type isRead wasArgs wasMember (same ▸ isType)
      · rw [none] at isType
        cases isType
      · obtain ⟨member, found, -⟩ := read pointer isRead wasArgs wasMember wasType
        rw [Program.members_of_isPointer points] at found
        cases found
  · intro value index argument isArgument payload found
    have has := known value (.inr isArgument)
    rw [grows.opcode has] at isArgument
    rw [grows.payload has] at payload
    rw [grows.function] at found
    rw [grows.sameType has]
    exact computable.arguments value index argument isArgument payload found

theorem of_values (function : after.function = graph.function)
    (values : after.values = graph.values) : after.Computable program := by
  have same (value : ValueId) : after.value value = graph.value value := by
    rw [Graph.value, Graph.value, values]
  constructor
  · simpa only [same, HasValue, values] using computable.present
  · simpa only [same] using computable.computed
  · simpa only [same] using computable.reads
  · simpa only [same, function] using computable.arguments

theorem allocate (has : ∀ arg ∈ operation.args, graph.HasValue arg)
    (unchecked : operation.opcode.isChecked = false) (noArgument : operation.opcode ≠ .functionArg) :
    graph.Grows (graph.allocate block operation).2 ∧
      (graph.allocate block operation).2.Computable program := by
  have reads := value_allocate block operation has
  have grows := @grows_allocate graph block operation
  refine ⟨grows, computable.of_standsFor grows (fun value isChecked => ?_) fun value isChecked => ?_⟩
  · rcases (hasValue_allocate block operation value).1 (hasValue_of_isChecked isChecked) with has | isNew
    · exact has
    · rw [reads, if_pos isNew] at isChecked
      simp [unchecked, noArgument] at isChecked
  · right
    rw [reads, if_neg (hasValue_of_isChecked (.inl isChecked)).ne_next]
    exact List.forall₂_same.2 fun arg used =>
      grows.standsFor (computable.present value isChecked arg used)

theorem replaceUses (stands : StandsFor program graph graph old new) :
    graph.Grows (graph.replaceUses old new) ∧ (graph.replaceUses old new).Computable program := by
  have rewrites := @rewrites_replaceUses graph old new
  have grows := @grows_replaceUses graph old new
  refine ⟨grows, computable.of_standsFor grows (fun value isChecked => ?_) fun value isChecked => ?_⟩
  · exact (rewrites.hasValue value).1 (hasValue_of_isChecked isChecked)
  · right
    have exchanged := rewrites.args value
    have present := computable.present value isChecked
    have both := (List.forall₂_and_left _ _).2 ⟨present, exchanged⟩
    refine both.imp fun arg changed ⟨has, same⟩ => ?_
    rcases same with rfl | ⟨rfl, rfl⟩
    · exact grows.standsFor has
    · have there := stands.present
      refine ⟨grows.hasValue _ there, ?_, ?_⟩
      · rw [grows.sameType there]
        exact stands.type
      · rw [grows.payload there]
        exact stands.payload

theorem removeValue (removed : ValueId) : (graph.removeValue removed).Computable program := by
  have rewrites := @rewrites_removeValue graph removed
  have grows := @grows_removeValue graph removed
  refine computable.of_standsFor grows (fun value isChecked => ?_) fun value isChecked => ?_
  · exact (rewrites.hasValue value).1 (hasValue_of_isChecked isChecked)
  · rcases rewrites.args value with same | ⟨-, gone⟩
    · rw [same]
      exact .inr (List.forall₂_same.2 fun arg used =>
        grows.standsFor (computable.present value isChecked arg used))
    · exact .inl gone

end Changes

end Computable

end Graph

/-! ## Writing functions -/

namespace Write

open Std.Do

variable {context : WriteContext} {value : ValueId} (computable : context.graph.Computable context.program)

attribute [local spec] chooses_forM chooses_mapM
attribute [local spec] Emit.freshId Emit.intern Emit.modifySections Emit.declare Emit.declareFresh
  Emit.constantIndex Emit.pointerType Emit.extendedSet Emit.functionId Emit.noteCall Emit.functionType Emit.name
  Emit.addName
attribute [local spec] fail refuse emitting write valueType typeId typeOf argument argumentsFrom numericClass
  memberType noteId label singleOperand shuffleInto scaleVector integerNot

include computable

theorem chooses_binary (isBinary : (context.graph.value value).opcode.isBinary = true) :
    Chooses (binary context value) := by
  have noUnary : (context.graph.value value).opcode.isUnary = false := by
    revert isBinary
    cases (context.graph.value value).opcode <;> simp [Opcode.isBinary, Opcode.isUnary]
  have computed := fun operand type => computable.computed value operand type (.inl isBinary)
  unfold binary
  mvcgen [sameClass]
  all_goals grind [Opcode.computes]

theorem chooses_unary (isUnary : (context.graph.value value).opcode.isUnary = true) :
    Chooses (unary context value) := by
  have computed := fun operand type => computable.computed value operand type (.inr isUnary)
  unfold unary
  mvcgen
  all_goals grind [Opcode.computes, Opcode.convertsClass]

theorem chooses_value (block : BlockId) : Chooses (Write.value context block value) := by
  have binaries := @chooses_binary context value computable
  have unaries := @chooses_unary context value computable
  unfold Write.value
  mvcgen [functionArgument, uniformPointer, stageInput, makeStruct, elementPointer, load, store, extractValue,
    insertValue, swizzle, splat, call, phi, jump, condJump, merge, returnResult, storeOutput, binaries, unaries]
  all_goals grind [Opcode.isBinary, Opcode.isUnary]

theorem chooses_function : Chooses (function context) := by
  have each (block : BlockId) (value : ValueId) : Chooses (Write.value context block value) :=
    chooses_value computable block
  unfold function
  mvcgen [signature, parameterTypes, parameter, bindParameters, bindParameter, addLabel, localVariable, Write.block, each]

end Write

end Shader
