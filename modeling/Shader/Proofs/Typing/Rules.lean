import Shader.Module.Selection
import Shader.Proofs.Graph.Lookup

/-! # The types of the values of a graph

Every value has a type of its own, or is an address and has the type of what it points to.

The rules speak of operands only by what a value keeps for good, so they go on to hold when a graph
grows, and when an operand is exchanged for one of the same type. -/

namespace Shader

/-! ## Operations -/

namespace Opcode

/-- Whether a value with this opcode is an address, which has the type of what it points to. -/
def isAddress : Opcode → Bool
  | .globalVar | .alloca | .elementPtr | .uniformPtr => true
  | _ => false

def isComparison : Opcode → Bool
  | .equal | .notEqual | .less | .lessEqual | .greater | .greaterEqual => true
  | _ => false

def isBinary : Opcode → Bool
  | .add | .sub | .mul | .div | .rem | .bitAnd | .bitOr | .bitXor | .shl | .shr | .logicalAnd
  | .logicalOr | .equal | .notEqual | .less | .lessEqual | .greater | .greaterEqual => true
  | _ => false

def isUnary : Opcode → Bool
  | .negate | .logicalNot | .bitNot => true
  | _ => false

/-- Whether an operation on one operand has an instruction for operands of a class. -/
def convertsClass : Opcode → NumericClass → Bool
  | .negate, .float | .negate, .signed | .negate, .unsigned => true
  | .logicalNot, .bool | .logicalNot, .signed | .logicalNot, .unsigned => true
  | .bitNot, .signed | .bitNot, .unsigned => true
  | _, _ => false

end Opcode

namespace Program

/-- The types that a binary operation works on: the operands have the same type, or a vector is
multiplied by a float, and there is an instruction for them. -/
structure Combines (program : Program) (opcode : Opcode) (left right result : TypeId) : Prop where
  operands : left = right ∨ opcode = .mul ∧ program.isVector left = true ∧ (right = .f32 ∨ right = .f64)
  result : result = if opcode.isComparison then .bool else left
  computed : ∃ class_, program.numericClass? left = some class_ ∧
    (binaryInstruction? opcode class_).isSome = true

/-- The types for which an operation on one operand has an instruction. -/
def Converts (program : Program) (opcode : Opcode) (type : TypeId) : Prop :=
  ∃ class_, program.numericClass? type = some class_ ∧ opcode.convertsClass class_ = true

def parameterTypes (program : Program) (function : FunctionId) : List TypeId :=
  (program.function function).arguments.map fun argument => (program.var argument).type

end Program

namespace Graph

variable {program : Program} {graph middle after : Graph} {operation : Operation}
  {value old new : ValueId} {type : TypeId}

/-! ## Rules -/

def Carries (graph : Graph) (value : ValueId) (type : TypeId) : Prop :=
  (graph.value value).type = some type ∧ (graph.value value).opcode.isAddress = false

def pointee? (program : Program) (graph : Graph) (pointer : ValueId) : Option TypeId :=
  if (graph.value pointer).opcode.isAddress then (graph.value pointer).type
  else (graph.value pointer).type.bind program.pointee?

/-- A path of markers leads from a type to a type, as far as paths of at most one step tell. -/
structure PathTo (program : Program) (graph : Graph) (path : List ValueId) (whole part : TypeId) :
    Prop where
  markers : ∀ marker ∈ path, (graph.value marker).opcode.isMarker = true
  empty : path = [] → whole = part
  member : ∀ marker index, path = [marker] → (graph.value marker).payload = .member index →
    ∃ member, (program.members whole)[index]? = some member ∧ member.type = part

/-- An operation follows its typing rule, and an ending has the targets that it needs. Operations that
are not listed have no rule. -/
def Accepts (program : Program) (graph : Graph) (operation : Operation) : Prop :=
  match operation.opcode with
  | .phi =>
    ∃ type, operation.type = some type ∧ ∀ arg ∈ operation.args, graph.Carries arg type
  | .add | .sub | .mul | .div | .rem | .bitAnd | .bitOr | .bitXor | .shl | .shr | .logicalAnd
  | .logicalOr | .equal | .notEqual | .less | .lessEqual | .greater | .greaterEqual =>
    ∃ left right leftType rightType result, operation.args = [left, right] ∧
      graph.Carries left leftType ∧ graph.Carries right rightType ∧
      program.Combines operation.opcode leftType rightType result ∧ operation.type = some result
  | .negate | .logicalNot | .bitNot =>
    ∃ operand type, operation.args = [operand] ∧ graph.Carries operand type ∧
      program.Converts operation.opcode type ∧ operation.type = some type
  | .jump => ∃ target, operation.payload = .target target
  | .condJump =>
    ∃ condition onTrue onFalse, operation.args = [condition] ∧ graph.Carries condition .bool ∧
      operation.payload = .targets onTrue onFalse
  | .returnValue =>
    ∃ result, operation.args = [result] ∧
      graph.Carries result (program.function graph.function).returnType ∧ operation.payload = .none
  | .returnVoid | .unreachable => operation.payload = .none
  | .call =>
    ∃ function, operation.payload = .function function ∧
      List.Forall₂ graph.Carries operation.args (program.parameterTypes function) ∧
      operation.type = some (program.function function).returnType
  | .store =>
    ∃ pointer content type, operation.args = [pointer, content] ∧
      graph.pointee? program pointer = some type ∧ graph.Carries content type
  | .insertValue =>
    ∃ whole part path type, operation.args = whole :: part :: path ∧
      graph.Carries whole type ∧ operation.type = some type
  | .extractValue =>
    ∃ whole path type part, operation.args = whole :: path ∧ graph.Carries whole type ∧
      graph.PathTo program path type part ∧ operation.type = some part
  | .functionArg =>
    ∃ index argument, operation.payload = .argument index ∧
      (program.function graph.function).arguments[index]? = some argument ∧
      operation.type = some (program.var argument).type
  | _ => True

theorem accepts_of_isBinary (isBinary : operation.opcode.isBinary = true) : graph.Accepts program operation ↔
      ∃ left right leftType rightType result, operation.args = [left, right] ∧
        graph.Carries left leftType ∧ graph.Carries right rightType ∧
        program.Combines operation.opcode leftType rightType result ∧
        operation.type = some result := by
  unfold Accepts
  cases opcode : operation.opcode <;> first | rfl | (rw [opcode] at isBinary; cases isBinary)

theorem accepts_of_isUnary (isUnary : operation.opcode.isUnary = true) : graph.Accepts program operation ↔
      ∃ operand type, operation.args = [operand] ∧ graph.Carries operand type ∧
        program.Converts operation.opcode type ∧ operation.type = some type := by
  unfold Accepts
  cases opcode : operation.opcode <;> first | rfl | (rw [opcode] at isUnary; cases isUnary)

structure Typed (program : Program) (graph : Graph) : Prop where
  accepts : ∀ value, graph.Accepts program (graph.value value).toOperation
  bound : ∀ block var value, graph.binding block var = some value → graph.Carries value (program.var var).type
  waiting : ∀ block var phi, (var, phi) ∈ (graph.block block).incomplete →
    (graph.value phi).opcode = .phi ∧ (graph.value phi).type = some (program.var var).type
  slots : ∀ var slot, graph.slot? var = some slot →
    (graph.value slot).opcode = .alloca ∧ (graph.value slot).type = some (program.var var).type
  replaced : ∀ value next, (graph.value value).replacedBy = some next →
    ∀ type, graph.Carries value type → graph.Carries next type
  ending : ∀ block value, (graph.block block).ending = some value → (graph.value value).opcode.isEnding = true

/-! ## Values that are there -/

theorem hasValue_of_type (typed : (graph.value value).type = some type) : graph.HasValue value := by
  by_contra missing
  rw [value_of_not_hasValue missing] at typed
  cases typed

theorem Carries.hasValue (carries : graph.Carries value type) : graph.HasValue value :=
  hasValue_of_type carries.1

theorem hasValue_of_pointee (points : graph.pointee? program value = some type) : graph.HasValue value := by
  unfold pointee? at points
  split_ifs at points
  · exact hasValue_of_type points
  · obtain ⟨pointer, typed, -⟩ := Option.bind_eq_some_iff.1 points
    exact hasValue_of_type typed

theorem hasValue_of_isMarker (isMarker : (graph.value value).opcode.isMarker = true) :
    graph.HasValue value := by
  refine hasValue_of_opcode fun isUndefined => ?_
  rw [isUndefined] at isMarker
  cases isMarker

/-! ## Growth -/

/-- The values of a graph are in another graph of the same function, and are what they were. -/
structure Grows (graph after : Graph) : Prop where
  function : after.function = graph.function
  hasValue : ∀ value, graph.HasValue value → after.HasValue value
  nature : ∀ value, graph.HasValue value → (after.value value).nature = (graph.value value).nature

theorem Grows.refl : graph.Grows graph := ⟨rfl, fun _ has => has, fun _ _ => rfl⟩

theorem Grows.trans (first : graph.Grows middle) (second : middle.Grows after) : graph.Grows after where
  function := second.function.trans first.function
  hasValue value has := second.hasValue value (first.hasValue value has)
  nature value has := (second.nature value (first.hasValue value has)).trans (first.nature value has)

section Grows

variable (grows : graph.Grows after) (has : graph.HasValue value)

include grows has

theorem Grows.opcode : (after.value value).opcode = (graph.value value).opcode :=
  Value.opcode_of_nature (grows.nature value has)

theorem Grows.sameType : (after.value value).type = (graph.value value).type :=
  Value.type_of_nature (grows.nature value has)

theorem Grows.payload : (after.value value).payload = (graph.value value).payload :=
  Value.payload_of_nature (grows.nature value has)

theorem Grows.carries_iff : after.Carries value type ↔ graph.Carries value type := by
  rw [Carries, Carries, grows.opcode has, grows.sameType has]

end Grows

theorem Carries.grows (carries : graph.Carries value type) (grows : graph.Grows after) :
    after.Carries value type :=
  (grows.carries_iff carries.hasValue).2 carries

theorem Grows.pointee (grows : graph.Grows after) (points : graph.pointee? program value = some type) :
    after.pointee? program value = some type := by
  have has := hasValue_of_pointee points
  unfold pointee? at points ⊢
  rwa [grows.opcode has, grows.sameType has]

theorem PathTo.grows {path : List ValueId} {whole part : TypeId}
    (leads : graph.PathTo program path whole part) (grows : graph.Grows after) :
    after.PathTo program path whole part where
  markers marker found := by
    have isMarker := leads.markers marker found
    rwa [grows.opcode (hasValue_of_isMarker isMarker)]
  empty := leads.empty
  member marker index single isMember := by
    have isMarker := leads.markers marker (by simp [single])
    rw [grows.payload (hasValue_of_isMarker isMarker)] at isMember
    exact leads.member marker index single isMember

theorem Accepts.grows (accepts : graph.Accepts program operation) (grows : graph.Grows after) :
    after.Accepts program operation := by
  unfold Accepts at accepts ⊢
  split at accepts
  · obtain ⟨type, typed, same⟩ := accepts
    exact ⟨type, typed, fun arg used => (same arg used).grows grows⟩
  iterate 18
    obtain ⟨left, right, leftType, rightType, result, args, isLeft, isRight, rest⟩ := accepts
    exact ⟨left, right, leftType, rightType, result, args, isLeft.grows grows, isRight.grows grows, rest⟩
  iterate 3
    obtain ⟨operand, type, args, isOperand, rest⟩ := accepts
    exact ⟨operand, type, args, isOperand.grows grows, rest⟩
  · exact accepts
  · obtain ⟨condition, onTrue, onFalse, args, isCondition, payload⟩ := accepts
    exact ⟨condition, onTrue, onFalse, args, isCondition.grows grows, payload⟩
  · obtain ⟨result, args, isResult, payload⟩ := accepts
    refine ⟨result, args, ?_, payload⟩
    rw [grows.function]
    exact isResult.grows grows
  iterate 2 exact accepts
  · obtain ⟨function, payload, args, typed⟩ := accepts
    exact ⟨function, payload, args.imp fun _ _ carries => carries.grows grows, typed⟩
  · obtain ⟨pointer, content, type, args, points, isContent⟩ := accepts
    exact ⟨pointer, content, type, args, grows.pointee points, isContent.grows grows⟩
  · obtain ⟨whole, part, path, type, args, isWhole, typed⟩ := accepts
    exact ⟨whole, part, path, type, args, isWhole.grows grows, typed⟩
  · obtain ⟨whole, path, type, part, args, isWhole, leads, typed⟩ := accepts
    exact ⟨whole, path, type, part, args, isWhole.grows grows, leads.grows grows, typed⟩
  · rw [grows.function]
    exact accepts
  · trivial

/-! ## Exchanged operands -/

def Exchanged (old new : ValueId) : List ValueId → List ValueId → Prop :=
  List.Forall₂ fun arg changed => changed = arg ∨ arg = old ∧ changed = new

theorem Exchanged.refl (args : List ValueId) : Exchanged old new args args :=
  List.forall₂_same.2 fun _ _ => .inl rfl

theorem Exchanged.trans {args between changed : List ValueId} (first : Exchanged old new args between)
    (second : Exchanged old new between changed) : Exchanged old new args changed := by
  induction first generalizing changed with
  | nil => exact second
  | cons same _ ih =>
    obtain ⟨last, rest, again, others, rfl⟩ := List.forall₂_cons_left_iff.1 second
    refine .cons ?_ (ih others)
    rcases same with rfl | ⟨isOld, rfl⟩
    · exact again
    · exact .inr ⟨isOld, again.elim id fun exchanged => exchanged.2⟩

theorem exchanged_map (args : List ValueId) : Exchanged old new args (args.map (exchange old new)) := by
  refine List.forall₂_map_right_iff.2 (List.forall₂_same.2 fun arg _ => ?_)
  unfold exchange
  split_ifs with isOld
  · exact .inr ⟨isOld, rfl⟩
  · exact .inl rfl

theorem Exchanged.exists_mem {args changed : List ValueId} (exchanged : Exchanged old new args changed)
    (found : value ∈ changed) : ∃ arg ∈ args, value = arg ∨ arg = old ∧ value = new := by
  induction exchanged with
  | nil => exact absurd found List.not_mem_nil
  | cons related _ ih =>
    rcases List.mem_cons.1 found with rfl | found
    · exact ⟨_, List.mem_cons_self, related⟩
    · obtain ⟨arg, inside, related⟩ := ih found
      exact ⟨arg, List.mem_cons_of_mem _ inside, related⟩

section Exchange

variable {args : List ValueId} (isPhi : (graph.value old).opcode = .phi)
  (alike : ∀ type, graph.Carries old type → graph.Carries new type)

include alike in
theorem Carries.exchange {changed : ValueId} (carries : graph.Carries value type)
    (exchanged : changed = value ∨ value = old ∧ changed = new) : graph.Carries changed type := by
  rcases exchanged with rfl | ⟨rfl, rfl⟩
  · exact carries
  · exact alike type carries

include alike in
theorem Carries.exchange_all {args changed : List ValueId} {types : List TypeId}
    (same : List.Forall₂ graph.Carries args types) (exchanged : Exchanged old new args changed) :
    List.Forall₂ graph.Carries changed types := by
  induction same generalizing changed with
  | nil =>
    cases exchanged
    exact .nil
  | cons carries _ ih =>
    obtain ⟨first, rest, related, others, rfl⟩ := List.forall₂_cons_left_iff.1 exchanged
    exact .cons (carries.exchange alike related) (ih others)

include isPhi alike in
theorem pointee_exchange {changed : ValueId} (points : graph.pointee? program value = some type)
    (exchanged : changed = value ∨ value = old ∧ changed = new) :
    graph.pointee? program changed = some type := by
  rcases exchanged with rfl | ⟨rfl, rfl⟩
  · exact points
  · -- a phi is no address, so it has a pointer type, which is that of the new value as well
    have noAddress : (graph.value value).opcode.isAddress = false := by rw [isPhi]; rfl
    rw [pointee?, noAddress, if_neg Bool.false_ne_true] at points
    obtain ⟨pointer, typed, target⟩ := Option.bind_eq_some_iff.1 points
    obtain ⟨typedNew, noAddressNew⟩ := alike pointer ⟨typed, noAddress⟩
    rw [pointee?, noAddressNew, if_neg Bool.false_ne_true, typedNew]
    exact target

include isPhi in
theorem PathTo.exchange {path changed : List ValueId} {whole part : TypeId}
    (leads : graph.PathTo program path whole part) (exchanged : Exchanged old new path changed) :
    changed = path := by
  have markers := leads.markers
  clear leads
  induction exchanged with
  | nil => rfl
  | @cons marker changed path rest same _ ih =>
    rw [ih fun marker found => markers marker (List.mem_cons_of_mem _ found)]
    rcases same with rfl | ⟨rfl, -⟩
    · rfl
    · have isMarker := markers marker List.mem_cons_self
      rw [isPhi] at isMarker
      cases isMarker

include isPhi alike in
theorem Accepts.exchange (accepts : graph.Accepts program operation)
    (exchanged : Exchanged old new operation.args args) :
    graph.Accepts program { operation with args } := by
  unfold Accepts at accepts ⊢
  dsimp only
  split at accepts
  · obtain ⟨type, typed, same⟩ := accepts
    refine ⟨type, typed, fun arg used => ?_⟩
    obtain ⟨before, usedBefore, related⟩ := exchanged.exists_mem used
    exact (same before usedBefore).exchange alike related
  iterate 18
    obtain ⟨left, right, leftType, rightType, result, before, isLeft, isRight, rest⟩ := accepts
    rw [before] at exchanged
    obtain ⟨newLeft, tail, sameLeft, others, rfl⟩ := List.forall₂_cons_left_iff.1 exchanged
    obtain ⟨newRight, last, sameRight, none, rfl⟩ := List.forall₂_cons_left_iff.1 others
    cases none
    exact ⟨newLeft, newRight, leftType, rightType, result, rfl, isLeft.exchange alike sameLeft,
      isRight.exchange alike sameRight, rest⟩
  iterate 3
    obtain ⟨operand, type, before, isOperand, rest⟩ := accepts
    rw [before] at exchanged
    obtain ⟨newOperand, tail, same, none, rfl⟩ := List.forall₂_cons_left_iff.1 exchanged
    cases none
    exact ⟨newOperand, type, rfl, isOperand.exchange alike same, rest⟩
  · exact accepts
  · obtain ⟨condition, onTrue, onFalse, before, isCondition, payload⟩ := accepts
    rw [before] at exchanged
    obtain ⟨newCondition, tail, same, none, rfl⟩ := List.forall₂_cons_left_iff.1 exchanged
    cases none
    exact ⟨newCondition, onTrue, onFalse, rfl, isCondition.exchange alike same, payload⟩
  · obtain ⟨result, before, isResult, payload⟩ := accepts
    rw [before] at exchanged
    obtain ⟨newResult, tail, same, none, rfl⟩ := List.forall₂_cons_left_iff.1 exchanged
    cases none
    exact ⟨newResult, rfl, isResult.exchange alike same, payload⟩
  iterate 2 exact accepts
  · obtain ⟨function, payload, same, typed⟩ := accepts
    exact ⟨function, payload, Carries.exchange_all alike same exchanged, typed⟩
  · obtain ⟨pointer, content, type, before, points, isContent⟩ := accepts
    rw [before] at exchanged
    obtain ⟨newPointer, tail, samePointer, others, rfl⟩ := List.forall₂_cons_left_iff.1 exchanged
    obtain ⟨newContent, last, sameContent, none, rfl⟩ := List.forall₂_cons_left_iff.1 others
    cases none
    exact ⟨newPointer, newContent, type, rfl, pointee_exchange isPhi alike points samePointer,
      isContent.exchange alike sameContent⟩
  · obtain ⟨whole, part, path, type, before, isWhole, typed⟩ := accepts
    rw [before] at exchanged
    obtain ⟨newWhole, tail, sameWhole, others, rfl⟩ := List.forall₂_cons_left_iff.1 exchanged
    obtain ⟨newPart, newPath, -, -, rfl⟩ := List.forall₂_cons_left_iff.1 others
    exact ⟨newWhole, newPart, newPath, type, rfl, isWhole.exchange alike sameWhole, typed⟩
  · obtain ⟨whole, path, type, part, before, isWhole, leads, typed⟩ := accepts
    rw [before] at exchanged
    obtain ⟨newWhole, newPath, sameWhole, others, rfl⟩ := List.forall₂_cons_left_iff.1 exchanged
    obtain rfl := leads.exchange isPhi others
    exact ⟨newWhole, newPath, type, part, rfl, isWhole.exchange alike sameWhole, leads, typed⟩
  · exact accepts
  · trivial

end Exchange

end Graph

end Shader
