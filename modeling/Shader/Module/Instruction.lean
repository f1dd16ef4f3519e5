import Shader.Module.Word

/-! # Instructions

The instructions of a module. Those that have a result name it by an id, and others refer to it by that
id. -/

namespace Shader

abbrev Id := Word

/-! ## Enumerations -/

inductive Capability where
  | shader
  | float64
  | int64
  | int16
  | int8
  deriving DecidableEq, Repr

def Capability.code : Capability → Word
  | .shader => 1
  | .float64 => 10
  | .int64 => 11
  | .int16 => 22
  | .int8 => 39

inductive MemoryClass where
  | input
  | uniform
  | output
  | privateData
  | function
  deriving DecidableEq, Repr

def MemoryClass.code : MemoryClass → Word
  | .input => 1
  | .uniform => 2
  | .output => 3
  | .privateData => 6
  | .function => 7

inductive ExecutionModel where
  | vertex
  | fragment
  deriving DecidableEq, Repr

def ExecutionModel.code : ExecutionModel → Word
  | .vertex => 0
  | .fragment => 4

inductive Decoration where
  | block
  | fragCoord
  | flat
  | location (number : Word)
  | binding (number : Word)
  | descriptorSet (number : Word)
  | offset (bytes : Word)
  deriving DecidableEq, Repr

def Decoration.words : Decoration → List Word
  | .block => [2]
  | .fragCoord => [11, 15]
  | .flat => [14]
  | .location number => [30, number]
  | .binding number => [33, number]
  | .descriptorSet number => [34, number]
  | .offset bytes => [35, bytes]

inductive UnaryInstruction where
  | fConvert
  | sNegate
  | fNegate
  | logicalNot
  | not
  deriving DecidableEq, Repr

def UnaryInstruction.code : UnaryInstruction → Word
  | .fConvert => 115
  | .sNegate => 126
  | .fNegate => 127
  | .logicalNot => 168
  | .not => 200

inductive BinaryInstruction where
  | iAdd
  | fAdd
  | iSub
  | fSub
  | iMul
  | fMul
  | uDiv
  | sDiv
  | fDiv
  | uMod
  | sRem
  | fRem
  | vectorTimesScalar
  | logicalEqual
  | logicalNotEqual
  | logicalOr
  | logicalAnd
  | iEqual
  | iNotEqual
  | uGreaterThan
  | sGreaterThan
  | uGreaterThanEqual
  | sGreaterThanEqual
  | uLessThan
  | sLessThan
  | uLessThanEqual
  | sLessThanEqual
  | fOrdEqual
  | fOrdNotEqual
  | fOrdLessThan
  | fOrdGreaterThan
  | fOrdLessThanEqual
  | fOrdGreaterThanEqual
  | shiftRightLogical
  | shiftRightArithmetic
  | shiftLeftLogical
  | bitwiseOr
  | bitwiseXor
  | bitwiseAnd
  deriving DecidableEq, Repr

def BinaryInstruction.code : BinaryInstruction → Word
  | .iAdd => 128
  | .fAdd => 129
  | .iSub => 130
  | .fSub => 131
  | .iMul => 132
  | .fMul => 133
  | .uDiv => 134
  | .sDiv => 135
  | .fDiv => 136
  | .uMod => 137
  | .sRem => 138
  | .fRem => 140
  | .vectorTimesScalar => 142
  | .logicalEqual => 164
  | .logicalNotEqual => 165
  | .logicalOr => 166
  | .logicalAnd => 167
  | .iEqual => 170
  | .iNotEqual => 171
  | .uGreaterThan => 172
  | .sGreaterThan => 173
  | .uGreaterThanEqual => 174
  | .sGreaterThanEqual => 175
  | .uLessThan => 176
  | .sLessThan => 177
  | .uLessThanEqual => 178
  | .sLessThanEqual => 179
  | .fOrdEqual => 180
  | .fOrdNotEqual => 182
  | .fOrdLessThan => 184
  | .fOrdGreaterThan => 186
  | .fOrdLessThanEqual => 188
  | .fOrdGreaterThanEqual => 190
  | .shiftRightLogical => 194
  | .shiftRightArithmetic => 195
  | .shiftLeftLogical => 196
  | .bitwiseOr => 197
  | .bitwiseXor => 198
  | .bitwiseAnd => 199

inductive ExtendedFunction where
  | fAbs
  | sin
  | cos
  | atan
  | log
  | length
  deriving DecidableEq, Repr

def ExtendedFunction.code : ExtendedFunction → Word
  | .fAbs => 4
  | .sin => 13
  | .cos => 14
  | .atan => 18
  | .log => 28
  | .length => 66

/-! ## Instructions -/

inductive Instruction where
  | capability (capability : Capability)
  | extInstImport (result : Id) (name : String)
  | memoryModel
  | entryPoint (model : ExecutionModel) (function : Id) (name : String) (interface : List Id)
  | originUpperLeft (function : Id)
  | name (target : Id) (name : String)
  | memberName (target : Id) (member : Word) (name : String)
  | decorate (target : Id) (decoration : Decoration)
  | memberDecorate (target : Id) (member : Word) (decoration : Decoration)
  | typeVoid (result : Id)
  | typeBool (result : Id)
  | typeInt (result : Id) (bits : Word) (signed : Bool)
  | typeFloat (result : Id) (bits : Word)
  | typeVector (result component : Id) (width : Word)
  | typeStruct (result : Id) (members : List Id)
  | typePointer (result : Id) (memory : MemoryClass) (pointee : Id)
  | typeFunction (result returnType : Id) (parameters : List Id)
  | constantBool (type result : Id) (value : Bool)
  | constant (type result : Id) (value : List Word)
  | constantNull (type result : Id)
  | undef (type result : Id)
  | var (type result : Id) (memory : MemoryClass) (init : Option Id)
  | function (returnType result functionType : Id)
  | functionParameter (type result : Id)
  | functionEnd
  | label (result : Id)
  | load (type result pointer : Id)
  | store (pointer value : Id)
  | accessChain (type result base : Id) (indices : List Id)
  | compositeConstruct (type result : Id) (parts : List Id)
  | compositeExtract (type result composite : Id) (path : List Word)
  | compositeInsert (type result part composite : Id) (path : List Word)
  | vectorShuffle (type result first second : Id) (components : List Word)
  | unary (op : UnaryInstruction) (type result operand : Id)
  | binary (op : BinaryInstruction) (type result left right : Id)
  | dot (type result : Id) (vectors : List Id)
  | select (type result condition onTrue onFalse : Id)
  | functionCall (type result function : Id) (args : List Id)
  | extInst (type result set : Id) (function : ExtendedFunction) (args : List Id)
  | phi (type result : Id) (choices : List (Id × Id))
  | loopMerge (merge continueTarget : Id)
  | selectionMerge (merge : Id)
  | branch (target : Id)
  | branchConditional (condition onTrue onFalse : Id)
  | returnVoid
  | returnValue (value : Id)
  | unreachable
  deriving DecidableEq, Repr

inductive Operand where
  | result (id : Id)
  | id (id : Id)
  | literal (word : Word)
  deriving DecidableEq, Repr

def Operand.word : Operand → Word
  | .result target => target
  | .id target => target
  | .literal number => number

namespace Instruction

def opcode : Instruction → Word
  | .capability _ => 17
  | .extInstImport _ _ => 11
  | .memoryModel => 14
  | .entryPoint _ _ _ _ => 15
  | .originUpperLeft _ => 16
  | .name _ _ => 5
  | .memberName _ _ _ => 6
  | .decorate _ _ => 71
  | .memberDecorate _ _ _ => 72
  | .typeVoid _ => 19
  | .typeBool _ => 20
  | .typeInt _ _ _ => 21
  | .typeFloat _ _ => 22
  | .typeVector _ _ _ => 23
  | .typeStruct _ _ => 30
  | .typePointer _ _ _ => 32
  | .typeFunction _ _ _ => 33
  | .constantBool _ _ value => if value then 41 else 42
  | .constant _ _ _ => 43
  | .constantNull _ _ => 46
  | .undef _ _ => 1
  | .var _ _ _ _ => 59
  | .function _ _ _ => 54
  | .functionParameter _ _ => 55
  | .functionEnd => 56
  | .label _ => 248
  | .load _ _ _ => 61
  | .store _ _ => 62
  | .accessChain _ _ _ _ => 65
  | .compositeConstruct _ _ _ => 80
  | .compositeExtract _ _ _ _ => 81
  | .compositeInsert _ _ _ _ _ => 82
  | .vectorShuffle _ _ _ _ _ => 79
  | .unary op _ _ _ => op.code
  | .binary op _ _ _ _ => op.code
  | .dot _ _ _ => 148
  | .select _ _ _ _ _ => 169
  | .functionCall _ _ _ _ => 57
  | .extInst _ _ _ _ _ => 12
  | .phi _ _ _ => 245
  | .loopMerge _ _ => 246
  | .selectionMerge _ => 247
  | .branch _ => 249
  | .branchConditional _ _ _ => 250
  | .returnVoid => 253
  | .returnValue _ => 254
  | .unreachable => 255

def literals (words : List Word) : List Operand :=
  words.map .literal

def ids (ids : List Id) : List Operand :=
  ids.map .id

@[simp] def operands : Instruction → List Operand
  | .capability needed => [.literal needed.code]
  | .extInstImport result text => .result result :: literals (stringWords text)
  | .memoryModel => [.literal 0, .literal 1]
  | .entryPoint model entry text interface =>
    [.literal model.code, .id entry] ++ literals (stringWords text) ++ ids interface
  | .originUpperLeft entry => [.id entry, .literal 7]
  | .name target text => .id target :: literals (stringWords text)
  | .memberName target member text =>
    [.id target, .literal member] ++ literals (stringWords text)
  | .decorate target decoration => .id target :: literals decoration.words
  | .memberDecorate target member decoration =>
    [.id target, .literal member] ++ literals decoration.words
  | .typeVoid result => [.result result]
  | .typeBool result => [.result result]
  | .typeInt result bits signed =>
    [.result result, .literal bits, .literal (if signed then 1 else 0)]
  | .typeFloat result bits => [.result result, .literal bits]
  | .typeVector result component width => [.result result, .id component, .literal width]
  | .typeStruct result members => .result result :: ids members
  | .typePointer result memory pointee => [.result result, .literal memory.code, .id pointee]
  | .typeFunction result returnType parameters =>
    [.result result, .id returnType] ++ ids parameters
  | .constantBool type result _ => [.id type, .result result]
  | .constant type result value => [.id type, .result result] ++ literals value
  | .constantNull type result => [.id type, .result result]
  | .undef type result => [.id type, .result result]
  | .var type result memory init =>
    [.id type, .result result, .literal memory.code] ++ ids init.toList
  | .function returnType result functionType =>
    [.id returnType, .result result, .literal 0, .id functionType]
  | .functionParameter type result => [.id type, .result result]
  | .functionEnd => []
  | .label result => [.result result]
  | .load type result pointer => [.id type, .result result, .id pointer]
  | .store pointer value => [.id pointer, .id value]
  | .accessChain type result base indices =>
    [.id type, .result result, .id base] ++ ids indices
  | .compositeConstruct type result parts => [.id type, .result result] ++ ids parts
  | .compositeExtract type result composite path =>
    [.id type, .result result, .id composite] ++ literals path
  | .compositeInsert type result part composite path =>
    [.id type, .result result, .id part, .id composite] ++ literals path
  | .vectorShuffle type result first second components =>
    [.id type, .result result, .id first, .id second] ++ literals components
  | .unary _ type result operand => [.id type, .result result, .id operand]
  | .binary _ type result left right => [.id type, .result result, .id left, .id right]
  | .dot type result vectors => [.id type, .result result] ++ ids vectors
  | .select type result condition onTrue onFalse =>
    [.id type, .result result, .id condition, .id onTrue, .id onFalse]
  | .functionCall type result callee args =>
    [.id type, .result result, .id callee] ++ ids args
  | .extInst type result set callee args =>
    [.id type, .result result, .id set, .literal callee.code] ++ ids args
  | .phi type result choices =>
    [.id type, .result result] ++ choices.flatMap fun choice => [.id choice.1, .id choice.2]
  | .loopMerge merge continueTarget => [.id merge, .id continueTarget, .literal 0]
  | .selectionMerge merge => [.id merge, .literal 0]
  | .branch target => [.id target]
  | .branchConditional condition onTrue onFalse => [.id condition, .id onTrue, .id onFalse]
  | .returnVoid => []
  | .returnValue value => [.id value]
  | .unreachable => []

def words (instruction : Instruction) : List Word :=
  frame instruction.opcode (instruction.operands.map Operand.word)

end Instruction

/-! ## Ids of instructions -/

namespace Operand

def result? : Operand → Option Id
  | .result target => some target
  | _ => none

def use? : Operand → Option Id
  | .id target => some target
  | _ => none

theorem use?_eq_some {operand : Operand} {target : Id} :
    operand.use? = some target ↔ operand = .id target := by
  cases operand <;> simp [use?]

end Operand

namespace Instruction

def results (instruction : Instruction) : List Id :=
  instruction.operands.filterMap Operand.result?

def uses (instruction : Instruction) : List Id :=
  instruction.operands.filterMap Operand.use?

@[simp] theorem mem_uses {instruction : Instruction} {target : Id} :
    target ∈ instruction.uses ↔ .id target ∈ instruction.operands := by
  simp [uses, Operand.use?_eq_some]

@[simp] theorem id_mem_ids {targets : List Id} {target : Id} :
    .id target ∈ ids targets ↔ target ∈ targets := by
  simp [ids]

@[simp] theorem id_notMem_literals {words : List Word} {target : Id} : .id target ∉ literals words := by
  simp [literals]

@[simp] theorem filterMap_result_cons_result (target : Id) (rest : List Operand) :
    (Operand.result target :: rest).filterMap Operand.result? =
      target :: rest.filterMap Operand.result? := rfl

@[simp] theorem filterMap_result_cons_id (target : Id) (rest : List Operand) :
    (Operand.id target :: rest).filterMap Operand.result? = rest.filterMap Operand.result? := rfl

@[simp] theorem filterMap_result_cons_literal (word : Word) (rest : List Operand) :
    (Operand.literal word :: rest).filterMap Operand.result? = rest.filterMap Operand.result? := rfl

@[simp] theorem filterMap_result_ids (targets : List Id) : (ids targets).filterMap Operand.result? = [] := by
  simp [ids, List.filterMap_map, Function.comp_def, Operand.result?]

@[simp] theorem filterMap_result_literals (words : List Word) :
    (literals words).filterMap Operand.result? = [] := by
  simp [literals, List.filterMap_map, Function.comp_def, Operand.result?]

@[simp] theorem filterMap_result_choices (choices : List (Id × Id)) :
    (choices.flatMap fun choice => [Operand.id choice.1, Operand.id choice.2]).filterMap
      Operand.result? = [] := by
  simp [List.filterMap_flatMap]

end Instruction

end Shader
