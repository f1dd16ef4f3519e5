import Shader.Module.Emitter

/-! # Types, constants and global variables

The declarations that functions refer to. A type or a constant is declared when it is first asked for,
behind everything that it refers to. -/

namespace Shader

attribute [local instance (2000)] instPowNat

/-! ## Layout -/

/-- The room that a type takes in a uniform buffer, in bytes. -/
structure Layout where
  size : Nat
  alignment : Nat
  deriving DecidableEq, Repr

def roundUp (offset alignment : Nat) : Nat :=
  (offset + alignment - 1) / alignment * alignment

theorem dvd_roundUp (offset alignment : Nat) : alignment ∣ roundUp offset alignment := ⟨_, Nat.mul_comm _ _⟩

theorem le_roundUp (offset : Nat) {alignment : Nat} (positive : 0 < alignment) :
    offset ≤ roundUp offset alignment := by
  have split := Nat.div_add_mod (offset + alignment - 1) alignment
  have below := Nat.mod_lt (offset + alignment - 1) positive
  rw [Nat.mul_comm] at split
  simp only [roundUp]
  omega

theorem roundUp_lt (offset : Nat) {alignment : Nat} (positive : 0 < alignment) :
    roundUp offset alignment < offset + alignment := by
  have below := Nat.div_mul_le_self (offset + alignment - 1) alignment
  simp only [roundUp]
  omega

/-- The offsets of members in a row behind an offset, and where the last one ends. -/
def placeMembers (offset : Nat) : List Layout → List Nat × Nat
  | [] => ([], offset)
  | layout :: rest =>
    let start := roundUp offset layout.alignment
    let (offsets, stop) := placeMembers (start + layout.size) rest
    (start :: offsets, stop)

def structAlignment (members : List Layout) : Nat :=
  members.foldl (fun alignment layout => max alignment layout.alignment) 16

def structLayout (members : List Layout) : Layout :=
  let alignment := structAlignment members
  ⟨roundUp (placeMembers 0 members).2 alignment, alignment⟩

def vectorLayout : Nat → Layout
  | 2 => ⟨8, 8⟩
  | 3 => ⟨12, 16⟩
  | _ => ⟨16, 16⟩

/-! ## Constants -/

/-- The bits of a literal as a constant of a type. Integers lose the bits that the type does not have;
floats are rounded to the type. -/
def Literal.bitsAs? : Literal → PrimitiveType → Option UInt64
  | .bool value, .bool => some (if value then 1 else 0)
  | .int value, .int bits _ =>
    some (if bits < 64 then (value.toNat % 2 ^ bits).toUInt64 else value)
  | .single bits, .float 32 => some bits.toUInt64
  | .double bits, .float 64 => some bits
  | .double bits, .float 32 =>
    some (FloatFormat.double.convert .single bits.toNat).toUInt64
  | .single bits, .float 64 =>
    some (FloatFormat.single.convert .double bits.toNat).toUInt64
  | _, _ => none

def constantInstruction (primitive : PrimitiveType) (type : Id) (bits : UInt64) (result : Id) :
    Instruction :=
  match primitive with
  | .bool => .constantBool type result (bits != 0)
  | .int 64 _ | .float 64 => .constant type result [bits.toUInt32, (bits >>> 32).toUInt32]
  | _ => .constant type result [bits.toUInt32]

/-- The literal that a global variable starts with: a literal, or a negated number. -/
def Program.initialLiteral? (program : Program) (init : ExprId) : Option Literal :=
  match (program.expr init).kind with
  | .literal value => some value
  | .unary .negate operand =>
    match (program.expr operand).kind with
    | .literal value => value.negate?
    | _ => none
  | _ => none

def StorageClass.memory : StorageClass → MemoryClass
  | .uniform => .uniform
  | .function => .function

namespace Emit

/-! ## Types -/

def pointerType (memory : MemoryClass) (pointee : Id) : Emit Id :=
  intern (fun emitter => emitter.pointerTypes.find? (memory, pointee)) (fun emitter id =>
      { emitter with pointerTypes := emitter.pointerTypes.insert (memory, pointee) id })
    (declareFresh fun id => .typePointer id memory pointee)

def functionType (returnType : Id) (parameters : List Id) : Emit Id :=
  intern (fun emitter => emitter.functionTypes.find? (returnType, parameters)) (fun emitter id =>
      { emitter with
        functionTypes := emitter.functionTypes.insert (returnType, parameters) id })
    (declareFresh fun id => .typeFunction id returnType parameters)

def requireInteger : Nat → Emit Unit
  | 8 => require .int8
  | 16 => require .int16
  | 64 => require .int64
  | _ => pure ()

def primitiveType : PrimitiveType → Emit Id
  | .void => declareFresh .typeVoid
  | .bool => declareFresh .typeBool
  | .int bits signed => do
    requireInteger bits
    declareFresh fun id => .typeInt id bits.toUInt32 signed
  | .float bits => do
    if bits = 64 then require .float64
    declareFresh fun id => .typeFloat id bits.toUInt32

def structType (name : String) (members : List Member) (types : List Id) : Emit Id := do
  let id ← declareFresh fun id => .typeStruct id types
  Emit.name id name
  members.zipIdx.forM fun (member, index) =>
    addName (.memberName id index.toUInt32 member.name)
  return id

/-- The id of a type of the program, whose parts are nested less than `depth` deep. -/
def typeIdWithin (program : Program) : Nat → TypeId → Emit Id
  | 0, _ => fail .exhausted
  | depth + 1, type =>
    intern (fun emitter => emitter.types.find? type)
      (fun emitter id => { emitter with types := emitter.types.insert type id })
      (match (program.type type).kind with
      | .primitive primitive => primitiveType primitive
      | .struct _ (some width) => do
        let component ← typeIdWithin program depth .f32
        declareFresh fun id => .typeVector id component width.toUInt32
      | .struct members none => do
        let types ← members.mapM fun member => do
          if program.isPointer member.type then
            refuse (.emissionAt member.span .pointerMember)
          else typeIdWithin program depth member.type
        structType (program.typeName type) members types
      | .pointer pointee storage => do
        let pointee ← typeIdWithin program depth pointee
        pointerType storage.memory pointee)

/-- The id of a type of the program. No type is nested deeper than there are types. -/
def typeId (program : Program) (type : TypeId) : Emit Id :=
  typeIdWithin program (program.types.size + 1) type

/-! ## Buffers -/

def decorateMembers (program : Program) (type : TypeId) (offsets : List Nat) : Emit Unit := do
  unless type ∈ (← get).laidOut do
    modify fun emitter => { emitter with laidOut := emitter.laidOut ++ [type] }
    let id ← typeId program type
    offsets.zipIdx.forM fun (offset, index) =>
      memberDecorate id index (.offset offset.toUInt32)

/-- The layout of a type in a uniform buffer, whose parts are nested less than `depth` deep. -/
def uniformLayoutWithin (program : Program) : Nat → TypeId → Emit Layout
  | 0, _ => fail .exhausted
  | depth + 1, type => do
    match (program.type type).kind with
    | .primitive (.int 32 _) | .primitive (.float 32) => return ⟨4, 4⟩
    | .primitive (.int 64 _) | .primitive (.float 64) => return ⟨8, 8⟩
    | .struct _ (some width) => return vectorLayout width
    | .struct members none =>
      let layouts ← members.mapM fun member => uniformLayoutWithin program depth member.type
      decorateMembers program type (placeMembers 0 layouts).1
      return structLayout layouts
    | _ => refuse (.emissionOf (.uniformType (program.typeName type)))

def uniformLayout (program : Program) (type : TypeId) : Emit Layout :=
  uniformLayoutWithin program (program.types.size + 1) type

def uniformWrapper (program : Program) (pointee : TypeId) : Emit Id :=
  intern (fun emitter => emitter.wrappers.find? pointee)
    (fun emitter id => { emitter with wrappers := emitter.wrappers.insert pointee id }) do
    let _ ← uniformLayout program pointee
    let inner ← typeId program pointee
    let id ← declareFresh fun id => .typeStruct id [inner]
    decorate id .block
    memberDecorate id 0 (.offset 0)
    name id (program.typeName pointee ++ "_block")
    return id

/-! ## Constants and variables -/

def constant (program : Program) (type : TypeId) (literal : Literal) : Emit Id := do
  let typeWord ← typeId program type
  match program.primitive? type with
  | none => mismatch
  | some primitive =>
    match literal.bitsAs? primitive with
    | none => mismatch
    | some bits =>
      intern (fun emitter => emitter.constants.find? (typeWord, bits)) (fun emitter id =>
          { emitter with constants := emitter.constants.insert (typeWord, bits) id })
        (declareFresh (constantInstruction primitive typeWord bits))
where
  mismatch : Emit Id := refuse (.emissionOf (.literalMismatch literal.describe (program.typeName type)))

def constantIndex (program : Program) (index : Nat) : Emit Id :=
  constant program .s32 (.int index.toUInt64)

def constantNull (program : Program) (type : TypeId) : Emit Id := do
  let typeWord ← typeId program type
  intern (fun emitter => emitter.nulls.find? typeWord)
    (fun emitter id => { emitter with nulls := emitter.nulls.insert typeWord id })
    (declareFresh (.constantNull typeWord))

def undef (program : Program) (type : TypeId) : Emit Id := do
  let typeWord ← typeId program type
  intern (fun emitter => emitter.undefs.find? typeWord)
    (fun emitter id => { emitter with undefs := emitter.undefs.insert typeWord id })
    (declareFresh (.undef typeWord))

def initializer (program : Program) (init : ExprId) : Emit Id := do
  let expr := program.expr init
  match program.initialLiteral? init with
  | some literal => constant program expr.type literal
  | none => refuse (.emissionAt expr.span .initializerNotConstant)

def initializer? (program : Program) : Option ExprId → Emit (Option Id)
  | some init => do
    let id ← initializer program init
    return some id
  | none => return none

def globalVar (program : Program) (var : VarId) : Emit Id :=
  intern (fun emitter => emitter.globalVars.find? var)
    (fun emitter id => { emitter with globalVars := emitter.globalVars.insert var id }) do
    let node := program.var var
    let pointee ← typeId program node.type
    let pointer ← pointerType .privateData pointee
    let init ← initializer? program node.init
    let id ← declareFresh fun id => .var pointer id .privateData init
    name id node.name
    return id

end Emit

end Shader
