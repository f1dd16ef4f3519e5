import Shader.Operator

/-! # Causes of failure

What can be wrong with a source, one inductive type for each stage that can refuse it. The wording of
every message stands here, in one `message` function for each type. -/

namespace Shader

def quoted (text : String) : String :=
  "'" ++ text ++ "'"

inductive LexicalCause where
  | unterminatedComment
  | unexpectedCharacter (character : Char)
  deriving DecidableEq, Repr

def LexicalCause.message : LexicalCause → String
  | .unterminatedComment => "Unterminated block comment."
  | .unexpectedCharacter character =>
    "Unexpected character " ++ quoted (String.singleton character) ++ "."

inductive GrammarCause where
  | expected (text : String)
  | expectedDeclarator
  | expectedCommaOrSemicolon
  | expectedComma
  | expectedFunctionBody
  | expectedClosingParenthesis
  | expectedClosingBracket
  | expectedIdentifier (found : String)
  | expectedExpression (found : String)
  | expectedInitializer (found : String)
  | returnOutsideFunction
  | malformedInteger
  deriving DecidableEq, Repr

def GrammarCause.message : GrammarCause → String
  | .expected text => "Expected " ++ text
  | .expectedDeclarator => "Expected ( or , or ; or ="
  | .expectedCommaOrSemicolon => "Expected , or ;"
  | .expectedComma => "Expected ','"
  | .expectedFunctionBody => "Expected ; or \x7b after function header"
  | .expectedClosingParenthesis => "Expected ')'."
  | .expectedClosingBracket => "Expected a ]"
  | .expectedIdentifier found => "Expected identifier, got " ++ quoted found ++ "."
  | .expectedExpression found => "Expected expression, got " ++ quoted found ++ "."
  | .expectedInitializer found => "Expected struct initializer, got " ++ quoted found ++ "."
  | .returnOutsideFunction => "return must be inside a function"
  | .malformedInteger => "Could not parse integer literal."

/-- Why phrases do not fit together. Types are given by their names. -/
inductive TypingCause where
  | unknownType
  | unknownIdentifier
  | storageClassRepeated
  | storageClassMissing
  | attributedGlobal
  | attributedLocal
  | voidVariable
  | voidArgument
  | initializerMismatch (expected actual : String)
  | duplicateMember (name : String)
  | duplicateGlobal (name : String)
  | alreadyDeclared (name : String)
  | conditionNotBool (actual : String)
  | returnMismatch (expected actual : String)
  | returnMissing
  | positionRepeated
  | positionNotFloat4
  | attributeArguments (name : String) (count : Nat)
  | uniformArguments
  | metalArguments
  | colorArguments (count : Nat)
  | unknownAttribute
  | attributeOperator (token : String)
  | attributeNotLiteral (actual : String)
  | indexNegative (value : Int)
  | indexTooLarge (value : Int)
  | attributeUnused (name : String)
  | functionKindRepeated
  | vertexResult
  | fragmentResult
  | colorRepeated
  | colorMissing
  | colorIndexUsed (index : Nat)
  | unexpectedEntryArgument
  | stageInputNotStruct
  | stageInputRepeated
  | bufferNotPointer
  | uniformRepeated
  | metalBufferRepeated
  | metalConstantRepeated
  | unexpectedAttribute
  | uniformMissing
  | metalMissing
  | metalIndexUsed (index : Nat)
  | vulkanBindingUsed (set binding : Nat)
  | ternaryCondition (actual : String)
  | ternaryMismatch (expected actual : String)
  | assignmentTarget (token : String)
  | voidOperand (token : String)
  | vectorOperator (token type : String)
  | vectorOperand (token right left : String)
  | operandDomain (token : String) (domain : OperandDomain) (actual : String)
  | operandMismatch (expected actual : String)
  | structExpected (actual : String)
  | initializerExceeded (type : String) (members : Nat)
  | initializerCount (expected actual : Nat)
  | entryPointCalled (name : String)
  | argumentCount (expected : Nat) (name : String) (actual : Nat)
  | argumentMismatch (expected actual : String)
  | pointerOperand (actual : String)
  | locationOperand (token : String)
  | swizzleAddress
  | integerOperand (token : String)
  | numericOperand (token actual : String)
  | numericTrailingOperand (token actual : String)
  | memberOfNonStruct (actual : String)
  | invalidSwizzle (name : String)
  | memberMissing (name type : String)
  | indexedNonPointer (actual : String)
  | indexNotInteger (actual : String)
  deriving DecidableEq, Repr

def TypingCause.message : TypingCause → String
  | .unknownType => "Could not find type."
  | .unknownIdentifier => "Unknown identifier."
  | .storageClassRepeated =>
    "Vulkan storage class must be specified for pointer type only once"
  | .storageClassMissing => "Vulkan storage class must be specified for pointer type."
  | .attributedGlobal => "Global variables cannot have attributes"
  | .attributedLocal => "Local variables cannot have attributes"
  | .voidVariable => "Variables cannot have type 'void'."
  | .voidArgument => "Arguments cannot have type 'void'."
  | .initializerMismatch expected actual =>
    "Initializer type mismatch, expected " ++ quoted expected ++ " but got " ++ quoted actual ++ "."
  | .duplicateMember name => "Duplicate member " ++ quoted name ++ "."
  | .duplicateGlobal name => "Duplicate global variable " ++ quoted name
  | .alreadyDeclared name => quoted name ++ " is already declared in this scope."
  | .conditionNotBool actual => "Condition must be bool, but it's " ++ quoted actual
  | .returnMismatch expected actual =>
    "Expected return type " ++ quoted expected ++ " but got " ++ quoted actual
  | .returnMissing => "Expected return statement"
  | .positionRepeated => "Position attribute can only be specified once."
  | .positionNotFloat4 => "Position attribute can only be specified for float4 member."
  | .attributeArguments name count =>
    s!"Expected 0 arguments for {name} attribute, got {count}"
  | .uniformArguments => "Expected (set, binding) or (set)."
  | .metalArguments => "Expected (index)."
  | .colorArguments count => s!"Expected 1 argument for color attribute, got {count}"
  | .unknownAttribute => "Unknown attribute"
  | .attributeOperator token => "Unexpected unary operator " ++ quoted token
  | .attributeNotLiteral actual => "Expected literal, got " ++ quoted actual
  | .indexNegative value => s!"Expected >= 0, got {value}."
  | .indexTooLarge value => s!"Expected <= 4294967295, got {value}."
  | .attributeUnused name => "Attribute " ++ quoted name ++ " is not used."
  | .functionKindRepeated => "Function kind already defined."
  | .vertexResult => "Vertex function must return void."
  | .fragmentResult => "Fragment function must return void, float4, or struct."
  | .colorRepeated => "Color attribute is already specified."
  | .colorMissing => "Color attribute must be specified."
  | .colorIndexUsed index => s!"Color index ({index}) is already used."
  | .unexpectedEntryArgument => "Unexpected entry point argument."
  | .stageInputNotStruct => "Expected struct type for a stage_in argument."
  | .stageInputRepeated => "Stage_in argument is already specified."
  | .bufferNotPointer => "Expected pointer type for a buffer."
  | .uniformRepeated => "Vk uniform attribute is already specified."
  | .metalBufferRepeated => "Metal buffer attribute is already specified."
  | .metalConstantRepeated => "Metal constant attribute is already specified."
  | .unexpectedAttribute => "Unexpected attribute."
  | .uniformMissing => "Vk uniform attribute must be specified."
  | .metalMissing => "Metal buffer attribute must be specified."
  | .metalIndexUsed index => s!"Metal buffer index ({index}) is already used."
  | .vulkanBindingUsed set binding =>
    s!"Vulkan set/binding ({set}, {binding}) is already used."
  | .ternaryCondition actual => "Ternary condition must be bool, but it's " ++ quoted actual
  | .ternaryMismatch expected actual =>
    "Ternary expression type mismatch, expected " ++ quoted expected ++ " but got " ++ quoted actual ++ "."
  | .assignmentTarget token => "Left side of " ++ quoted token ++ " must be an lvalue."
  | .voidOperand token => "Cannot apply operator " ++ quoted token ++ " to void"
  | .vectorOperator token type =>
    "Operator " ++ quoted token ++ " cannot be applied to " ++ quoted type ++ "."
  | .vectorOperand token right left =>
    "Operator " ++ quoted token ++
      " for vector requires rhs to be float or double or matching vector type, got " ++
      quoted right ++ ". lhs type = " ++ quoted left
  | .operandDomain token domain actual =>
    "Operator " ++ quoted token ++ " can only be applied to " ++ domain.adjective ++
      " types, got " ++ quoted actual ++ "."
  | .operandMismatch expected actual =>
    "Binary expression type mismatch, expected " ++ quoted expected ++ " but got " ++ quoted actual
  | .structExpected actual => "Expected struct type but got " ++ quoted actual
  | .initializerExceeded type members =>
    "Exceeded arguments count in initializer, struct " ++ quoted type ++
      s!" has {members} members."
  | .initializerCount expected actual =>
    s!"Expected {expected} arguments in initializer but got " ++ quoted (toString actual) ++ "."
  | .entryPointCalled name => "Entry point " ++ quoted name ++ " cannot be called."
  | .argumentCount expected name actual =>
    s!"Expected {expected} arguments in call to " ++ quoted name ++ s!" but got {actual}."
  | .argumentMismatch expected actual =>
    "Argument type mismatch, expected " ++ quoted expected ++ " but got " ++ quoted actual ++ "."
  | .pointerOperand actual =>
    "Operator '*' can only be applied to pointer types, got " ++ quoted actual
  | .locationOperand token => "Operator " ++ quoted token ++ " can only be applied to lvalues."
  | .swizzleAddress => "Cannot take an address of a swizzle"
  | .integerOperand token =>
    "Operator " ++ quoted token ++ " can only be applied to integer types."
  | .numericOperand token actual =>
    "Operator " ++ quoted token ++ " can only be applied to numeric types, got " ++ quoted actual ++ "."
  | .numericTrailingOperand token actual =>
    "Operator " ++ quoted token ++ " can only be applied to numeric types. Got " ++ quoted actual ++ "."
  | .memberOfNonStruct actual => "Expected a struct, got " ++ quoted actual
  | .invalidSwizzle name => "Invalid swizzle " ++ quoted name ++ "."
  | .memberMissing name type =>
    "Member " ++ quoted name ++ " not found in struct " ++ quoted type ++ "."
  | .indexedNonPointer actual => "Expected an array or pointer, got " ++ quoted actual
  | .indexNotInteger actual => "Array index must be an integer, got " ++ quoted actual

inductive LoweringCause where
  | bodyMissing (name : String)
  | resultMissing (name : String)
  | storageMissing (name : String)
  | targetInvalid
  | operatorUnsupported (token : String)
  | addressUnsupported
  | dereferenceMisplaced
  deriving DecidableEq, Repr

def LoweringCause.message : LoweringCause → String
  | .bodyMissing name => "Function " ++ quoted name ++ " has no body"
  | .resultMissing name =>
    "Function " ++ quoted name ++ " reaches its end without returning a value"
  | .storageMissing name => "Variable " ++ quoted name ++ " has no storage"
  | .targetInvalid => "Expression cannot be assigned to"
  | .operatorUnsupported token => "Operator " ++ quoted token ++ " has no SSA form"
  | .addressUnsupported => "Taking the address of a value is not supported"
  | .dereferenceMisplaced => "Dereference outside of a dereference expression"

/-- Why a value graph has no instructions. Values and blocks are given by their numbers. -/
inductive EmissionCause where
  | pointerMember
  | uniformType (type : String)
  | literalMismatch (literal type : String)
  | initializerNotConstant
  | calleeUndefined (name : String)
  | bufferNotPointer (name : String)
  | colorMissing (name : String)
  | argumentIndexMissing (value : Nat)
  | argumentIndexRange (index : Nat)
  | unexpectedEntryArgument (name : String)
  | interfaceMissing (name : String)
  | pointerResult
  | pointerArgument
  | pointerVariable (type : String)
  | endingMissing (block : String)
  | labelMissing (block : Nat)
  | typeMissing (value : Nat)
  | markerOperand (value : Nat)
  | pointerExpected (value : Nat) (opcode : String)
  | arithmeticUnsupported (type : String)
  | memberMissing (type : String) (member : Nat)
  | pathElement (value : Nat)
  | argumentRemains (value : Nat)
  | uniformVariableMissing (value : Nat)
  | uniformUnbound (name : String)
  | inputMemberMissing (value : Nat)
  | inputMissing (member : Nat)
  | componentsMissing (value : Nat)
  | phiArity (value operands predecessors : Nat)
  | targetMissing (value : Nat)
  | targetsMissing (value : Nat)
  | bufferIndex
  | calleeMissing (value : Nat)
  | entryPointCalled (name : String)
  | hsvUnsupported
  | instructionMissing (opcode operands : String)
  deriving DecidableEq, Repr

def EmissionCause.message : EmissionCause → String
  | .pointerMember => "Pointer members are not supported"
  | .uniformType type => "Type " ++ quoted type ++ " cannot be used in a uniform buffer"
  | .literalMismatch literal type =>
    s!"Literal {literal} does not fit type " ++ quoted type
  | .initializerNotConstant => "Global initializers must be constant"
  | .calleeUndefined name => "Function " ++ quoted name ++ " is called but never defined"
  | .bufferNotPointer name => "Buffer argument " ++ quoted name ++ " is not a pointer"
  | .colorMissing name => "Fragment output member " ++ quoted name ++ " has no color index"
  | .argumentIndexMissing value => s!"Function argument %{value} has no index"
  | .argumentIndexRange index => s!"Function argument index {index} is out of range"
  | .unexpectedEntryArgument name => "Unexpected entry point argument " ++ quoted name
  | .interfaceMissing name => "Entry point " ++ quoted name ++ " has no declared interface"
  | .pointerResult => "Functions cannot return pointers"
  | .pointerArgument => "Pointer arguments are only supported on entry points"
  | .pointerVariable type =>
    "Variables of pointer type " ++ quoted type ++ " are not supported"
  | .endingMissing block => "Block " ++ quoted block ++ " has no terminator"
  | .labelMissing block => s!"Block {block} has no label"
  | .typeMissing value => s!"Value %{value} has no type"
  | .markerOperand value => s!"Path marker %{value} used as a value"
  | .pointerExpected value opcode => s!"%{value} ({opcode}) is not a pointer"
  | .arithmeticUnsupported type => "No arithmetic on type " ++ quoted type
  | .memberMissing type member => "Type " ++ quoted type ++ s!" has no member {member}"
  | .pathElement value => s!"Unsupported path element %{value}"
  | .argumentRemains value => s!"Entry point argument %{value} was not rewritten"
  | .uniformVariableMissing value => s!"Uniform pointer %{value} has no variable"
  | .uniformUnbound name => "No uniform buffer is bound to " ++ quoted name
  | .inputMemberMissing value => s!"Stage input %{value} has no member"
  | .inputMissing member => s!"No input variable for stage_in member {member}"
  | .componentsMissing value => s!"Swizzle %{value} has no components"
  | .phiArity value operands predecessors =>
    s!"Phi %{value} has {operands} operands for {predecessors} predecessors"
  | .targetMissing value => s!"Jump %{value} has no target"
  | .targetsMissing value => s!"Conditional jump %{value} has no targets"
  | .bufferIndex => "Only index 0 is supported on a buffer pointer"
  | .calleeMissing value => s!"Call %{value} has no callee"
  | .entryPointCalled name => "Entry point " ++ quoted name ++ " cannot be called"
  | .hsvUnsupported => "Intrinsic 'hsv' has no SPIR-V lowering"
  | .instructionMissing opcode operands => s!"No {opcode} instruction for {operands} operands"

end Shader
