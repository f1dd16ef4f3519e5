import Shader.Span

/-! # Tokens

The words of a source text. A token carries its spelling and the bytes it takes. -/

namespace Shader

attribute [local instance (2000)] Zero.ofOfNat0

inductive TokenKind where
  | float
  | integer
  | identifier
  | punctuator
  | attributeOpen
  | attributeClose
  | endOfInput
  deriving DecidableEq, Repr, Inhabited

def TokenKind.flags : TokenKind → Nat
  | .float => 1
  | .integer => 2
  | _ => 0

structure Token where
  kind : TokenKind
  text : String
  span : Span
  deriving DecidableEq, Repr, Inhabited

namespace Token

/-- The token at the end of a text of a given length, which has no characters. -/
def endOfInput (offset : Nat) : Token :=
  ⟨.endOfInput, "", ⟨offset, offset⟩⟩

def isMark (token : Token) (text : String) : Bool :=
  token.kind == .punctuator && token.text == text

def isWord (token : Token) (text : String) : Bool :=
  token.kind == .identifier && token.text == text

/-- Whether a token of any class has a given spelling; the end of the text has none. -/
def spells (token : Token) (text : String) : Bool :=
  token.kind != .endOfInput && token.text == text

end Token

def byteLength (characters : List Char) : Nat :=
  (characters.map Char.utf8Size).sum

@[simp] theorem byteLength_nil : byteLength [] = 0 := rfl

@[simp] theorem byteLength_cons (character : Char) (rest : List Char) :
    byteLength (character :: rest) = character.utf8Size + byteLength rest := rfl

@[simp] theorem byteLength_append (front back : List Char) :
    byteLength (front ++ back) = byteLength front + byteLength back := by
  simp [byteLength]

end Shader
