/-! # Words

A module is a sequence of words of 32 bits. An instruction takes a head word, with its number of words
in the high half and its opcode in the low half, and a word for each operand. A text takes as many words
as its bytes and a zero byte need, lowest byte first. -/

namespace Shader

abbrev Word := UInt32

def wordOfBytes (first second third fourth : UInt8) : Word :=
  first.toUInt32 ||| (second.toUInt32 <<< 8) ||| (third.toUInt32 <<< 16) ||| (fourth.toUInt32 <<< 24)

def bytesOfWord (word : Word) : List UInt8 :=
  [word.toUInt8, (word >>> 8).toUInt8, (word >>> 16).toUInt8, (word >>> 24).toUInt8]

/-- The words of some bytes and a zero byte behind them. The last word is filled up with zeros. -/
def terminatedWords : List UInt8 → List Word
  | [] => [0]
  | [first] => [wordOfBytes first 0 0 0]
  | [first, second] => [wordOfBytes first second 0 0]
  | [first, second, third] => [wordOfBytes first second third 0]
  | first :: second :: third :: fourth :: rest =>
    wordOfBytes first second third fourth :: terminatedWords rest

def stringWords (text : String) : List Word :=
  terminatedWords text.toUTF8.toList

/-- The words of an instruction. The number of words is kept modulo 2 to the 16th. -/
def frame (opcode : Word) (operands : List Word) : List Word :=
  (opcode ||| ((operands.length.toUInt32 + 1) <<< 16)) :: operands

def littleEndian (words : List Word) : List UInt8 :=
  words.flatMap bytesOfWord

/-! ## Lengths -/

@[simp] theorem length_bytesOfWord (word : Word) : (bytesOfWord word).length = 4 := rfl

@[simp] theorem length_terminatedWords (bytes : List UInt8) :
    (terminatedWords bytes).length = bytes.length / 4 + 1 := by
  fun_induction terminatedWords bytes with
  | case5 first second third fourth rest induction =>
    simp only [List.length_cons, induction]
    omega
  | _ => simp

@[simp] theorem length_frame (opcode : Word) (operands : List Word) :
    (frame opcode operands).length = operands.length + 1 := rfl

@[simp] theorem littleEndian_nil : littleEndian [] = [] := rfl

@[simp] theorem littleEndian_cons (word : Word) (words : List Word) :
    littleEndian (word :: words) = bytesOfWord word ++ littleEndian words := rfl

@[simp] theorem length_littleEndian (words : List Word) : (littleEndian words).length = 4 * words.length := by
  induction words with
  | nil => rfl
  | cons word words induction =>
    simp only [littleEndian_cons, List.length_append, length_bytesOfWord, induction, List.length_cons]
    omega

end Shader
