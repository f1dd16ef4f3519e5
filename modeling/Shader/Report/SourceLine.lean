import Shader.Token.Basic

/-! # Lines of a source

Places in a source are byte offsets. A reader wants lines and columns, both counted from one. A line
ends at a line feed; whatever follows the last one is a line as well. -/

namespace Shader

structure SourceLine where
  start : Nat
  text : List Char
  deriving DecidableEq, Repr, Inhabited

namespace SourceLine

def stop (line : SourceLine) : Nat :=
  line.start + byteLength line.text

def cons (start : Nat) (character : Char) (line : SourceLine) : SourceLine :=
  ⟨start, character :: line.text⟩

end SourceLine

def splitLines (offset : Nat) : List Char → List SourceLine
  | [] => [⟨offset, []⟩]
  | character :: rest =>
    match splitLines (offset + character.utf8Size) rest with
    | [] => [⟨offset, [character]⟩]
    | line :: lines =>
      if character = '\n' then ⟨offset, []⟩ :: line :: lines
      else line.cons offset character :: lines

def sourceLines (source : String) : List SourceLine :=
  splitLines 0 source.toList

def lineIndex (lines : List SourceLine) (offset : Nat) : Nat :=
  lines.countP (fun line => line.start ≤ offset) - 1

/-- The longest beginning of a text that takes no more than a number of bytes. -/
def takeBytes (room : Nat) : List Char → List Char
  | [] => []
  | character :: rest =>
    if character.utf8Size ≤ room then
      character :: takeBytes (room - character.utf8Size) rest
    else []

/-- What follows the longest beginning of a text that takes no more than a number of bytes. -/
def dropBytes (room : Nat) (text : List Char) : List Char :=
  text.drop (takeBytes room text).length

/-- The line and the column of an offset. A character counts when it ends at or before the offset. -/
def lineColumn (source : String) (offset : Nat) : Nat × Nat :=
  let lines := sourceLines source
  let clamped := min offset source.utf8ByteSize
  let index := lineIndex lines clamped
  let line := lines[index]?.getD default
  (index + 1, (takeBytes (clamped - line.start) line.text).length + 1)

/-! ## Lines and cuts -/

theorem splitLines_ne_nil (offset : Nat) (text : List Char) : splitLines offset text ≠ [] := by
  cases text with
  | nil => simp [splitLines]
  | cons character rest =>
    rw [splitLines]
    split
    · simp
    · split <;> simp

theorem byteLength_takeBytes_le (room : Nat) (text : List Char) :
    byteLength (takeBytes room text) ≤ room := by
  induction text generalizing room with
  | nil => simp [takeBytes]
  | cons character rest induction =>
    rw [takeBytes]
    split
    · have shorter := induction (room - character.utf8Size)
      simp only [byteLength_cons]
      omega
    · simp

theorem takeBytes_append_dropBytes (room : Nat) (text : List Char) :
    takeBytes room text ++ dropBytes room text = text := by
  induction text generalizing room with
  | nil => rfl
  | cons character rest induction =>
    by_cases fits : character.utf8Size ≤ room
    · simpa [takeBytes, dropBytes, fits] using induction (room - character.utf8Size)
    · simp [takeBytes, dropBytes, fits]

end Shader
