import Shader.Operator
import Shader.Token.Basic

/-! # Words and gaps

Which characters at the front of a text make up a token, and which stand between tokens.

Every function here answers with the characters it takes, which are a prefix of the text. -/

namespace Shader

def isBlank (character : Char) : Bool :=
  character == ' ' || character == '\t' || character == '\r' || character == '\n'

/-! ## Gaps -/

def throughCommentEnd? : List Char → Option (List Char)
  | '*' :: '/' :: _ => some ['*', '/']
  | character :: rest => (throughCommentEnd? rest).map (character :: ·)
  | [] => none

def isInLine (character : Char) : Bool :=
  character != '\r' && character != '\n'

/-- The rest of a line, unless it ends in a carriage return without a line feed. -/
def restOfLine? (text : List Char) : Option (List Char) :=
  match text.dropWhile isInLine with
  | '\r' :: '\n' :: _ => some (text.takeWhile isInLine)
  | '\r' :: _ => none
  | _ => some (text.takeWhile isInLine)

/-- A run of white space, a line comment or a closed block comment at the front of a text. -/
def gapItem? : List Char → Option (List Char)
  | '/' :: '/' :: rest => (restOfLine? rest).map fun body => '/' :: '/' :: body
  | '/' :: '*' :: rest => (throughCommentEnd? rest).map fun body => '/' :: '*' :: body
  | character :: rest =>
    if isBlank character then some (character :: rest.takeWhile isBlank) else none
  | [] => none

theorem gapItem?_length {text item : List Char} (found : gapItem? text = some item) :
    0 < item.length ∧ 0 < text.length := by
  unfold gapItem? at found
  split at found
  · obtain ⟨body, _, rfl⟩ := Option.map_eq_some_iff.1 found
    simp
  · obtain ⟨body, _, rfl⟩ := Option.map_eq_some_iff.1 found
    simp
  · split at found
    · cases found
      simp
    · cases found
  · cases found

def gap (text : List Char) : List Char :=
  match _found : gapItem? text with
  | none => []
  | some item => item ++ gap (text.drop item.length)
termination_by text.length
decreasing_by
  have := gapItem?_length _found
  simp only [List.length_drop]
  omega

def opensComment : List Char → Bool
  | '/' :: '*' :: _ => true
  | _ => false

/-! ## Numbers -/

def digits (text : List Char) : List Char :=
  text.takeWhile Char.isDigit

def startsNumber : List Char → Bool
  | '.' :: character :: _ => character.isDigit
  | character :: _ => character.isDigit
  | [] => false

def isRadixMark (character : Char) : Bool :=
  character == 'x' || character == 'X' || character == 'b' || character == 'B' ||
    character == 'o' || character == 'O'

def radixInteger? : List Char → Option (List Char)
  | '0' :: mark :: rest =>
    let body := rest.takeWhile Char.isAlphanum
    if isRadixMark mark && !body.isEmpty then some ('0' :: mark :: body) else none
  | _ => none

/-- Digits with at most one point, which may stand in front of them, among them or behind. -/
def mantissa (text : List Char) : List Char :=
  match text with
  | '.' :: rest => '.' :: digits rest
  | _ =>
    let whole := digits text
    match text.drop whole.length with
    | '.' :: rest => whole ++ '.' :: digits rest
    | _ => whole

def exponentSign : List Char → List Char
  | '+' :: _ => ['+']
  | '-' :: _ => ['-']
  | _ => []

def exponent : List Char → List Char
  | mark :: rest =>
    let sign := exponentSign rest
    let power := digits (rest.drop sign.length)
    if (mark == 'e' || mark == 'E') && !power.isEmpty then mark :: sign ++ power else []
  | [] => []

def isFloatSuffix (character : Char) : Bool :=
  character == 'f' || character == 'F' || character == 'd' || character == 'D'

def floatSuffix : List Char → List Char
  | character :: _ => if isFloatSuffix character then [character] else []
  | [] => []

def decimalNumber (text : List Char) : List Char :=
  let base := mantissa text
  let power := exponent (text.drop base.length)
  let suffix := floatSuffix (text.drop (base.length + power.length))
  base ++ power ++ suffix

def isFloatText (text : List Char) : Bool :=
  text.any (fun character => character == '.' || character == 'e' || character == 'E') ||
    (text.getLast?.map isFloatSuffix).getD false

def number? (text : List Char) : Option (TokenKind × List Char) :=
  if startsNumber text then
    match radixInteger? text with
    | some body => some (.integer, body)
    | none =>
      let body := decimalNumber text
      some (if isFloatText body then .float else .integer, body)
  else none

/-! ## Names and marks -/

def isNameStart (character : Char) : Bool :=
  character.isAlpha || character == '_'

def isNamePart (character : Char) : Bool :=
  character.isAlphanum || character == '_'

def name? : List Char → Option (List Char)
  | character :: rest =>
    if isNameStart character then some (character :: rest.takeWhile isNamePart) else none
  | [] => none

def operator? (text : List Char) : Option String :=
  operatorSpellings.find? fun spelling => spelling.toList.isPrefixOf text

def operatorKind (spelling : String) : TokenKind :=
  if spelling == "[[" then .attributeOpen
  else if spelling == "]]" then .attributeClose
  else .punctuator

def isPunctuation (character : Char) : Bool :=
  ['(', ')', '\x7b', '\x7d', '[', ']', ';', ':', ',', '.'].contains character

def mark? : List Char → Option (List Char)
  | character :: _ => if isPunctuation character then some [character] else none
  | [] => none

def word? (text : List Char) : Option (TokenKind × List Char) :=
  match number? text with
  | some word => some word
  | none =>
    match name? text with
    | some body => some (.identifier, body)
    | none =>
      match operator? text with
      | some spelling => some (operatorKind spelling, spelling.toList)
      | none => (mark? text).map fun body => (.punctuator, body)

/-! ## Words are not empty -/

theorem decimalNumber_ne_nil {text : List Char} (starts : startsNumber text = true) :
    decimalNumber text ≠ [] := by
  have : mantissa text ≠ [] := by
    unfold mantissa
    split
    · simp
    · cases text with
      | nil => simp [startsNumber] at starts
      | cons character rest =>
        have digit : character.isDigit = true := by
          unfold startsNumber at starts
          split at starts <;> simp_all
        dsimp only
        split <;> simp [digits, digit]
  simp [decimalNumber, this]

theorem word?_ne_nil {text body : List Char} {kind : TokenKind}
    (found : word? text = some (kind, body)) : body ≠ [] := by
  unfold word? at found
  split at found
  · rename_i word number
    cases found
    unfold number? at number
    split at number
    · rename_i starts
      split at number
      · rename_i radix
        cases number
        unfold radixInteger? at radix
        split at radix
        · dsimp only at radix
          split at radix
          · cases radix
            simp
          · cases radix
        · cases radix
      · cases number
        exact decimalNumber_ne_nil starts
    · cases number
  · split at found
    · rename_i name
      cases found
      unfold name? at name
      split at name
      · split at name
        · cases name
          simp
        · cases name
      · cases name
    · split at found
      · rename_i spelling operator
        cases found
        have listed : spelling ∈ operatorSpellings := List.mem_of_find?_eq_some operator
        have : ∀ spelling ∈ operatorSpellings, spelling.toList ≠ [] := by decide
        exact this spelling listed
      · obtain ⟨mark, marked, same⟩ := Option.map_eq_some_iff.1 found
        cases same
        unfold mark? at marked
        split at marked
        · split at marked
          · cases marked
            simp
          · cases marked
        · cases marked

end Shader
