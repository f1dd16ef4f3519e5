import Shader.Diagnostic.Basic
import Shader.Token.Word

/-! # Lexing

Splitting a source text into tokens. A `Lexer` is a place in a text; `Lexer.next` reads the token
behind the gap that starts there. Both the end of the text and an error stay where they are, so that
reading on finds them again. -/

namespace Shader

structure Lexer where
  rest : List Char
  offset : Nat := 0
  deriving DecidableEq, Repr, Inhabited

namespace Lexer

def ofSource (source : String) : Lexer :=
  ⟨source.toList, 0⟩

def advance (lexer : Lexer) (body : List Char) : Lexer :=
  ⟨lexer.rest.drop body.length, lexer.offset + byteLength body⟩

def skipGap (lexer : Lexer) : Lexer :=
  lexer.advance (gap lexer.rest)

def spanOf (lexer : Lexer) (body : List Char) : Span :=
  ⟨lexer.offset, lexer.offset + byteLength body⟩

/-- Read one token. At the end of the text and at an error only the gap is passed over. -/
def next (lexer : Lexer) : Except Diagnostic Token × Lexer :=
  let here := lexer.skipGap
  match here.rest with
  | [] => (.ok (.endOfInput here.offset), here)
  | character :: _ =>
    if opensComment here.rest then
      (.error (.lexicalAt ⟨here.offset, here.offset + 2⟩ .unterminatedComment), here)
    else
      match word? here.rest with
      | some (kind, body) =>
        (.ok ⟨kind, String.ofList body, here.spanOf body⟩, here.advance body)
      | none =>
        (.error (.lexicalAt (here.spanOf [character]) (.unexpectedCharacter character)), here)

def steps : Nat → Lexer → List (Except Diagnostic Token)
  | 0, _ => []
  | count + 1, lexer => lexer.next.1 :: steps count lexer.next.2

theorem length_advance_le (lexer : Lexer) (body : List Char) :
    (lexer.advance body).rest.length ≤ lexer.rest.length := by
  simp [advance]

theorem length_next_lt {lexer after : Lexer} {token : Token}
    (read : lexer.next = (.ok token, after)) (more : token.kind ≠ .endOfInput) :
    after.rest.length < lexer.rest.length := by
  have shorter := lexer.length_advance_le (gap lexer.rest)
  unfold next at read
  simp only at read
  split at read
  · cases read
    simp [Token.endOfInput] at more
  · rename_i front
    split at read
    · cases read
    · split at read
      · rename_i found
        cases read
        have nonempty := word?_ne_nil found
        have positive := List.length_pos_iff.2 nonempty
        have some : 0 < lexer.skipGap.rest.length := by
          rw [front]
          simp
        simp only [skipGap] at some
        simp only [advance, List.length_drop] at shorter ⊢
        simp only [skipGap, advance, List.length_drop] at some ⊢
        omega
      · cases read

end Lexer

structure TokenStream where
  tokens : List Token
  ending : Except Diagnostic Token
  deriving Inhabited

def Lexer.stream (lexer : Lexer) : TokenStream :=
  match _read : lexer.next with
  | (.error diagnostic, _) => ⟨[], .error diagnostic⟩
  | (.ok token, after) =>
    if _more : token.kind = .endOfInput then ⟨[], .ok token⟩
    else
      let rest := after.stream
      ⟨token :: rest.tokens, rest.ending⟩
termination_by lexer.rest.length
decreasing_by exact Lexer.length_next_lt _read _more

def tokenize (source : String) : Except Diagnostic (List Token) :=
  let stream := (Lexer.ofSource source).stream
  match stream.ending with
  | .ok _ => .ok stream.tokens
  | .error diagnostic => .error diagnostic

end Shader
