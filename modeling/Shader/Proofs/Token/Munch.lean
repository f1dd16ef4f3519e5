import Shader.Proofs.Token.Tiling

/-! # Longest tokens

Each token is the longest that the source text has at its place, and does not depend on what is behind it.

* `tokenize_of_lexeme` and `lexeme_of_tokenize` say when a text is one token.
* `steps_longest` says of every token that is ever read that no longer text at its place is one token, and
  that its characters alone are read as the same token. -/

namespace Shader

variable {text body more : List Char} {kind : TokenKind}

theorem Lexeme.no_comment (isWord : Lexeme body kind body) : ¬ ['/', '/'] <+: body := by
  rintro ⟨rest, rfl⟩
  generalize whole : ['/', '/'] ++ rest = whole at isWord
  cases isWord with
  | radix starts | decimal starts => cases whole ▸ starts
  | name _ isName => cases whole ▸ isName
  | operator _ _ isOperator =>
    obtain ⟨-, -, noComment⟩ := operatorSpellings_spec.2 _ (List.mem_of_find?_eq_some isOperator)
    exact noComment ⟨rest, whole⟩
  | mark _ _ _ isMark =>
    obtain ⟨_, _, -, -, isBody⟩ := mark?_eq_some.1 isMark
    cases whole.trans isBody

theorem Lexeme.gapItem?_eq_none (isWord : Lexeme (body ++ more) kind body) (noGap : gapItem? (body ++ more) = none)
    (opens : opensComment (body ++ more) = false) : gapItem? body = none ∧ opensComment body = false := by
  have noComment := isWord.alone.no_comment
  constructor
  · unfold gapItem?
    split
    · exact absurd (by simp) noComment
    · cases opens
    · rename_i character rest noLine noBlock
      split_ifs with blank
      · have noSlash : character ≠ '/' := by
          rintro rfl
          cases blank
        simp [gapItem?, noSlash, blank] at noGap
      · rfl
    · rfl
  · unfold opensComment
    split
    · cases opens
    · rfl

theorem Lexer.next_of_lexeme {lexer : Lexer} (isWord : Lexeme lexer.rest kind body)
    (noGap : gapItem? lexer.rest = none) (opens : opensComment lexer.rest = false) :
    lexer.next = (.ok ⟨kind, String.ofList body, lexer.spanOf body⟩, lexer.advance body) := by
  have here : lexer.skipGap = lexer := by simp [skipGap, advance, gap_eq_nil noGap]
  have found := word?_eq_some.2 isWord
  unfold next
  rw [here]
  dsimp only
  split
  · rename_i isEnd
    rw [isEnd] at found
    cases found
  · rw [if_neg (by simp [opens]), found]

theorem tokenize_of_lexeme (isWord : Lexeme text kind text) (noGap : gapItem? text = none)
    (opens : opensComment text = false) :
    tokenize (String.ofList text) = .ok [⟨kind, String.ofList text, ⟨0, byteLength text⟩⟩] := by
  have inside : kind ≠ .endOfInput := (word?_spec (word?_eq_some.2 isWord)).2.1
  have isNext : (Lexer.ofSource (String.ofList text)).next =
      (.ok ⟨kind, String.ofList text, ⟨0, byteLength text⟩⟩, ⟨[], byteLength text⟩) := by
    have same : Lexer.ofSource (String.ofList text) = ⟨text, 0⟩ := by simp [Lexer.ofSource]
    have read : (⟨text, 0⟩ : Lexer).next = _ := Lexer.next_of_lexeme isWord noGap opens
    rw [same, read]
    simp [Lexer.spanOf, Lexer.advance]
  have atEnd : (⟨[], byteLength text⟩ : Lexer).next =
      (.ok (.endOfInput (byteLength text)), ⟨[], byteLength text⟩) := by
    have noGap : gap [] = [] := gap_eq_nil rfl
    simp [Lexer.next, Lexer.skipGap, Lexer.advance, noGap]
  have ends : Ends [] (byteLength text) (⟨[], byteLength text⟩ : Lexer).next.1 := by
    rw [atEnd]
    exact .endOfText
  rw [tokenize, Lexer.stream_of_token isNext inside, Lexer.stream_of_ends ends, atEnd]

theorem byteLength_eq_zero : byteLength text = 0 ↔ text = [] := by
  cases text with
  | nil => simp
  | cons character _ => simp [character.utf8Size_pos.ne']

theorem lexeme_of_tokenize {other : Token} (alone : tokenize (String.ofList text) = .ok [other])
    (whole : other.span = ⟨0, byteLength text⟩) : Lexeme text other.kind text := by
  obtain ⟨front, rest, same, -, -, here, ⟨ends, -⟩ | ⟨kind, body, more, isRest, found, -, inside, -, isNext⟩⟩ :=
    (Lexer.ofSource (String.ofList text)).next_cases
  · rw [tokenize, Lexer.stream_of_ends ends] at alone
    dsimp only at alone
    split at alone <;> cases alone
  · rw [tokenize, Lexer.stream_of_token isNext inside] at alone
    dsimp only at alone
    split at alone
    · obtain ⟨rfl, -⟩ := List.cons_eq_cons.1 (Except.ok.inj alone)
      have isText : text = front ++ (body ++ more) := by simpa [Lexer.ofSource, isRest] using same
      simp only [Lexer.spanOf, Lexer.ofSource, Span.mk.injEq, isText, byteLength_append] at whole
      obtain rfl : front = [] := byteLength_eq_zero.1 (by omega)
      obtain rfl : more = [] := byteLength_eq_zero.1 (by omega)
      rw [List.append_nil] at isRest
      rw [isRest] at found
      rw [isText, List.nil_append, List.append_nil]
      exact word?_eq_some.1 found
    · cases alone

/-- A token is the longest at the front of a text: no longer text there is read as one token with all its
bytes. The characters of the token alone are read as one token of the same class. -/
structure Token.IsLongest (token : Token) (text : List Char) : Prop where
  isPrefix : token.text.toList <+: text
  longest : ∀ longer, longer <+: text → token.text.toList.length < longer.length → ∀ other : Token,
    tokenize (String.ofList longer) = .ok [other] → other.span ≠ ⟨0, byteLength longer⟩
  alone : tokenize token.text = .ok [⟨token.kind, token.text, ⟨0, byteLength token.text.toList⟩⟩]

namespace Lexer

variable {lexer after : Lexer} {token : Token}

theorem next_longest (isNext : lexer.next = (.ok token, after)) (inside : token.kind ≠ .endOfInput) :
    ∃ front behind, lexer.rest = front ++ behind ∧ token.span.start = lexer.offset + byteLength front ∧
      token.IsLongest behind := by
  obtain ⟨front, rest, same, -, noGap, here, ⟨ends, -⟩ | ⟨kind, body, more, rfl, found, opens, -, -, isToken⟩⟩ :=
    lexer.next_cases
  · rw [isNext] at ends
    cases ends
    exact absurd rfl inside
  · cases isNext.symm.trans isToken
    have isWord := word?_eq_some.1 found
    obtain ⟨noGapInside, opensInside⟩ := isWord.gapItem?_eq_none noGap opens
    refine ⟨front, _, same, by simp [here, spanOf], by simp, ?_, ?_⟩
    · intro longer isFront isLonger other alone whole
      have shorter := isWord.longest isFront (lexeme_of_tokenize alone whole)
      simp only [String.toList_ofList] at isLonger
      omega
    · simpa using tokenize_of_lexeme isWord.alone noGapInside opensInside

theorem next_passes (lexer : Lexer) : ∃ passed, lexer.rest = passed ++ lexer.next.2.rest ∧
    lexer.next.2.offset = lexer.offset + byteLength passed := by
  obtain ⟨front, rest, same, -, -, here, ⟨-, stays⟩ | ⟨_, body, more, rfl, -, -, -, -, isToken⟩⟩ :=
    lexer.next_cases
  · exact ⟨front, by rw [same, stays, here], by rw [stays, here]⟩
  · exact ⟨front ++ body, by simp [same, isToken], by simp [isToken, Nat.add_assoc]⟩

theorem steps_isLongest (count : Nat) (read : .ok token ∈ lexer.steps count)
    (inside : token.kind ≠ .endOfInput) : ∃ front behind, lexer.rest = front ++ behind ∧
      token.span.start = lexer.offset + byteLength front ∧ token.IsLongest behind := by
  induction count generalizing lexer with
  | zero => cases read
  | succ count ih =>
    rcases List.mem_cons.1 read with now | later
    · exact next_longest (Prod.ext now.symm rfl) inside
    · obtain ⟨passed, same, isOffset⟩ := lexer.next_passes
      obtain ⟨front, behind, isRest, isStart, longest⟩ := ih later
      refine ⟨passed ++ front, behind, by rw [same, isRest, List.append_assoc], ?_, longest⟩
      rw [isStart, isOffset, byteLength_append, Nat.add_assoc]

end Lexer

/-- Every token that is read from a source text, in whatever call, is the longest at its place. -/
theorem steps_longest (source : String) (count : Nat) {token : Token}
    (read : .ok token ∈ (Lexer.ofSource source).steps count) (inside : token.kind ≠ .endOfInput) :
    ∃ front behind, source.toList = front ++ behind ∧ token.span.start = byteLength front ∧
      token.IsLongest behind := by
  simpa [Lexer.ofSource] using Lexer.steps_isLongest count read inside

/-- A mark without digits is no exponent: the last token of `a 1e` is the name `e`. -/
theorem steps_longest_exponent_mark : .ok ⟨.identifier, "e", ⟨3, 4⟩⟩ ∈ (Lexer.ofSource "a 1e").steps 3 ∧
    ∃ front behind, "a 1e".toList = front ++ behind ∧ 3 = byteLength front ∧
      Token.IsLongest ⟨.identifier, "e", ⟨3, 4⟩⟩ behind := by
  have read : (Lexer.ofSource "a 1e").steps 3 = [.ok ⟨.identifier, "a", ⟨0, 1⟩⟩, .ok ⟨.integer, "1", ⟨2, 3⟩⟩,
      .ok ⟨.identifier, "e", ⟨3, 4⟩⟩] := by cbv
  have found : .ok ⟨.identifier, "e", ⟨3, 4⟩⟩ ∈ (Lexer.ofSource "a 1e").steps 3 := by simp [read]
  exact ⟨found, steps_longest "a 1e" 3 found (by decide)⟩

end Shader
