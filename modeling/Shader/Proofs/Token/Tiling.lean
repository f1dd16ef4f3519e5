import Shader.Proofs.Token.Words
import Shader.Token.Lexer

/-! # Tilings of source texts

Reading a source text takes it apart without losing anything: it is a row of gaps and tokens, up to the end
of the text or to a place where no token can be read.

* `IsGap` says what a gap is: white space, line comments and closed block comments.
* `Ends` says where reading stops, and with which answer.
* `Tiles` is a text with the gaps and tokens that it is made of.
* `steps_tile` says that the answers of the lexer are the tokens of a tiling and then, again and again, its
  ending. -/

namespace Shader

variable {text body : List Char}

/-! ## Gaps -/

/-- A line ends at the end of the text, or in front of a line feed with or without a carriage return. -/
def EndsLine (rest : List Char) : Prop :=
  rest = [] ∨ ['\n'] <+: rest ∨ ['\r', '\n'] <+: rest

/-- White space or a comment, in front of the rest of a text. -/
inductive IsGapItem : List Char → List Char → Prop
  | blanks {item rest} (some : item ≠ []) (blank : ∀ character ∈ item, isBlank character = true) :
    IsGapItem item rest
  | lineComment {body rest} (inLine : ∀ character ∈ body, isInLine character = true) (ends : EndsLine rest) :
    IsGapItem ('/' :: '/' :: body) rest
  | blockComment {body rest} (first : ¬ ['*', '/'] <:+: body ++ ['*']) :
    IsGapItem ('/' :: '*' :: (body ++ ['*', '/'])) rest

/-- White space and comments, in front of the rest of a text. -/
inductive IsGap : List Char → List Char → Prop
  | nil {rest} : IsGap [] rest
  | cons {item more rest} (isItem : IsGapItem item (more ++ rest)) (isGap : IsGap more rest) :
    IsGap (item ++ more) rest

theorem throughCommentEnd?_eq_some (found : throughCommentEnd? text = some body) :
    ∃ inside rest, body = inside ++ ['*', '/'] ∧ text = body ++ rest ∧ ¬ ['*', '/'] <:+: inside ++ ['*'] := by
  fun_induction throughCommentEnd? generalizing body with
  | case1 rest =>
    cases found
    exact ⟨[], rest, rfl, rfl, fun closes => by simpa using closes.length_le⟩
  | case2 character rest open_ ih =>
    obtain ⟨body, isFound, rfl⟩ := Option.map_eq_some_iff.1 found
    obtain ⟨inside, after, rfl, rfl, first⟩ := ih isFound
    refine ⟨character :: inside, after, rfl, rfl, fun closes => ?_⟩
    rcases List.infix_cons_iff.1 closes with atFront | later
    · cases inside with
      | nil => simp at atFront
      | cons next inside =>
        obtain ⟨rfl, atNext⟩ := List.cons_prefix_cons.1 atFront
        obtain ⟨rfl, -⟩ := List.cons_prefix_cons.1 atNext
        exact open_ _ rfl rfl
    · exact first later
  | case3 => cases found

theorem throughCommentEnd?_eq_none (none : throughCommentEnd? text = none) : ¬ ['*', '/'] <:+: text := by
  fun_induction throughCommentEnd? with
  | case1 => cases none
  | case2 character rest open_ ih =>
    intro closes
    rcases List.infix_cons_iff.1 closes with ⟨after, same⟩ | later
    · cases same
      exact open_ _ rfl rfl
    · exact ih (Option.map_eq_none_iff.1 none) later
  | case3 => simp

theorem restOfLine?_eq_some (found : restOfLine? text = some body) :
    ∃ rest, text = body ++ rest ∧ (∀ character ∈ body, isInLine character = true) ∧ EndsLine rest := by
  have inLine : ∀ character ∈ text.takeWhile isInLine, isInLine character = true :=
    fun _ inside => List.mem_takeWhile_imp inside
  refine ⟨text.dropWhile isInLine, ?_⟩
  unfold restOfLine? at found
  split at found
  · rename_i rest isRest
    cases found
    exact ⟨List.takeWhile_append_dropWhile.symm, inLine, .inr (.inr ⟨rest, isRest.symm⟩)⟩
  · cases found
  · rename_i noFeed noReturn
    cases found
    refine ⟨List.takeWhile_append_dropWhile.symm, inLine, ?_⟩
    cases isRest : text.dropWhile isInLine with
    | nil => exact .inl rfl
    | cons character rest =>
      have stops : isInLine character = false := by
        have := List.head_dropWhile_not isInLine (l := text) (by simp [isRest])
        simpa [isRest] using this
      have isEnd : character = '\r' ∨ character = '\n' := by
        by_contra! other
        simp [isInLine, other] at stops
      rcases isEnd with rfl | rfl
      · exact absurd isRest (noReturn rest)
      · exact .inr (.inl ⟨rest, rfl⟩)

theorem gapItem?_eq_some {item : List Char} (found : gapItem? text = some item) :
    ∃ rest, text = item ++ rest ∧ IsGapItem item rest := by
  unfold gapItem? at found
  split at found
  · obtain ⟨body, isBody, rfl⟩ := Option.map_eq_some_iff.1 found
    obtain ⟨rest, rfl, inLine, ends⟩ := restOfLine?_eq_some isBody
    exact ⟨rest, rfl, .lineComment inLine ends⟩
  · obtain ⟨body, isBody, rfl⟩ := Option.map_eq_some_iff.1 found
    obtain ⟨inside, rest, rfl, rfl, first⟩ := throughCommentEnd?_eq_some isBody
    exact ⟨rest, rfl, .blockComment first⟩
  · rename_i character rest _ _
    split_ifs at found with blank
    cases found
    refine ⟨rest.dropWhile isBlank, by simp, .blanks (by simp) ?_⟩
    rintro other (_ | ⟨_, inside⟩)
    · exact blank
    · exact List.mem_takeWhile_imp inside
  · cases found

theorem gap_spec (text : List Char) :
    ∃ rest, text = gap text ++ rest ∧ IsGap (gap text) rest ∧ gapItem? rest = none := by
  fun_induction gap with
  | case1 text none => exact ⟨text, rfl, .nil, none⟩
  | case2 text item found ih =>
    obtain ⟨rest, same, isItem⟩ := gapItem?_eq_some found
    obtain ⟨last, isRest, isGap, none⟩ := ih
    have dropped : text.drop item.length = rest := by rw [same, List.drop_left]
    rw [dropped] at isRest isGap ⊢
    refine ⟨last, ?_, .cons (isRest ▸ isItem) isGap, none⟩
    rw [List.append_assoc, ← isRest, same]

theorem gap_eq_nil (none : gapItem? text = none) : gap text = [] := by
  rw [gap]
  split
  · rfl
  · rename_i found
    cases none.symm.trans found

/-! ## Words -/

/-- Whether a character starts a token: a name, a number, an operator or another mark. -/
def startsToken (character : Char) : Bool :=
  isNameStart character || character.isDigit || isPunctuation character ||
    "!%&*+,-/<=>?^|~".toList.contains character

theorem word?_spec {kind : TokenKind} (found : word? text = some (kind, body)) :
    body <+: text ∧ kind ≠ .endOfInput ∧ ∀ character ∈ text.head?, startsToken character = true := by
  cases word?_eq_some.1 found with
  | radix _ isRadix =>
    obtain ⟨mark, rest, rfl, -, -, rfl⟩ := radixInteger?_eq_some.1 isRadix
    exact ⟨by simpa using List.takeWhile_prefix _, by simp, by simp [startsToken]⟩
  | decimal starts _ isBody =>
    refine ⟨isBody ▸ greedy_decimalNumber.isPrefix text, by split_ifs <;> simp, ?_⟩
    unfold startsNumber at starts
    split at starts <;> simp_all [startsToken, isPunctuation]
  | name _ isName =>
    obtain ⟨character, rest, rfl, starts, rfl⟩ := name?_eq_some.1 isName
    exact ⟨by simpa using List.takeWhile_prefix _, by simp, by simp [startsToken, starts]⟩
  | @operator spelling _ _ isOperator =>
    have isPrefix := List.find?_some isOperator
    rw [List.isPrefixOf_iff_prefix] at isPrefix
    refine ⟨isPrefix, by unfold operatorKind; split_ifs <;> simp, fun character isHead => ?_⟩
    have start : ∀ spelling ∈ operatorSpellings, spelling.toList.head?.any startsToken = true := by
      decide +kernel
    obtain ⟨first, isFirst, starts⟩ :=
      (Option.any_eq_true _ _).1 (start spelling (List.mem_of_find?_eq_some isOperator))
    obtain ⟨rest, rfl⟩ := isPrefix
    rw [Option.mem_def, List.head?_append, isFirst] at isHead
    cases isHead
    exact starts
  | mark _ _ _ isMark =>
    obtain ⟨character, rest, rfl, punctuates, rfl⟩ := mark?_eq_some.1 isMark
    exact ⟨by simp, by simp, by simp [startsToken, punctuates]⟩

theorem startsToken_of_word?_eq_none {character : Char} {rest : List Char}
    (none : word? (character :: rest) = none) : startsToken character = false := by
  unfold word? at none
  split at none
  · cases none
  rename_i noNumber
  split at none
  · cases none
  rename_i noName
  split at none
  · cases none
  rename_i noOperator
  have noDigit : character.isDigit = false := by
    by_contra isDigit
    rw [number?, if_pos (startsNumber_of_isDigit (by simpa using isDigit))] at noNumber
    split at noNumber <;> cases noNumber
  have noMark : isPunctuation character = false := by
    simpa [mark?] using none
  have noStart : isNameStart character = false := by
    simpa [name?] using noName
  have noSpelling : character ∉ "!%&*+,-/<=>?^|~".toList := by
    intro isMark
    -- each of these marks is an operator on its own
    have listed : ("!%&*+,-/<=>?^|~".toList.all fun mark =>
        operatorSpellings.any fun spelling => spelling.toList == [mark]) = true := by decide +kernel
    obtain ⟨spelling, isListed, same⟩ := List.any_eq_true.1 (List.all_eq_true.1 listed character isMark)
    simpa [eq_of_beq same] using List.find?_eq_none.1 noOperator spelling isListed
  simp only [startsToken, noStart, noDigit, noMark, Bool.false_or, List.contains_eq_mem]
  exact decide_eq_false noSpelling

/-! ## Tilings -/

/-- Where reading stops, and with which answer: at the end of the text, or with an error where a block
comment is not closed or no token starts. -/
inductive Ends : List Char → Nat → Except Diagnostic Token → Prop
  | endOfText {offset} : Ends [] offset (.ok (.endOfInput offset))
  | unclosed {body offset} (never : ¬ ['*', '/'] <:+: body) :
    Ends ('/' :: '*' :: body) offset (.error (.lexicalAt ⟨offset, offset + 2⟩ .unterminatedComment))
  | unexpected {character rest offset} (none : startsToken character = false) :
    Ends (character :: rest) offset
      (.error (.lexicalAt ⟨offset, offset + character.utf8Size⟩ (.unexpectedCharacter character)))

/-- A text at an offset is made of tokens with the gaps in front of them, and of a last gap in front of a
place where reading stops. -/
inductive Tiles : List Char → Nat → List (List Char × Token) → Except Diagnostic Token → Prop
  | stop {gap rest offset ending} (isGap : IsGap gap rest) (ends : Ends rest (offset + byteLength gap) ending) :
    Tiles (gap ++ rest) offset [] ending
  | token {gap body rest offset kind tiles ending} (isGap : IsGap gap (body ++ rest)) (some : body ≠ [])
    (inside : kind ≠ .endOfInput)
    (goesOn : ∀ ending, ¬ Ends (body ++ rest) (offset + byteLength gap) ending)
    (tiled : Tiles rest (offset + byteLength gap + byteLength body) tiles ending) :
    Tiles (gap ++ (body ++ rest)) offset ((gap, ⟨kind, String.ofList body,
      ⟨offset + byteLength gap, offset + byteLength gap + byteLength body⟩⟩) :: tiles) ending

namespace Lexer

theorem next_cases (lexer : Lexer) :
    ∃ front rest, lexer.rest = front ++ rest ∧ IsGap front rest ∧ gapItem? rest = none ∧
      lexer.skipGap = ⟨rest, lexer.offset + byteLength front⟩ ∧
      (Ends rest (lexer.offset + byteLength front) lexer.next.1 ∧ lexer.next.2 = lexer.skipGap ∨
        ∃ kind body more, rest = body ++ more ∧ word? rest = some (kind, body) ∧ opensComment rest = false ∧
          kind ≠ .endOfInput ∧ (∀ ending, ¬ Ends rest (lexer.offset + byteLength front) ending) ∧
          lexer.next = (.ok ⟨kind, String.ofList body, lexer.skipGap.spanOf body⟩,
            ⟨more, lexer.offset + byteLength front + byteLength body⟩)) := by
  obtain ⟨rest, same, isGap, none⟩ := gap_spec lexer.rest
  have here : lexer.skipGap = ⟨rest, lexer.offset + byteLength (gap lexer.rest)⟩ := by
    have dropped : lexer.rest.drop (gap lexer.rest).length = rest := by
      nth_rewrite 2 [same]
      exact List.drop_left
    rw [skipGap, advance, dropped]
  refine ⟨_, rest, same, isGap, none, here, ?_⟩
  unfold next
  rw [here]
  dsimp only
  split
  · exact .inl ⟨.endOfText, rfl⟩
  · rename_i character tail
    split_ifs with opens
    · refine .inl ⟨?_, rfl⟩
      unfold opensComment at opens
      split at opens
      · rename_i body isRest
        cases isRest
        exact .unclosed (throughCommentEnd?_eq_none (by simpa [gapItem?] using none))
      · cases opens
    · split
      · rename_i kind body found
        obtain ⟨⟨more, isRest⟩, inside, starts⟩ := word?_spec found
        refine .inr ⟨kind, body, more, isRest.symm, found, by simpa using opens, inside, ?_, ?_⟩
        · rintro _ (_ | _ | noStart)
          · simp [opensComment] at opens
          · rw [starts _ rfl] at noStart
            cases noStart
        · simp [advance, ← isRest]
      · rename_i missing
        exact .inl ⟨.unexpected (startsToken_of_word?_eq_none missing), rfl⟩

theorem next_skipGap (lexer : Lexer) : lexer.skipGap.next = lexer.next := by
  obtain ⟨_, rest, -, -, none, here, -⟩ := lexer.next_cases
  have again : lexer.skipGap.skipGap = lexer.skipGap := by
    rw [here]
    simp [skipGap, advance, gap_eq_nil none]
  unfold next
  rw [again]

theorem stream_of_ends {lexer : Lexer} {rest : List Char} {offset : Nat} (ends : Ends rest offset lexer.next.1) :
    lexer.stream = ⟨[], lexer.next.1⟩ := by
  rw [stream]
  split
  · rename_i isNext
    rw [isNext]
  · rename_i isNext
    rw [isNext] at ends ⊢
    cases ends
    rfl

theorem stream_of_token {lexer after : Lexer} {token : Token} (isNext : lexer.next = (.ok token, after))
    (inside : token.kind ≠ .endOfInput) :
    lexer.stream = ⟨token :: after.stream.tokens, after.stream.ending⟩ := by
  rw [stream]
  split
  · rename_i other
    cases isNext.symm.trans other
  · rename_i other
    cases isNext.symm.trans other
    rw [dif_neg inside]

theorem steps_eq (count : Nat) (lexer : Lexer) : steps count lexer =
    (lexer.stream.tokens.map Except.ok ++ List.replicate count lexer.stream.ending).take count := by
  induction count generalizing lexer with
  | zero => rfl
  | succ count ih =>
    obtain ⟨_, _, -, -, -, -, ⟨ends, same⟩ | ⟨_, _, _, -, -, -, inside, -, isNext⟩⟩ := lexer.next_cases
    · have again : lexer.skipGap.stream = ⟨[], lexer.next.1⟩ := by
        rw [← next_skipGap] at ends ⊢
        exact stream_of_ends ends
      rw [steps, same, ih, again, stream_of_ends ends]
      simp [List.replicate_succ]
    · rw [steps, isNext, ih, stream_of_token isNext inside]
      simp [List.replicate_succ', ← List.append_assoc]

theorem exists_tiles (lexer : Lexer) : ∃ tiles, Tiles lexer.rest lexer.offset tiles lexer.stream.ending ∧
    lexer.stream.tokens = tiles.map Prod.snd := by
  induction length : lexer.rest.length using Nat.strong_induction_on generalizing lexer with
  | _ length ih =>
    obtain ⟨_, _, same, isGap, -, here, ⟨ends, -⟩ | ⟨kind, body, more, rfl, found, -, inside, goesOn, isNext⟩⟩ :=
      lexer.next_cases
    · rw [stream_of_ends ends, same]
      exact ⟨[], .stop isGap ends, rfl⟩
    · have shorter := length_next_lt isNext inside
      obtain ⟨tiles, tiled, tokens⟩ := ih _ (length ▸ shorter) _ rfl
      rw [stream_of_token isNext inside, same, here, tokens]
      exact ⟨_, .token isGap (word?_ne_nil found) inside goesOn tiled, rfl⟩

end Lexer

namespace Tiles

variable {text : List Char} {offset : Nat} {tiles : List (List Char × Token)}
  {ending : Except Diagnostic Token}

theorem text_eq (tiled : Tiles text offset tiles ending) : ∃ gap rest,
    text = tiles.flatMap (fun tile => tile.1 ++ tile.2.text.toList) ++ gap ++ rest ∧ IsGap gap rest ∧
      Ends rest (offset + byteLength text - byteLength rest) ending := by
  induction tiled with
  | @stop gap rest _ _ isGap ends =>
    refine ⟨gap, rest, by simp, isGap, ?_⟩
    rwa [byteLength_append, ← Nat.add_assoc, Nat.add_sub_cancel]
  | @token gap body _ offset _ _ _ _ _ _ _ _ ih =>
    obtain ⟨last, rest, same, isGap, ends⟩ := ih
    refine ⟨last, rest, ?_, isGap, ?_⟩
    · nth_rewrite 1 [same]
      simp
    · simpa [Nat.add_assoc] using ends

theorem located (tiled : Tiles text offset tiles ending) : ∀ tile ∈ tiles, ∃ front back,
    text = front ++ tile.2.text.toList ++ back ∧ tile.2.text.toList ≠ [] ∧ tile.2.span =
      ⟨offset + byteLength front, offset + byteLength front + byteLength tile.2.text.toList⟩ := by
  induction tiled with
  | stop => simp
  | @token gap body rest offset kind tiles ending isGap some inside goesOn tiled ih =>
    rintro tile (_ | ⟨_, isTile⟩)
    · exact ⟨gap, rest, by simp, by simpa using some, by simp⟩
    · obtain ⟨front, back, rfl, nonempty, span⟩ := ih tile isTile
      exact ⟨gap ++ (body ++ front), back, by simp, nonempty, by simp [span, Nat.add_assoc]⟩

theorem pairwise_spans (tiled : Tiles text offset tiles ending) :
    (tiles.map fun tile => tile.2.span).Pairwise fun left right => left.stop ≤ right.start := by
  induction tiled with
  | stop => exact .nil
  | token _ _ _ _ tiled ih =>
    refine .cons (fun span inside => ?_) ih
    obtain ⟨tile, isTile, rfl⟩ := List.mem_map.1 inside
    obtain ⟨front, _, -, -, isSpan⟩ := tiled.located tile isTile
    rw [isSpan]
    exact Nat.le_add_right _ _

end Tiles

theorem byteLength_eq_utf8Len (text : List Char) : byteLength text = String.utf8Len text := by
  induction text with
  | nil => rfl
  | cons character text ih => rw [byteLength_cons, String.utf8Len_cons, ih, Nat.add_comm]

theorem isValid_byteLength {source : String} {front back : List Char} (same : source.toList = front ++ back) :
    String.Pos.Raw.IsValid source ⟨byteLength front⟩ := by
  refine String.Pos.Raw.isValid_iff_exists_append.2 ⟨String.ofList front, String.ofList back, ?_, ?_⟩
  · rw [← String.ofList_append, ← same, String.ofList_toList]
  · rw [String.rawEndPos_ofList, byteLength_eq_utf8Len]

/-- Reading a source text again and again gives the tokens of a tiling of it, which have characters and stand
one behind the other, and then its ending for ever: the end of the text, or an error where a block comment is
not closed or no token starts. -/
theorem steps_tile (source : String) : ∃ (tiles : List (List Char × Token)) (ending : Except Diagnostic Token),
    Tiles source.toList 0 tiles ending ∧
    (∀ count, (Lexer.ofSource source).steps count =
      ((tiles.map Prod.snd).map Except.ok ++ List.replicate count ending).take count) ∧
    (∃ gap rest, source.toList = tiles.flatMap (fun tile => tile.1 ++ tile.2.text.toList) ++ gap ++ rest ∧
      IsGap gap rest ∧ Ends rest (byteLength source.toList - byteLength rest) ending) ∧
    (∀ tile ∈ tiles, tile.2.span.start < tile.2.span.stop ∧
      String.Pos.Raw.IsValid source ⟨tile.2.span.start⟩ ∧ String.Pos.Raw.IsValid source ⟨tile.2.span.stop⟩) ∧
    (tiles.map fun tile => tile.2.span).Pairwise fun left right => left.stop ≤ right.start := by
  obtain ⟨tiles, tiled, tokens⟩ := (Lexer.ofSource source).exists_tiles
  refine ⟨tiles, _, tiled, fun count => ?_, ?_, fun tile inside => ?_, tiled.pairwise_spans⟩
  · rw [Lexer.steps_eq, tokens]
  · simpa [Lexer.ofSource] using tiled.text_eq
  · obtain ⟨front, back, same, nonempty, span⟩ := tiled.located tile inside
    obtain ⟨character, more, isText⟩ := List.exists_cons_of_ne_nil nonempty
    have positive := character.utf8Size_pos
    have isStart : tile.2.span.start = byteLength front := by simp [span, Lexer.ofSource]
    have isStop : tile.2.span.stop = byteLength (front ++ tile.2.text.toList) := by simp [span, Lexer.ofSource]
    rw [isStart, isStop]
    have startsBehind : source.toList = front ++ (tile.2.text.toList ++ back) := by rwa [← List.append_assoc]
    exact ⟨by simp [isText]; omega, isValid_byteLength startsBehind, isValid_byteLength same⟩

end Shader
