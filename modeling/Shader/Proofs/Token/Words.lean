import Mathlib
import Shader.Token.Word

/-! # Words

What is read as a token is the longest that can be. Each part of a number takes as much of the text as it
can, and so does the number as a whole, although an exponent looks ahead before it takes anything. -/

namespace Shader

variable {character : Char}

/-- A function takes a front of the text, no less of a longer text, and all of what it took before. -/
structure Greedy (take : List Char → List Char) : Prop where
  isPrefix (text : List Char) : take text <+: text
  again (text : List Char) : take (take text) = take text
  mono {front text : List Char} (isFront : front <+: text) : take front <+: take text

/-- A greedy function that does not look ahead: where it takes less of a shorter text, it takes all of it. -/
structure Steady (take : List Char → List Char) : Prop where
  isPrefix (text : List Char) : take text <+: text
  again (text : List Char) : take (take text) = take text
  cases {front text : List Char} (isFront : front <+: text) :
    take front = take text ∨ take front = front ∧ front <+: take text

def inTurn (first second : List Char → List Char) (text : List Char) : List Char :=
  first text ++ second (text.drop (first text).length)

variable {first second take : List Char → List Char}

theorem Steady.greedy (steady : Steady take) : Greedy take := by
  refine ⟨steady.isPrefix, steady.again, fun isFront => ?_⟩
  rcases steady.cases isFront with same | ⟨whole, isPrefix⟩
  · rw [same]
  · rwa [whole]

theorem Greedy.eq_of_prefix (greedy : Greedy take) (inside : take text <+: front)
    (isFront : front <+: text) : take front = take text := by
  have shorter := greedy.mono inside
  rw [greedy.again] at shorter
  exact (greedy.mono isFront).eq_of_length_le shorter.length_le

/-- Two greedy functions can be put behind each other if the second takes nothing where the first would have
taken more of a longer text. -/
theorem Greedy.inTurn (greedyFirst : Greedy first) (greedySecond : Greedy second)
    (stops : ∀ ⦃front text⦄, front <+: text →
      first front = first text ∨ second (front.drop (first front).length) = []) :
    Greedy (inTurn first second) := by
  have isPrefix (text : List Char) : Shader.inTurn first second text <+: text := by
    have taken := List.prefix_iff_eq_append.1 (greedyFirst.isPrefix text)
    nth_rewrite 2 [← taken]
    exact (List.prefix_append_right_inj _).2 (greedySecond.isPrefix _)
  refine ⟨isPrefix, fun text => ?_, fun {front text} isFront => ?_⟩
  · have same : first (Shader.inTurn first second text) = first text :=
      greedyFirst.eq_of_prefix (List.prefix_append _ _) (isPrefix text)
    rw [Shader.inTurn, same, Shader.inTurn, List.drop_left, greedySecond.again]
  · unfold Shader.inTurn
    rcases stops isFront with same | nothing
    · rw [same]
      exact (List.prefix_append_right_inj _).2 (greedySecond.mono (isFront.drop _))
    · rw [nothing, List.append_nil]
      exact (greedyFirst.mono isFront).trans (List.prefix_append _ _)

theorem Steady.stops (steady : Steady first) (nil : second [] = []) ⦃front text : List Char⦄
    (isFront : front <+: text) :
    first front = first text ∨ second (front.drop (first front).length) = [] := by
  refine (steady.cases isFront).imp_right fun whole => ?_
  rw [whole.1, List.drop_length, nil]

theorem Steady.inTurn (steadyFirst : Steady first) (steadySecond : Steady second)
    (nil : second [] = []) : Steady (inTurn first second) := by
  have greedy := steadyFirst.greedy.inTurn steadySecond.greedy (steadyFirst.stops nil)
  refine ⟨greedy.isPrefix, greedy.again, fun {front text} isFront => ?_⟩
  have isPrefix := greedy.mono isFront
  have isWhole (whole : Shader.inTurn first second front = front) :
      Shader.inTurn first second front = front ∧ front <+: Shader.inTurn first second text :=
    ⟨whole, whole ▸ isPrefix⟩
  rcases steadyFirst.cases isFront with same | ⟨whole, -⟩
  · rcases steadySecond.cases (isFront.drop (first front).length) with sameRest | ⟨wholeRest, -⟩
    · exact .inl (by rw [Shader.inTurn, sameRest, same, Shader.inTurn])
    · refine .inr (isWhole ?_)
      rw [Shader.inTurn, wholeRest]
      exact List.prefix_iff_eq_append.1 (steadyFirst.isPrefix front)
  · exact .inr (isWhole (by simp [Shader.inTurn, whole, nil]))

theorem steady_takeWhile (accepts : Char → Bool) : Steady (List.takeWhile accepts) := by
  refine ⟨fun _ => List.takeWhile_prefix _, fun _ => List.takeWhile_idem, ?_⟩
  rintro front _ ⟨rest, rfl⟩
  rw [List.takeWhile_append]
  split_ifs with whole
  · have same := List.Sublist.eq_of_length (List.takeWhile_sublist accepts) whole
    exact .inr ⟨same, List.prefix_append _ _⟩
  · exact .inl rfl

/-- A character of one kind at the front of a text, with what a function takes behind it. -/
def onHead (accepts : Char → Bool) (take : List Char → List Char) : List Char → List Char
  | [] => []
  | character :: rest => if accepts character then character :: take rest else []

theorem prefix_cases (isFront : front <+: text) :
    front = [] ∨ ∃ character before after, front = character :: before ∧ text = character :: after ∧
      before <+: after := by
  cases front with
  | nil => exact .inl rfl
  | cons character before =>
    obtain ⟨rest, rfl⟩ := isFront
    exact .inr ⟨character, before, before ++ rest, rfl, rfl, List.prefix_append _ _⟩

theorem Steady.onHead (steady : Steady take) (accepts : Char → Bool) : Steady (onHead accepts take) := by
  refine ⟨fun text => ?_, fun text => ?_, fun {front text} isFront => ?_⟩
  · cases text with
    | nil => exact List.prefix_rfl
    | cons character rest =>
      rw [Shader.onHead]
      split_ifs
      · exact (List.prefix_cons_inj _).2 (steady.isPrefix rest)
      · exact List.nil_prefix
  · cases text with
    | nil => rfl
    | cons character rest =>
      rw [Shader.onHead]
      split_ifs with accepted
      · rw [Shader.onHead, if_pos accepted, steady.again]
      · rfl
  · obtain rfl | ⟨character, before, after, rfl, rfl, isRest⟩ := prefix_cases isFront
    · exact .inr ⟨rfl, List.nil_prefix⟩
    · rw [Shader.onHead, Shader.onHead]
      split_ifs
      · simpa using steady.cases isRest
      · exact .inl rfl

theorem steady_nothing : Steady fun _ => [] := ⟨fun _ => List.nil_prefix, fun _ => rfl, fun _ => .inl rfl⟩

/-! ## Decimal numbers -/

theorem steady_digits : Steady digits := steady_takeWhile _

def fraction : List Char → List Char :=
  onHead (· == '.') digits

theorem mantissa_eq : mantissa = inTurn digits fraction := by
  funext text
  unfold mantissa inTurn
  split
  · simp [fraction, onHead, digits]
  · dsimp only
    split
    · simp_all [fraction, onHead]
    · rename_i noPoint
      cases isRest : text.drop (digits text).length with
      | nil => simp [fraction, onHead]
      | cons character rest =>
        have : character ≠ '.' := by
          rintro rfl
          exact noPoint rest isRest
        simp [fraction, onHead, this]

theorem exponentSign_eq :
    exponentSign = onHead (fun character => character == '+' || character == '-') fun _ => [] := by
  funext text
  cases text with
  | nil => rfl
  | cons character rest =>
    by_cases isPlus : character = '+'
    · simp [isPlus, exponentSign, onHead]
    · by_cases isMinus : character = '-' <;> simp [isPlus, isMinus, exponentSign, onHead]

theorem floatSuffix_eq : floatSuffix = onHead isFloatSuffix fun _ => [] := by
  funext text
  cases text <;> rfl

theorem steady_exponentSign : Steady exponentSign := exponentSign_eq ▸ steady_nothing.onHead _

theorem steady_mantissa : Steady mantissa := mantissa_eq ▸ steady_digits.inTurn (steady_digits.onHead _) rfl

def power (text : List Char) : List Char :=
  digits (text.drop (exponentSign text).length)

theorem exponent_cons (mark : Char) (rest : List Char) : exponent (mark :: rest) =
    if (mark = 'e' ∨ mark = 'E') ∧ power rest ≠ [] then mark :: inTurn exponentSign digits rest else [] := by
  rw [exponent]
  refine if_congr ?_ rfl rfl
  simp [power]

theorem exponent_cases (isFront : front <+: text) :
    exponent front = exponent text ∨ exponent front = front ∧ front <+: exponent text ∨
      exponent front = [] ∧ floatSuffix front = [] := by
  obtain rfl | ⟨mark, before, after, rfl, rfl, isRest⟩ := prefix_cases isFront
  · exact .inr (.inr ⟨rfl, rfl⟩)
  by_cases isMark : mark = 'e' ∨ mark = 'E'
  · by_cases none : power before = []
    · refine .inr (.inr ⟨by simp [exponent_cons, none], ?_⟩)
      rcases isMark with rfl | rfl <;> rfl
    · have sameSign : exponentSign before = exponentSign after := by
        refine (steady_exponentSign.cases isRest).resolve_right fun whole => none ?_
        rw [power, whole.1, List.drop_length]
        rfl
      have isPower : power before <+: power after := by
        rw [power, power, sameSign]
        exact steady_digits.greedy.mono (isRest.drop _)
      have someAfter : power after ≠ [] := fun empty => none (List.prefix_nil.1 (empty ▸ isPower))
      have steady := steady_exponentSign.inTurn steady_digits rfl
      rw [exponent_cons, exponent_cons, if_pos ⟨isMark, none⟩, if_pos ⟨isMark, someAfter⟩]
      exact (steady.cases isRest).imp (congrArg _) fun whole => .inl (by simpa using whole)
  · exact .inl (by simp [exponent_cons, isMark])

theorem greedy_exponent : Greedy exponent := by
  have signed := steady_exponentSign.inTurn steady_digits rfl
  refine ⟨fun text => ?_, fun text => ?_, fun {front text} isFront => ?_⟩
  · cases text with
    | nil => exact List.prefix_rfl
    | cons mark rest =>
      rw [exponent_cons]
      split_ifs
      · exact (List.prefix_cons_inj _).2 (signed.isPrefix rest)
      · exact List.nil_prefix
  · cases text with
    | nil => rfl
    | cons mark rest =>
      rw [exponent_cons]
      split_ifs with isExponent
      · have samePower : power (inTurn exponentSign digits rest) = power rest := by
          have sameSign : exponentSign (inTurn exponentSign digits rest) = exponentSign rest :=
            steady_exponentSign.greedy.eq_of_prefix (List.prefix_append _ _) (signed.isPrefix rest)
          rw [power, sameSign, inTurn, List.drop_left, steady_digits.again, power]
        rw [exponent_cons, samePower, if_pos isExponent, signed.again]
      · rfl
  · rcases exponent_cases isFront with same | ⟨whole, isPrefix⟩ | ⟨none, -⟩
    · rw [same]
    · rwa [whole]
    · rw [none]
      exact List.nil_prefix

theorem decimalNumber_eq : decimalNumber = inTurn (inTurn mantissa exponent) floatSuffix := by
  funext text
  simp [decimalNumber, inTurn]

theorem greedy_decimalNumber : Greedy decimalNumber := by
  have greedy := steady_mantissa.greedy.inTurn greedy_exponent (steady_mantissa.stops rfl)
  have suffix : Steady floatSuffix := floatSuffix_eq ▸ steady_nothing.onHead _
  rw [decimalNumber_eq]
  refine greedy.inTurn suffix.greedy fun front text isFront => ?_
  rcases steady_mantissa.cases isFront with same | ⟨whole, -⟩
  · unfold inTurn
    rw [← same]
    rcases exponent_cases (isFront.drop (mantissa front).length) with
      samePower | ⟨wholePower, -⟩ | ⟨noPower, noSuffix⟩
    · exact .inl (by rw [samePower])
    · refine .inr ?_
      rw [List.length_append, ← List.drop_drop, wholePower, List.drop_length]
      rfl
    · exact .inr (by simp [noPower, noSuffix])
  · refine .inr ?_
    have : inTurn mantissa exponent front = front := by simp [inTurn, whole, exponent]
    rw [this, List.drop_length]
    rfl

/-! ## The tokens at the front of a text -/

/-- The class and the characters of the token at the front of a text. -/
inductive Lexeme (text : List Char) : TokenKind → List Char → Prop
  | radix {body} (starts : startsNumber text = true) (isRadix : radixInteger? text = some body) :
    Lexeme text .integer body
  | decimal {body} (starts : startsNumber text = true) (noRadix : radixInteger? text = none)
    (isBody : decimalNumber text = body) : Lexeme text (if isFloatText body then .float else .integer) body
  | name {body} (noNumber : startsNumber text = false) (isName : name? text = some body) :
    Lexeme text .identifier body
  | operator {spelling} (noNumber : startsNumber text = false) (noName : name? text = none)
    (isOperator : operator? text = some spelling) : Lexeme text (operatorKind spelling) spelling.toList
  | mark {body} (noNumber : startsNumber text = false) (noName : name? text = none)
    (noOperator : operator? text = none) (isMark : mark? text = some body) : Lexeme text .punctuator body

variable {text front body : List Char} {kind : TokenKind}

theorem word?_eq_some : word? text = some (kind, body) ↔ Lexeme text kind body := by
  constructor
  · intro found
    unfold word? number? at found
    cases starts : startsNumber text with
    | true =>
      cases isRadix : radixInteger? text with
      | some radix =>
        simp only [starts, isRadix, if_true] at found
        cases found
        exact .radix starts isRadix
      | none =>
        simp only [starts, isRadix, if_true] at found
        cases found
        exact .decimal starts isRadix rfl
    | false =>
      cases isName : name? text with
      | some name =>
        simp only [starts, isName, Bool.false_eq_true, if_false] at found
        cases found
        exact .name starts isName
      | none =>
        cases isOperator : operator? text with
        | some spelling =>
          simp only [starts, isName, isOperator, Bool.false_eq_true, if_false] at found
          cases found
          exact .operator starts isName isOperator
        | none =>
          simp only [starts, isName, isOperator, Bool.false_eq_true, if_false] at found
          obtain ⟨mark, isMark, same⟩ := Option.map_eq_some_iff.1 found
          cases same
          exact .mark starts isName isOperator isMark
  · rintro (⟨starts, isRadix⟩ | ⟨starts, noRadix, rfl⟩ | ⟨noNumber, isName⟩ | ⟨noNumber, noName, isOperator⟩ |
      ⟨noNumber, noName, noOperator, isMark⟩) <;> simp_all [word?, number?]

theorem Lexeme.unique {other : List Char} {otherKind : TokenKind} (isWord : Lexeme text kind body)
    (isOther : Lexeme text otherKind other) : body = other := by
  have same := (word?_eq_some.2 isWord).symm.trans (word?_eq_some.2 isOther)
  cases same
  rfl

theorem startsNumber_of_isDigit {rest : List Char} (isDigit : character.isDigit = true) :
    startsNumber (character :: rest) = true := by
  unfold startsNumber
  split
  · rename_i same
    cases same
    simp at isDigit
  · rename_i same
    cases same
    exact isDigit
  · simp_all

theorem startsNumber_mono (isFront : front <+: text) (starts : startsNumber front = true) :
    startsNumber text = true := by
  obtain ⟨rest, rfl⟩ := isFront
  unfold startsNumber at starts
  split at starts
  · exact starts
  · exact startsNumber_of_isDigit starts
  · cases starts

theorem startsNumber_decimalNumber (starts : startsNumber text = true) :
    startsNumber (decimalNumber text) = true := by
  -- a digit, or a point with a digit, is a number that the text starts with
  obtain ⟨head, isHead, startsHead, whole⟩ : ∃ head, head <+: text ∧ startsNumber head = true ∧
      decimalNumber head = head := by
    unfold startsNumber at starts
    split at starts
    · rename_i digit rest
      exact ⟨['.', digit], by simp, starts,
        by simp [decimalNumber, mantissa, digits, exponent, floatSuffix, starts]⟩
    · rename_i digit rest noPoint
      refine ⟨[digit], by simp, startsNumber_of_isDigit starts, ?_⟩
      have : digit ≠ '.' := by
        rintro rfl
        simp at starts
      simp [decimalNumber, mantissa, digits, exponent, floatSuffix, starts, this]
    · cases starts
  have isFront := greedy_decimalNumber.mono isHead
  rw [whole] at isFront
  exact startsNumber_mono isFront startsHead

theorem radixInteger?_eq_some : radixInteger? text = some body ↔
    ∃ mark rest, text = '0' :: mark :: rest ∧ isRadixMark mark = true ∧ rest.takeWhile Char.isAlphanum ≠ [] ∧
      body = '0' :: mark :: rest.takeWhile Char.isAlphanum := by
  constructor
  · intro found
    unfold radixInteger? at found
    split at found
    · rename_i mark rest
      dsimp only at found
      split_ifs at found with accepted
      cases found
      obtain ⟨isMark, some⟩ := Bool.and_eq_true_iff.1 accepted
      exact ⟨mark, rest, rfl, isMark, by simpa using some, rfl⟩
    · cases found
  · rintro ⟨mark, rest, rfl, isMark, some, rfl⟩
    simp [radixInteger?, isMark, some]

theorem radixInteger?_mono (isFront : front <+: text) (isRadix : radixInteger? front = some body) :
    ∃ longer, radixInteger? text = some longer ∧ body <+: longer := by
  obtain ⟨mark, before, rfl, isMark, some, rfl⟩ := radixInteger?_eq_some.1 isRadix
  obtain ⟨rest, rfl⟩ := isFront
  have isPrefix : before.takeWhile Char.isAlphanum <+: (before ++ rest).takeWhile Char.isAlphanum :=
    (steady_takeWhile _).greedy.mono (List.prefix_append _ _)
  refine ⟨_, radixInteger?_eq_some.2 ⟨mark, before ++ rest, rfl, isMark, fun none => ?_, rfl⟩, by simpa using isPrefix⟩
  exact some (List.prefix_nil.1 (none ▸ isPrefix))

theorem decimalNumber_of_radix (isRadix : radixInteger? text = some body) : decimalNumber text = ['0'] := by
  obtain ⟨mark, rest, rfl, isMark, -, -⟩ := radixInteger?_eq_some.1 isRadix
  have noDigit : mark.isDigit = false ∧ mark ≠ '.' ∧ mark ≠ 'e' ∧ mark ≠ 'E' ∧ isFloatSuffix mark = false := by
    simp only [isRadixMark, Bool.or_eq_true, beq_iff_eq] at isMark
    rcases isMark with ((((rfl | rfl) | rfl) | rfl) | rfl) | rfl <;> decide
  simp [decimalNumber, mantissa, digits, exponent, floatSuffix, noDigit]

theorem name?_eq_some : name? text = some body ↔
    ∃ character rest, text = character :: rest ∧ isNameStart character = true ∧
      body = character :: rest.takeWhile isNamePart := by
  cases text with
  | nil => simp [name?]
  | cons character rest => by_cases starts : isNameStart character = true <;> grind [name?]

theorem isDigit_of_isNameStart (starts : isNameStart character = true) : character.isDigit = false := by
  by_contra! isDigit
  simp [isNameStart, Char.isAlpha, Char.isUpper, Char.isLower, Char.isDigit,
    UInt32.le_iff_toNat_le] at starts isDigit
  rcases starts with starts | rfl <;> grind

theorem startsNumber_of_head {rest : List Char} (noDigit : character.isDigit = false)
    (noPoint : character ≠ '.') : startsNumber (character :: rest) = false := by
  unfold startsNumber
  split <;> simp_all

theorem startsNumber_of_name? (isName : name? text = some body) : startsNumber text = false := by
  obtain ⟨character, rest, rfl, starts, -⟩ := name?_eq_some.1 isName
  refine startsNumber_of_head (isDigit_of_isNameStart starts) ?_
  rintro rfl
  simp [isNameStart] at starts

theorem operatorSpellings_spec :
    operatorSpellings.Pairwise (fun left right => right.toList.length ≤ left.toList.length) ∧
    ∀ spelling ∈ operatorSpellings, word? spelling.toList = some (operatorKind spelling, spelling.toList) ∧
      spelling.toList.head?.any (fun head => !head.isDigit && head != '.' && !isNameStart head) = true ∧
      ¬ ['/', '/'] <+: spelling.toList := by
  decide +kernel

theorem operator?_mono (isFront : front <+: text) {spelling : String} (isOperator : operator? front = some spelling) :
    ∃ longer, operator? text = some longer ∧ spelling.toList.length ≤ longer.toList.length := by
  have fits := List.find?_some isOperator
  rw [List.isPrefixOf_iff_prefix] at fits
  have listed := List.mem_of_find?_eq_some isOperator
  have fitsText : spelling.toList.isPrefixOf text = true := List.isPrefixOf_iff_prefix.2 (fits.trans isFront)
  cases isLonger : operator? text with
  | none => exact absurd fitsText (List.find?_eq_none.1 isLonger spelling listed)
  | some longer =>
    refine ⟨longer, rfl, ?_⟩
    obtain ⟨-, before, after, same, first⟩ := List.find?_eq_some_iff_append.1 isLonger
    have sorted := operatorSpellings_spec.1
    rw [same] at sorted listed
    rcases List.mem_append.1 listed with isBefore | isAfter
    · have fails := first spelling isBefore
      rw [fitsText] at fails
      cases fails
    · rcases List.mem_cons.1 isAfter with rfl | isAfter
      · rfl
      · exact List.rel_of_pairwise_cons (List.pairwise_append.1 sorted).2.1 isAfter

theorem word?_of_isPunctuation (isMark : isPunctuation character = true) :
    word? [character] = some (.punctuator, [character]) := by
  simp only [isPunctuation, List.contains_eq_mem, List.mem_cons, List.not_mem_nil, or_false,
    decide_eq_true_eq] at isMark
  rcases isMark with rfl | rfl | rfl | rfl | rfl | rfl | rfl | rfl | rfl | rfl <;> decide +kernel

theorem mark?_eq_some : mark? text = some body ↔
    ∃ character rest, text = character :: rest ∧ isPunctuation character = true ∧ body = [character] := by
  cases text with
  | nil => simp [mark?]
  | cons character rest => by_cases punctuates : isPunctuation character = true <;> grind [mark?]

theorem Lexeme.alone (isWord : Lexeme text kind body) : Lexeme body kind body := by
  cases isWord with
  | radix starts isRadix =>
    obtain ⟨mark, rest, rfl, isMark, some, rfl⟩ := radixInteger?_eq_some.1 isRadix
    refine .radix (startsNumber_of_isDigit rfl) (radixInteger?_eq_some.2 ⟨mark, _, rfl, isMark, ?_, ?_⟩)
    all_goals rw [List.takeWhile_idem]
    exact some
  | decimal starts noRadix isBody =>
    subst isBody
    refine .decimal (startsNumber_decimalNumber starts) ?_ (greedy_decimalNumber.again text)
    by_contra isRadix
    obtain ⟨body, isRadix⟩ := Option.ne_none_iff_exists'.1 isRadix
    obtain ⟨longer, isLonger, -⟩ := radixInteger?_mono (greedy_decimalNumber.isPrefix text) isRadix
    cases noRadix.symm.trans isLonger
  | name noNumber isName =>
    obtain ⟨character, rest, rfl, starts, rfl⟩ := name?_eq_some.1 isName
    have isName : name? (character :: rest.takeWhile isNamePart) =
        some (character :: rest.takeWhile isNamePart) :=
      name?_eq_some.2 ⟨character, _, rfl, starts, by rw [List.takeWhile_idem]⟩
    exact .name (startsNumber_of_name? isName) isName
  | operator _ _ isOperator =>
    exact word?_eq_some.1 (operatorSpellings_spec.2 _ (List.mem_of_find?_eq_some isOperator)).1
  | mark _ _ _ isMark =>
    obtain ⟨character, rest, rfl, punctuates, rfl⟩ := mark?_eq_some.1 isMark
    exact word?_eq_some.1 (word?_of_isPunctuation punctuates)

theorem Lexeme.longest {other : TokenKind} (isWord : Lexeme text kind body) (isFront : front <+: text)
    (isOther : Lexeme front other front) : front.length ≤ body.length := by
  have some : 0 < body.length := List.length_pos_iff.2 (word?_ne_nil (word?_eq_some.2 isWord))
  cases isOther with
  | radix starts isRadix =>
    obtain ⟨longer, isLonger, isPrefix⟩ := radixInteger?_mono isFront isRadix
    rw [isWord.unique (.radix (startsNumber_mono isFront starts) isLonger)]
    exact isPrefix.length_le
  | decimal starts noRadix isWhole =>
    have isPrefix := greedy_decimalNumber.mono isFront
    rw [isWhole] at isPrefix
    cases isRadix : radixInteger? text with
    | some radix =>
      rw [decimalNumber_of_radix isRadix] at isPrefix
      exact isPrefix.length_le.trans some
    | none =>
      rw [isWord.unique (.decimal (startsNumber_mono isFront starts) isRadix rfl)]
      exact isPrefix.length_le
  | name noNumber isName =>
    obtain ⟨character, before, rfl, starts, isWhole⟩ := name?_eq_some.1 isName
    obtain ⟨rest, rfl⟩ := isFront
    have isLonger : name? (character :: (before ++ rest)) =
        Option.some (character :: (before ++ rest).takeWhile isNamePart) :=
      name?_eq_some.2 ⟨character, _, rfl, starts, rfl⟩
    rw [isWord.unique (.name (startsNumber_of_name? isLonger) isLonger), isWhole]
    exact Nat.succ_le_succ ((steady_takeWhile isNamePart).greedy.mono (List.prefix_append _ _)).length_le
  | operator _ _ isOperator =>
    -- the first character of an operator keeps the text from being a number or a name
    obtain ⟨-, heads, -⟩ := operatorSpellings_spec.2 _ (List.mem_of_find?_eq_some isOperator)
    obtain ⟨head, isHead, noOther⟩ := (Option.any_eq_true _ _).1 heads
    obtain ⟨tail, rfl⟩ : ∃ tail, text = head :: tail := by
      obtain ⟨rest, rfl⟩ := isFront
      exact List.head?_eq_some_iff.1 (by rw [List.head?_append, isHead]; rfl)
    simp only [Bool.and_eq_true, Bool.not_eq_true', bne_iff_ne] at noOther
    obtain ⟨longer, isLonger, shorter⟩ := operator?_mono isFront isOperator
    rwa [isWord.unique (.operator (startsNumber_of_head noOther.1.1 noOther.1.2)
      (by simp [name?, noOther.2]) isLonger)]
  | mark noNumber noName noOperator isMark =>
    obtain ⟨character, rest, -, -, isWhole⟩ := mark?_eq_some.1 isMark
    rw [isWhole]
    exact some

end Shader
