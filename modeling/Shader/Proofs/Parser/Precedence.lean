import Shader.Proofs.Parser.Grammar

/-! # Precedence climbing

Reading an expression of a level reads a word that the level derives, builds the tree of the derivation and
stops in front of a token that does not go on with it, and every such word is read.

* `Parser.SoundWithin` collects what the functions that read expressions to a depth do when they succeed.
* `Derives.completes` says that a derived word is read, by induction on the derivation.
* `expression_eq_ok_iff` is the result. -/

namespace Shader

/-! ## Every expression that is read is derived -/

namespace ParserState

variable {state after : ParserState} {level higher : Nat}

theorem Stops.mono (le : level ≤ higher) (stops : state.Stops level) : state.Stops higher :=
  stops.imp fun _ facts => ⟨facts.1, Token.stops_mono le facts.2⟩

theorem Stops.still (stops : state.Stops level) (same : after.stream = state.stream) : after.Stops level := by
  rwa [Stops, same]

theorem Stops.leading (stops : state.Stops level) : state.Stops leadingPrecedence := by
  obtain ⟨token, front, stops⟩ := stops
  rw [Token.stops, Bool.and_eq_true] at stops
  exact ⟨token, front, Token.stops_leading ▸ stops.1⟩

end ParserState

namespace Parser

/-- What functions that read expressions to a depth do when they succeed. -/
structure SoundWithin (depth : Nat) : Prop where
  expression : ∀ state level, Gives (expressionWithin depth level) state fun id after =>
    (∃ word, Derives (.level level) state word id after) ∧ after.Stops level
  operators : ∀ {start state level higher word left}, level ≤ higher →
    Derives (.level higher) start word left state → state.Stops (rightLevel higher) →
    Gives (operatorsWithin depth level left) state fun id after =>
      (∃ word, Derives (.level level) start word id after) ∧ after.Stops level
  operand : ∀ state, Gives (operandWithin depth) state fun id after =>
    (∃ word, Derives .operand state word id after) ∧ after.Stops leadingPrecedence
  named : ∀ {state name}, state.stream.front = .ok name → name.kind = .identifier →
    Gives (namedWithin depth name) state fun id after => ∃ word, Derives .primary state word id after
  arguments : ∀ state isFirst, Gives (argumentsWithin depth isFirst) state fun result after =>
    ∃ word, Derives (.arguments isFirst) state word result after
  trailing : ∀ {start state word left}, Derives .primary start word left state →
    Gives (trailingWithin depth left) state fun id after =>
      (∃ word, Derives .primary start word id after) ∧ after.Stops leadingPrecedence

namespace SoundWithin

variable {depth level higher : Nat} {start state : ParserState} {word : List Token} {left : ExprId}

theorem expression_succ (sound : SoundWithin depth) :
    Gives (expressionWithin (depth + 1) level) state fun id after =>
      (∃ word, Derives (.level level) state word id after) ∧ after.Stops level := by
  rw [expressionWithin]
  refine Gives.bind (sound.operand state) ?_
  rintro operand after ⟨⟨word, derives⟩, stops⟩
  have above (op : BinaryOp) : op.precedence < max level leadingPrecedence :=
    op.precedence_lt.trans_le (le_max_right _ _)
  exact sound.operators (le_max_left _ _) (.operand above derives)
    (stops.mono ((le_max_right _ _).trans (le_rightLevel _)))

theorem operators_succ (sound : SoundWithin depth) (le : level ≤ higher)
    (derives : Derives (.level higher) start word left state) (stops : state.Stops (rightLevel higher)) :
    Gives (operatorsWithin (depth + 1) level left) state fun id after =>
      (∃ word, Derives (.level level) start word id after) ∧ after.Stops level := by
  rw [operatorsWithin]
  refine gives_front_bind fun token front => ?_
  obtain ⟨_, sameFront, stops⟩ := stops
  cases front.symm.trans sameFront
  simp only [Token.stops, Bool.and_eq_true, Bool.not_eq_true', Option.all_eq_true, decide_eq_true_eq] at stops
  obtain ⟨noTrailer, below⟩ := stops
  -- behind the operators of the level
  have done (lower : ∀ other, token.infixLevel? = some other → other < level) :
      Gives (pure left) state fun id after =>
        (∃ word, Derives (.level level) start word id after) ∧ after.Stops level := by
    refine gives_pure ⟨⟨word, derives.of_le le⟩, token, front, ?_⟩
    simpa [Token.stops, noTrailer, Option.all_eq_true] using lower
  split_ifs with noMark isQuestion above
  · exact done (by simp [Token.infixLevel?, noMark])
  · exact done (by simpa [Token.infixLevel?, noMark, isQuestion] using above)
  · -- a ternary operator
    have isMark : token.kind = .punctuator := not_not.mp noMark
    have leBelow := lt_of_lt_rightLevel (below _ (by simp [Token.infixLevel?, isMark, isQuestion]))
    refine gives_advance_bind front fun _ shift => ?_
    refine Gives.bind (sound.expression _ 0) ?_
    rintro onTrue _ ⟨⟨word₂, isTrue⟩, -⟩
    refine gives_front_bind fun _ _ => gives_eat_bind (fun colon _ shiftColon isColon => ?_)
      fun _ _ _ => gives_throw_bind
    refine Gives.bind (sound.expression _ _) ?_
    rintro onFalse _ ⟨⟨word₃, isFalse⟩, stopsFalse⟩
    refine Gives.bind (fun _ _ made => made) fun ternary last made => ?_
    refine sound.operators (not_lt.mp above) (.ternary (derives.of_le leBelow) shift
      (by simp [Token.isMark, isMark, isQuestion]) isTrue shiftColon isColon isFalse made) ?_
    exact (stopsFalse.still (makeTernary_still _ _ _ _ _ _ made)).mono (le_rightLevel _)
  · split
    · rename_i noOp
      exact done (by simp [Token.infixLevel?, noMark, isQuestion, noOp])
    · rename_i op isOp
      have isMark : token.kind = .punctuator := not_not.mp noMark
      have isLevel := (Token.infixLevel_of_ofToken? isMark isOp).1
      split_ifs with above
      · exact done (by simpa [isLevel] using above)
      · refine gives_advance_bind front fun _ shift => ?_
        refine Gives.bind (sound.expression _ _) ?_
        rintro right _ ⟨⟨word₂, onRight⟩, stopsRight⟩
        refine Gives.bind (fun _ _ made => made) fun binary last made => ?_
        refine sound.operators (not_lt.mp above) (.binary
          (derives.of_le (BinaryOp.leftPrecedence_le (below _ isLevel))) shift isMark isOp onRight made) ?_
        rw [op.rightLevel_precedence]
        exact stopsRight.still (makeBinary_still _ _ _ _ _ _ _ made)

theorem operand_succ (sound : SoundWithin depth) : Gives (operandWithin (depth + 1)) state fun id after =>
      (∃ word, Derives .operand state word id after) ∧ after.Stops leadingPrecedence := by
  rw [operandWithin]
  refine gives_front_bind fun token front => ?_
  have trailing {now : ParserState} {word : List Token} {id : ExprId}
      (derives : Derives .primary state word id now) : Gives (trailingWithin depth id) now fun id after =>
      (∃ word, Derives .operand state word id after) ∧ after.Stops leadingPrecedence :=
    (sound.trailing derives).mono fun _ _ facts =>
      ⟨facts.1.imp fun _ derives => .primary derives, facts.2⟩
  have number (isNumber : token.kind = .float ∨ token.kind = .integer) : Gives (do
      let _ ← advance
      let number ← makeNumber token
      trailingWithin depth number) state fun id after =>
      (∃ word, Derives .operand state word id after) ∧ after.Stops leadingPrecedence :=
    gives_advance_bind front fun _ shift => Gives.bind (fun _ _ made => made) fun _ _ made =>
      trailing (.number shift isNumber made)
  split
  · rename_i kind
    exact number (.inl kind)
  · rename_i kind
    exact number (.inr kind)
  · rename_i kind
    refine Gives.bind (sound.named front kind) ?_
    rintro named after ⟨word, derives⟩
    exact trailing derives
  · rename_i kind
    split
    · rename_i op isOp
      refine gives_advance_bind front fun _ shift => Gives.bind (sound.expression _ leadingPrecedence) ?_
      rintro operand _ ⟨⟨word, derives⟩, stops⟩ id after made
      exact ⟨⟨_, .leading shift kind isOp derives made⟩, stops.still (makeLeading_still _ _ _ _ _ _ made)⟩
    · split_ifs with isOpen
      · refine gives_advance_bind front fun _ shift => Gives.bind (sound.expression _ 0) ?_
        rintro inner _ ⟨⟨word, derives⟩, -⟩
        refine gives_eat_bind (fun close _ shiftClose isClose => ?_) fun _ _ _ => gives_throw_bind
        exact trailing (.parentheses shift (by simp [Token.isMark, kind, isOpen]) derives shiftClose isClose)
      · exact gives_throw
  · exact gives_throw

theorem named_succ (sound : SoundWithin depth) {name : Token} (front : state.stream.front = .ok name)
    (isName : name.kind = .identifier) : Gives (namedWithin (depth + 1) name) state fun id after =>
      ∃ word, Derives .primary state word id after := by
  rw [namedWithin]
  split_ifs with isBool
  · exact gives_advance_bind front fun _ shift _ _ made => ⟨_, .bool shift isName isBool made⟩
  · refine Gives.bind (fun _ _ resolved => resolved) fun symbol now resolved => ?_
    cases resolve_eq resolved
    refine gives_advance_bind front fun _ shift => ?_
    split
    · refine Gives.bind (fun _ _ opens => opens) fun _ _ opens => ?_
      obtain ⟨paren, takes⟩ := openStructInit_takes _ _ opens
      refine Gives.bind (sound.arguments _ true) ?_
      rintro ⟨arguments, close⟩ _ ⟨word, inside⟩ _ _ made
      exact ⟨_, .structInit shift isName isBool resolved takes.1 opens inside made⟩
    · refine Gives.bind (fun _ _ opens => opens) fun _ _ opens => ?_
      obtain ⟨paren, takes⟩ := openCall_takes _ _ opens
      refine Gives.bind (sound.arguments _ true) ?_
      rintro ⟨arguments, close⟩ _ ⟨word, inside⟩ _ _ made
      exact ⟨_, .call shift isName isBool resolved takes.1 opens inside made⟩
    · exact gives_get_bind fun _ _ made => ⟨_, .var shift isName isBool resolved made⟩

theorem arguments_succ (sound : SoundWithin depth) (isFirst : Bool) :
    Gives (argumentsWithin (depth + 1) isFirst) state fun result after =>
      ∃ word, Derives (.arguments isFirst) state word result after := by
  rw [argumentsWithin]
  refine gives_front_bind fun token front => gives_eat_bind (fun close after shift isClose => ?_)
    fun _ sameFront isOpen => ?_
  · cases front.symm.trans (advance_eq_ok_iff.mp shift).1
    exact gives_pure ⟨_, .close shift isClose⟩
  cases front.symm.trans sameFront
  rw [if_neg Bool.false_ne_true]
  have more {now : ParserState} {good : List ExprId × Span → ParserState → Prop}
      (step : ∀ {word more id rest close middle last}, Derives (.level assignmentPrecedence) now word id middle →
        Derives (.arguments false) middle more (rest, close) last → good (id :: rest, close) last) :
      Gives (do
        let argument ← expressionWithin depth assignmentPrecedence
        let result ← argumentsWithin depth false
        return (argument :: result.1, result.2)) now good := by
    refine Gives.bind (sound.expression now _) ?_
    rintro argument middle ⟨⟨word, derives⟩, -⟩
    refine Gives.bind (sound.arguments middle false) ?_
    rintro ⟨rest, close⟩ last ⟨more, others⟩
    exact gives_pure (step derives others)
  split_ifs with isEnd starts
  · exact gives_throw
  · cases starts
    exact more fun argument others => ⟨_, .first front isOpen isEnd argument others⟩
  · cases Bool.eq_false_of_not_eq_true starts
    refine gives_eat_bind (fun comma after shift isComma => ?_) fun _ _ _ => gives_throw_bind
    exact more fun argument others => ⟨_, .next shift isComma argument others⟩

theorem trailing_succ (sound : SoundWithin depth) (derives : Derives .primary start word left state) :
    Gives (trailingWithin (depth + 1) left) state fun id after =>
      (∃ word, Derives .primary start word id after) ∧ after.Stops leadingPrecedence := by
  rw [trailingWithin]
  refine gives_front_bind fun token front => ?_
  have done (noTrailer : token.isTrailer = false) : Gives (pure left) state fun id after =>
      (∃ word, Derives .primary start word id after) ∧ after.Stops leadingPrecedence :=
    gives_pure ⟨⟨word, derives⟩, token, front, by rw [Token.stops_leading, noTrailer]; rfl⟩
  by_cases isMark : token.kind = .punctuator
  swap
  · rw [if_pos isMark]
    exact done (by simp [Token.isTrailer, isMark])
  rw [if_neg (not_not.mpr isMark)]
  split
  · rename_i op isOp
    refine gives_advance_bind front fun _ shift => Gives.bind (fun _ _ made => made) fun stepped _ made => ?_
    exact sound.trailing (.trailing derives shift isMark isOp made)
  · rename_i noOp
    split_ifs with isDot isOpen
    · refine gives_advance_bind front fun _ shift => Gives.bind (fun _ _ made => made) fun selected _ made => ?_
      obtain ⟨name, takes⟩ := memberAccess_takes _ _ made
      exact sound.trailing (.member derives shift (by simp [Token.isMark, isMark, isDot]) takes.1 made)
    · refine gives_advance_bind front fun _ shift => gives_get_bind (gives_get_bind ?_)
      refine gives_accept_bind fun element isElement => Gives.bind (sound.expression _ 0) ?_
      rintro position inner ⟨⟨word₂, inside⟩, -⟩
      refine gives_get_bind (gives_accept_bind fun _ checked => ?_)
      refine Gives.bind (fun _ _ closes => closes) fun close _ closes => ?_
      refine Gives.bind (fun _ _ made => made) fun indexed _ made => ?_
      have isClose : Token.isMark ⟨.punctuator, "]", close⟩ "]" = true := rfl
      exact sound.trailing (.index derives shift (by simp [Token.isMark, isMark, isOpen]) isElement inside
        checked isClose closes made)
    · exact done (by simp [Token.isTrailer, isMark, noOp, isDot, isOpen])

end SoundWithin

theorem soundWithin (depth : Nat) : SoundWithin depth := by
  induction depth with
  | zero => constructor <;> intros <;> intro _ _ runs <;> cases runs
  | succ depth sound =>
    exact ⟨fun _ _ => sound.expression_succ, sound.operators_succ, fun _ => sound.operand_succ,
      sound.named_succ, fun _ => sound.arguments_succ, sound.trailing_succ⟩

end Parser

/-! ## Every derived expression is read -/

namespace Parser

variable {before after : ParserState} {word : List Token} {id : ExprId} {depth level : Nat}

theorem operatorsWithin_of_stops (stops : after.Stops level) :
    operatorsWithin (depth + 1) level id after = .ok id after := by
  obtain ⟨token, front, stops⟩ := stops
  simp only [Token.stops, Token.infixLevel?, Bool.and_eq_true] at stops
  have below := stops.2
  rw [operatorsWithin, bind_eq (peek_eq front)]
  split_ifs at below ⊢ with noMark isQuestion above
  · rfl
  · rfl
  · exact absurd (of_decide_eq_true below) above
  · cases isOp : BinaryOp.ofToken? token.text with
    | none => rfl
    | some op =>
      rw [isOp] at below
      simp only [if_pos (of_decide_eq_true below)]
      rfl

theorem trailingWithin_of_stops (stops : after.Stops leadingPrecedence) :
    trailingWithin (depth + 1) id after = .ok id after := by
  obtain ⟨token, front, stops⟩ := stops
  rw [Token.stops_leading] at stops
  rw [trailingWithin, bind_eq (peek_eq front)]
  by_cases isMark : token.kind = .punctuator
  · simp only [Token.isTrailer, isMark, beq_self_eq_true, Bool.true_and, Bool.not_or, Bool.and_eq_true,
      Bool.not_eq_true', Option.isSome_eq_false_iff, Option.isNone_iff_eq_none, beq_eq_false_iff_ne] at stops
    obtain ⟨⟨noOp, noDot⟩, noBracket⟩ := stops
    rw [if_neg (not_not.mpr isMark), noOp]
    simp only [if_neg noDot, if_neg noBracket]
    rfl
  · rw [if_pos isMark]
    rfl

theorem stops_of_advance {token : Token} (shift : advance before = .ok token after)
    (stops : token.stops level = true) : before.Stops level :=
  ⟨token, (advance_eq_ok_iff.mp shift).1, stops⟩

theorem stops_of_spells {token : Token} {text : String} (shift : advance before = .ok token after)
    (isText : token.spells text = true) (plain : text ≠ "?" ∧ BinaryOp.ofToken? text = none ∧
      UnaryOp.ofTrailingToken? text = none ∧ text ≠ "." ∧ text ≠ "[") : before.Stops level :=
  stops_of_advance shift (Token.stops_of_text (Token.text_of_spells isText) plain)

theorem stops_of_closes {close : Span} (closes : expectClosingBracket before = .ok close after) :
    before.Stops level := by
  have gives : Gives expectClosingBracket before fun _ _ => before.Stops level := by
    refine gives_front_bind fun token front => ?_
    split_ifs with isMark isBoth
    · refine gives_advance_bind front fun _ _ => gives_pure ⟨token, front, ?_⟩
      exact Token.stops_of_text (Token.text_of_isMark isMark).2 (by decide)
    · exact gives_modify_bind (gives_pure ⟨token, front, Token.stops_of_not_mark (by simp [isBoth])⟩)
    · exact gives_throw
  exact gives _ _ closes

theorem operandWithin_named {name : Token} {now : ParserState} (shift : advance before = .ok name now)
    (isName : name.kind = .identifier) (runs : namedWithin depth name before = .ok id after) :
    operandWithin (depth + 1) before = trailingWithin depth id after := by
  rw [operandWithin, bind_eq (peek_of_advance shift), isName]
  exact bind_eq runs

end Parser

open Shader.Parser in
/-- A word is read to every depth that is large enough for it. Behind the word of a level the reading goes on
with operators, and behind an operand that starts without an operator with what trails it. -/
def Category.Reads : (category : Category) → ParserState → List Token → category.Result → ParserState → Prop
  | .level higher, before, word, id, after => ∀ depth level, level ≤ higher → 8 * word.length ≤ depth →
    after.Stops (rightLevel higher) → ∃ left, depth ≤ left + word.length ∧
      expressionWithin depth level before = operatorsWithin left level id after
  | .operand, before, word, id, after => ∀ depth, 8 * word.length ≤ depth + 1 →
    after.Stops leadingPrecedence → operandWithin depth before = .ok id after
  | .primary, before, word, id, after => ∀ depth, 8 * word.length ≤ depth + 1 →
    ∃ left, depth ≤ left + word.length ∧ operandWithin depth before = trailingWithin left id after
  | .arguments isFirst, before, word, result, after => ∀ depth, 8 * word.length ≤ depth + 7 →
    argumentsWithin depth isFirst before = .ok result after

namespace Derives

open Shader.Parser

variable {category : Category} {before after : ParserState} {word : List Token} {result : category.Result}
  {id : ExprId} {depth level : Nat}

theorem read_eq (derives : Derives (.level level) before word id after)
    (reads : Category.Reads (.level level) before word id after) (enough : 8 * word.length ≤ depth)
    (stops : after.Stops level) : expressionWithin depth level before = .ok id after := by
  have positive := derives.length_pos
  obtain ⟨left, le, runs⟩ := reads depth level le_rfl enough (stops.mono (le_rightLevel level))
  obtain ⟨left, rfl⟩ := Nat.exists_eq_add_one_of_ne_zero (show left ≠ 0 by omega)
  rw [runs, operatorsWithin_of_stops stops]

theorem stops_of_arguments {result : List ExprId × Span}
    (derives : Derives (.arguments false) before word result after) : before.Stops assignmentPrecedence := by
  cases derives with
  | close shift isClose =>
    exact stops_of_spells shift isClose (by decide)
  | next shift isComma =>
    have isOp : BinaryOp.ofToken? "," = some .comma := by decide
    rw [← Token.text_of_spells isComma] at isOp
    exact stops_of_advance shift ((em _).elim
      (fun isMark => Token.stops_of_ofToken? isMark isOp (by decide)) Token.stops_of_not_mark)

theorem completes (derives : Derives category before word result after) :
    category.Reads before word result after := by
  induction derives with
  | lower _ ih =>
    intro depth level le enough stops
    exact ih depth level (le.trans (Nat.le_succ _)) enough (stops.mono (rightLevel_mono (Nat.le_succ _)))
  | operand above derives ih =>
    intro depth level le enough stops
    have positive := derives.length_pos
    obtain ⟨depth, rfl⟩ := Nat.exists_eq_add_one_of_ne_zero (show depth ≠ 0 by omega)
    refine ⟨depth, by omega, ?_⟩
    rw [expressionWithin, bind_eq (ih depth enough stops.leading)]
  | binary onLeft shift isMark isOp onRight made left right =>
    intro depth level le enough stops
    simp only [List.length_append, List.length_cons] at enough ⊢
    have noOp : BinaryOp.ofToken? "?" = none := by decide
    have noQuestion : Token.text _ ≠ "?" := fun isQuestion => by
      rw [isQuestion, noOp] at isOp
      cases isOp
    have stopsLeft := Token.stops_of_ofToken? isMark isOp (BinaryOp.precedence_lt_rightLevel _)
    obtain ⟨rest, leRest, runs⟩ := left depth level (le.trans (BinaryOp.precedence_le_leftPrecedence _))
      (by omega) (stops_of_advance shift stopsLeft)
    obtain ⟨rest, rfl⟩ := Nat.exists_eq_add_one_of_ne_zero (show rest ≠ 0 by omega)
    rw [BinaryOp.rightLevel_precedence] at stops
    have stopsRight := stops.still (makeBinary_still _ _ _ _ _ _ _ made).symm
    refine ⟨rest, by omega, ?_⟩
    rw [runs, operatorsWithin, bind_eq (peek_of_advance shift), if_neg (not_not.mpr isMark), if_neg noQuestion,
      isOp]
    simp only [if_neg (not_lt.mpr le)]
    rw [bind_eq shift, bind_eq (onRight.read_eq right (by omega) stopsRight), bind_eq made]
  | ternary decides shift isMark isTrue shiftColon isColon isFalse made first second third =>
    intro depth level le enough stops
    rename_i mark _
    simp only [List.length_append, List.length_cons] at enough ⊢
    obtain ⟨kind, text⟩ := Token.text_of_isMark isMark
    have stopsFirst : mark.stops (rightLevel (ternaryPrecedence + 1)) = true := by
      simp only [Token.stops, Token.isTrailer, Token.infixLevel?, kind, text]
      decide
    obtain ⟨rest, leRest, runs⟩ := first depth level (le.trans (Nat.le_succ _)) (by omega)
      (stops_of_advance shift stopsFirst)
    obtain ⟨rest, rfl⟩ := Nat.exists_eq_add_one_of_ne_zero (show rest ≠ 0 by omega)
    have stopsFalse := stops.still (makeTernary_still _ _ _ _ _ _ made).symm
    refine ⟨rest, by omega, ?_⟩
    rw [runs, operatorsWithin, bind_eq (peek_of_advance shift), if_neg (not_not.mpr kind), if_pos text,
      if_neg (not_lt.mpr le), bind_eq shift,
      bind_eq (isTrue.read_eq second (by omega) (stops_of_spells shiftColon isColon (by decide))),
      bind_eq (peek_of_advance shiftColon), bind_eq (eat_eq shiftColon isColon)]
    dsimp only
    rw [if_pos rfl, bind_eq (isFalse.read_eq third (by omega) stopsFalse), bind_eq made]
  | leading shift isMark isOp below made ih =>
    intro depth enough stops
    simp only [List.length_cons] at enough
    obtain ⟨depth, rfl⟩ := Nat.exists_eq_add_one_of_ne_zero (show depth ≠ 0 by omega)
    have stopsBelow := stops.still (makeLeading_still _ _ _ _ _ _ made).symm
    rw [operandWithin, bind_eq (peek_of_advance shift), isMark]
    simp only [isOp]
    rw [bind_eq shift, bind_eq (below.read_eq ih (by omega) stopsBelow), made]
  | primary below ih =>
    intro depth enough stops
    have positive := below.length_pos
    obtain ⟨left, le, runs⟩ := ih depth enough
    obtain ⟨left, rfl⟩ := Nat.exists_eq_add_one_of_ne_zero (show left ≠ 0 by omega)
    rw [runs, trailingWithin_of_stops stops]
  | trailing below shift isMark isOp made ih =>
    intro depth enough
    simp only [List.length_append, List.length_cons, List.length_nil] at enough ⊢
    obtain ⟨left, le, runs⟩ := ih depth (by omega)
    obtain ⟨left, rfl⟩ := Nat.exists_eq_add_one_of_ne_zero (show left ≠ 0 by omega)
    refine ⟨left, by omega, ?_⟩
    rw [runs, trailingWithin, bind_eq (peek_of_advance shift), if_neg (not_not.mpr isMark), isOp]
    dsimp only
    rw [bind_eq shift, bind_eq made]
  | member below shift isDot isNext made ih =>
    intro depth enough
    simp only [List.length_append, List.length_cons, List.length_nil] at enough ⊢
    obtain ⟨left, le, runs⟩ := ih depth (by omega)
    obtain ⟨left, rfl⟩ := Nat.exists_eq_add_one_of_ne_zero (show left ≠ 0 by omega)
    obtain ⟨kind, text⟩ := Token.text_of_isMark isDot
    refine ⟨left, by omega, ?_⟩
    have noOp : UnaryOp.ofTrailingToken? "." = none := by decide
    rw [runs, trailingWithin, bind_eq (peek_of_advance shift), if_neg (not_not.mpr kind), text, noOp]
    simp only [if_true]
    rw [bind_eq shift, bind_eq made]
  | index below shift isOpen isElement inside checked isClose closes made ih inner =>
    intro depth enough
    simp only [List.length_append, List.length_cons, List.length_nil] at enough ⊢
    obtain ⟨left, le, runs⟩ := ih depth (by omega)
    obtain ⟨left, rfl⟩ := Nat.exists_eq_add_one_of_ne_zero (show left ≠ 0 by omega)
    obtain ⟨kind, text⟩ := Token.text_of_isMark isOpen
    refine ⟨left, by omega, ?_⟩
    have noOp : UnaryOp.ofTrailingToken? "[" = none := by decide
    rw [runs, trailingWithin, bind_eq (peek_of_advance shift), if_neg (not_not.mpr kind), text, noOp]
    simp only [String.reduceEq, if_true, if_false]
    rw [bind_eq shift]
    change (accept _ >>= _) _ = _
    rw [bind_eq (accept_eq isElement), bind_eq (inside.read_eq inner (by omega) (stops_of_closes closes))]
    change (accept _ >>= _) _ = _
    rw [bind_eq (accept_eq checked), bind_eq closes, bind_eq made]
  | parentheses shift isOpen inside shiftClose isClose ih =>
    intro depth enough
    simp only [List.length_append, List.length_cons, List.length_nil] at enough ⊢
    obtain ⟨depth, rfl⟩ := Nat.exists_eq_add_one_of_ne_zero (show depth ≠ 0 by omega)
    obtain ⟨kind, text⟩ := Token.text_of_isMark isOpen
    refine ⟨depth, by omega, ?_⟩
    have noOp : UnaryOp.ofLeadingToken? "(" = none := by decide
    rw [operandWithin, bind_eq (peek_of_advance shift), kind, text]
    simp only [noOp, if_true]
    rw [bind_eq shift,
      bind_eq (inside.read_eq ih (by omega) (stops_of_spells shiftClose isClose (by decide))),
      bind_eq (eat_eq shiftClose isClose)]
    rfl
  | number shift isNumber made =>
    intro depth enough
    simp only [List.length_cons, List.length_nil] at enough ⊢
    obtain ⟨depth, rfl⟩ := Nat.exists_eq_add_one_of_ne_zero (show depth ≠ 0 by omega)
    refine ⟨depth, by omega, ?_⟩
    rw [operandWithin, bind_eq (peek_of_advance shift)]
    rcases isNumber with kind | kind <;> simp only [kind] <;> rw [bind_eq shift, bind_eq made]
  | bool shift isName isBool made =>
    intro depth enough
    simp only [List.length_cons, List.length_nil] at enough ⊢
    obtain ⟨depth, rfl⟩ := Nat.exists_eq_add_of_le' (show 2 ≤ depth by omega)
    refine ⟨depth + 1, by omega, operandWithin_named shift isName ?_⟩
    rw [namedWithin, if_pos isBool, bind_eq shift, made]
  | var shift isName noBool resolved made =>
    intro depth enough
    simp only [List.length_cons, List.length_nil] at enough ⊢
    obtain ⟨depth, rfl⟩ := Nat.exists_eq_add_of_le' (show 2 ≤ depth by omega)
    refine ⟨depth + 1, by omega, operandWithin_named shift isName ?_⟩
    rw [namedWithin, if_neg noBool, bind_eq resolved, bind_eq shift]
    exact made
  | structInit shift isName noBool resolved _ opens inside made ih =>
    intro depth enough
    simp only [List.length_cons] at enough ⊢
    obtain ⟨depth, rfl⟩ := Nat.exists_eq_add_of_le' (show 2 ≤ depth by omega)
    refine ⟨depth + 1, by omega, operandWithin_named shift isName ?_⟩
    rw [namedWithin, if_neg noBool, bind_eq resolved, bind_eq shift]
    dsimp only
    rw [bind_eq opens, bind_eq (ih depth (by omega)), made]
  | call shift isName noBool resolved _ opens inside made ih =>
    intro depth enough
    simp only [List.length_cons] at enough ⊢
    obtain ⟨depth, rfl⟩ := Nat.exists_eq_add_of_le' (show 2 ≤ depth by omega)
    refine ⟨depth + 1, by omega, operandWithin_named shift isName ?_⟩
    rw [namedWithin, if_neg noBool, bind_eq resolved, bind_eq shift]
    dsimp only
    rw [bind_eq opens, bind_eq (ih depth (by omega)), made]
  | close shift isClose =>
    intro depth enough
    simp only [List.length_cons, List.length_nil] at enough
    obtain ⟨depth, rfl⟩ := Nat.exists_eq_add_one_of_ne_zero (show depth ≠ 0 by omega)
    rw [argumentsWithin, bind_eq (peek_of_advance shift), bind_eq (eat_eq shift isClose)]
    rfl
  | first front isOpen isInside argument others ih inductionOthers =>
    intro depth enough
    have positive := argument.length_pos
    have positiveOthers := others.length_pos
    simp only [List.length_append] at enough
    obtain ⟨depth, rfl⟩ := Nat.exists_eq_add_one_of_ne_zero (show depth ≠ 0 by omega)
    rw [argumentsWithin, bind_eq (peek_eq front), bind_eq (eat_eq_false front isOpen),
      if_neg Bool.false_ne_true, if_neg isInside, if_pos rfl]
    dsimp only
    rw [bind_eq (argument.read_eq ih (by omega) others.stops_of_arguments),
      bind_eq (inductionOthers depth (by omega))]
    rfl
  | next shift isComma argument others ih inductionOthers =>
    intro depth enough
    have positive := argument.length_pos
    have positiveOthers := others.length_pos
    simp only [List.length_append, List.length_cons] at enough
    obtain ⟨depth, rfl⟩ := Nat.exists_eq_add_one_of_ne_zero (show depth ≠ 0 by omega)
    have front := (advance_eq_ok_iff.mp shift).1
    rename_i comma
    have isOpen : comma.spells ")" = false := by
      simp [Token.spells, Token.text_of_spells isComma]
    rw [argumentsWithin, bind_eq (peek_eq front), bind_eq (eat_eq_false front isOpen),
      if_neg Bool.false_ne_true, if_neg (takes_of_spells shift isComma).2.1, if_neg Bool.false_ne_true,
      bind_eq (eat_eq shift isComma)]
    dsimp only
    rw [if_pos rfl, bind_eq (argument.read_eq ih (by omega) others.stops_of_arguments),
      bind_eq (inductionOthers depth (by omega))]
    rfl

end Derives

/-- Reading an expression of a level succeeds exactly if the level derives a word at the front of the text and
the next token does not go on with it. What is built is what is derived, and the word is what is read. -/
theorem expression_eq_ok_iff {state after : ParserState} {level : Nat} {id : ExprId} (ends : state.stream.Ends) :
    Parser.expression level state = .ok id after ↔
      ∃ word, Derives (.level level) state word id after ∧ state.Consumes word after ∧ after.Stops level := by
  change Parser.expressionWithin (8 * state.stream.weight + 8) level state = _ ↔ _
  constructor
  · intro runs
    obtain ⟨⟨word, derives⟩, stops⟩ := (Parser.soundWithin _).expression state level id after runs
    exact ⟨word, derives, derives.consumes ends, stops⟩
  · rintro ⟨word, derives, consumes, stops⟩
    refine derives.read_eq derives.completes ?_ stops
    have le := consumes.tokens.length_le
    rw [TokenStream.weight]
    omega

/-- The parts of a text up to the semicolon are a word. -/
theorem expression_eq_ok_iff_sample : (ParserState.ofSource "3-2-1;").stream.Ends ∧
    ∃ word id after, Derives (.level 0) (.ofSource "3-2-1;") word id after ∧ after.Stops 0 := by
  have ends : (ParserState.ofSource "3-2-1;").stream.Ends := Lexer.stream_ends _
  have accepted : (Parser.expression 0 (.ofSource "3-2-1;") matches .ok _ _) = true := by decide +kernel
  cases runs : Parser.expression 0 (.ofSource "3-2-1;") with
  | ok id after =>
    obtain ⟨word, derives, -, stops⟩ := (expression_eq_ok_iff ends).mp runs
    exact ⟨ends, word, id, after, derives, stops⟩
  | error =>
    rw [runs] at accepted
    cases accepted

end Shader
