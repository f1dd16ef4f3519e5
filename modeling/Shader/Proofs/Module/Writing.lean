import Shader.Proofs.Module.Progress

/-! # The steps of writing a function

What a value is written as, and what that does to the ids that are owed.

There is one lemma for each step. -/

namespace Shader

namespace Write

attribute [local simp] Instruction.results

variable {type : TypeId} {position : Nat} {arg : ValueId} {block : BlockId}

open Writer

variable {α β : Type} {context : WriteContext} {current : Set FunctionId} {start : Progress}
  {writer : Writer} {id : Id} {value : ValueId} {instruction : Instruction}

abbrev Writes (context : WriteContext) (current : Set FunctionId) (start : Progress) (value : ValueId)
    (step : Write PUnit) (writer : Writer) : Prop :=
  Plainly context current start step writer (fun _ => start.finish value) fun _ _ => True

abbrev Names (context : WriteContext) (current : Set FunctionId) (start : Progress) (value : ValueId)
    (writer : Writer) : Prop :=
  Quietly context current start (operand context value) writer fun id after =>
    after.emitter.Has id ∧ after.ids.find? value = some id

/-! ## Types and paths -/

theorem valueType_quietly :
    Quietly context current start (valueType context value) writer fun _ after => after = writer := by
  unfold valueType
  split
  · exact quietly_pure rfl
  · exact gives_throw

theorem typeId_quietly :
    Quietly context current start (typeId context type) writer fun id after => after.emitter.Has id :=
  emitting_quietly Emit.typeId_gives

theorem typeOf_quietly :
    Quietly context current start (typeOf context value) writer fun id after => after.emitter.Has id :=
  Quietly.bind valueType_quietly fun _ _ _ _ => typeId_quietly

theorem argument_quietly : Quietly context current start (argument context value position) writer fun arg _ =>
      (context.graph.value value).args[position]? = some arg := by
  unfold argument
  dsimp only
  split
  · rename_i found
    exact quietly_pure found
  · exact gives_throw

theorem argumentsFrom_quietly :
    Quietly context current start (argumentsFrom context value position) writer fun _ _ => True := by
  unfold argumentsFrom
  dsimp only
  split_ifs
  · exact quietly_pure trivial
  · exact gives_throw

theorem memoryWithin_quietly (depth : Nat) (pointer : ValueId) (writer : Writer) :
    Quietly context current start (memoryWithin context depth pointer) writer fun _ _ => True := by
  induction depth generalizing pointer writer with
  | zero => exact gives_throw
  | succ depth ih =>
    unfold memoryWithin
    dsimp only
    split
    iterate 3 exact quietly_pure trivial
    · exact Quietly.bind argument_quietly fun _ _ _ _ => ih _ _
    · exact gives_throw

theorem memory_quietly {pointer : ValueId} :
    Quietly context current start (memory context pointer) writer fun _ _ => True :=
  memoryWithin_quietly _ pointer writer

theorem numericClass_quietly :
    Quietly context current start (numericClass context type) writer fun _ _ => True := by
  unfold numericClass
  split
  · exact quietly_pure trivial
  · exact gives_throw

theorem memberType_quietly {member : Nat} :
    Quietly context current start (memberType context type member) writer fun _ _ => True := by
  unfold memberType
  split
  · exact quietly_pure trivial
  · exact gives_throw

theorem walk_quietly {members : List Nat} :
    Quietly context current start (walk context type members) writer fun _ _ => True := by
  unfold walk
  induction members generalizing type writer with
  | nil => exact quietly_pure trivial
  | cons member rest ih => exact Quietly.bind memberType_quietly fun _ _ _ _ => ih

theorem splitPath_quietly {markers : List ValueId} :
    Quietly context current start (splitPath context markers) writer fun _ _ => True := by
  induction markers generalizing writer with
  | nil => exact quietly_pure trivial
  | cons marker rest ih =>
    unfold splitPath
    split
    · exact Quietly.bind ih fun _ _ _ _ => quietly_pure trivial
    · exact quietly_pure trivial
    · exact gives_throw

/-! ## Operands -/

theorem freshOperand_gives (proper : (context.graph.value value).Proper True) :
    Gives context current start (freshOperand context value) writer
      (fun id => if (context.graph.value value).opcode.isDeclared then start else start.hold id)
      fun id new after => new = [] ∧ after.emitter.Has id ∧ after.ids = writer.ids ∧
        (context.graph.value value).opcode.isMarker = false := by
  have declares {step : TypeId → Emit Id}
      (gives : ∀ type emitter, Emit.Gives current (step type) emitter fun id after => after.Has id) :
      Quietly context current start (do
        let type ← valueType context value
        emitting (step type)) writer fun id after => after.emitter.Has id ∧ after.ids = writer.ids := by
    refine Quietly.bind valueType_quietly fun type after _ same => ?_
    subst same
    exact emitting_keeps_ids (gives type _)
  unfold freshOperand
  dsimp only
  split
  · rename_i literal isConst payload
    simp only [isConst, Opcode.isDeclared, if_true]
    exact Gives.mono (declares fun _ _ => Emit.constant_gives) fun _ _ _ _ ⟨isNone, has, same⟩ =>
      ⟨isNone, has, same, rfl⟩
  · rename_i isZero
    simp only [isZero, Opcode.isDeclared, if_true]
    exact Gives.mono (declares fun _ _ => Emit.constantNull_gives) fun _ _ _ _ ⟨isNone, has, same⟩ =>
      ⟨isNone, has, same, rfl⟩
  · rename_i isUndef
    simp only [isUndef, Opcode.isDeclared, if_true]
    exact Gives.mono (declares fun _ _ => Emit.undef_gives) fun _ _ _ _ ⟨isNone, has, same⟩ =>
      ⟨isNone, has, same, rfl⟩
  · rename_i var isGlobal payload
    simp only [isGlobal, Opcode.isDeclared, if_true]
    exact Gives.mono (emitting_keeps_ids Emit.globalVar_gives) fun _ _ _ _ ⟨isNone, has, same⟩ =>
      ⟨isNone, has, same, rfl⟩
  · rename_i noZero noUndef noConst noGlobal
    -- what has the id of a declaration says which one
    have isOwn : (context.graph.value value).opcode.isDeclared = false := by
      cases opcode : (context.graph.value value).opcode
      case const =>
        obtain ⟨literal, payload⟩ := proper.const opcode
        exact absurd payload (noConst literal opcode)
      case zeroInit => exact absurd opcode noZero
      case undef => exact absurd opcode noUndef
      case globalVar =>
        obtain ⟨var, payload⟩ := proper.globalVar opcode
        exact absurd payload (noGlobal var opcode)
      all_goals rfl
    simp only [isOwn, Bool.false_eq_true, if_false]
    split_ifs with isMarker
    · exact gives_throw
    · exact Gives.mono fresh_gives fun _ _ _ _ ⟨isNone, has, same⟩ =>
        ⟨isNone, has, by rw [same], by simpa using isMarker⟩

theorem operand_quietly
    (source : context.graph.IsSource value ∨ ∃ id, writer.ids.find? value = some id)
    (proper : (context.graph.value value).Proper True) :
    Names context current start value writer := by
  unfold Names operand
  refine gives_get_bind fun balanced => ?_
  split
  · rename_i id found
    exact quietly_pure ⟨balanced.ids value id found, found⟩
  · rename_i missing
    obtain ⟨placed, isOperand⟩ := source.resolve_right (by simp [missing])
    refine Gives.bind (freshOperand_gives proper) fun id _ after _ ⟨isNone, has, same, isMarker⟩ => ?_
    subst isNone
    have isNoted : (context.graph.value value).opcode.isNoted = true := by
      simp [Opcode.isNoted, Opcode.hasResult_of_isOperand isOperand, isMarker]
    have noPart := Opcode.ne_elementPtr_of_isOperand isOperand
    have isNew := balanced.notMem_values missing isNoted noPart
    rw [← same] at missing
    refine Gives.bind (noteId_gives start (by simp [missing]) fun balanced => ?_)
      fun _ _ last _ ⟨isNone, isLast⟩ => ?_
    · by_cases isDeclared : (context.graph.value value).opcode.isDeclared = true
      · rw [if_pos isDeclared] at balanced
        refine balanced.note has placed isNoted rfl (owed_note_of_known (.inr isDeclared))
          (Set.Subset.refl _) (Set.subset_insert _ _) fun isPart => absurd isPart noPart
      · rw [if_neg isDeclared] at balanced
        refine balanced.note has placed isNoted rfl ?_ (Set.Subset.refl _) (Set.subset_insert _ _)
          fun isPart => absurd isPart noPart
        rw [owed_hold, owed_note missing isNew isDeclared]
    · subst isNone isLast
      exact gives_pure rfl ⟨rfl, has, Table.find?_insert_self _ _ _⟩

/-- It is the turn of a value of an arranged graph to be written. -/
structure Turn (context : WriteContext) (start : Progress) (value : ValueId) : Prop where
  arranged : context.graph.Arranged
  placed : context.graph.IsPlaced value
  new : value ∉ start.values
  parts : ∀ arg ∈ (context.graph.value value).args, (context.graph.value arg).opcode = .elementPtr →
    arg ∈ start.values

theorem Turn.arg_quietly {other : Progress} (turn : Turn context start value)
    (used : arg ∈ (context.graph.value value).args) (noLoad : (context.graph.value value).opcode ≠ .load)
    (noStore : (context.graph.value value).opcode ≠ .store) :
    Names context current other arg writer := by
  refine operand_quietly (.inl ⟨turn.arranged.isPlaced used, ?_⟩) (turn.arranged.proper arg)
  simp only [Opcode.isOperand, turn.arranged.results value arg used, Bool.true_and, bne_iff_ne]
  intro isPart
  rcases (turn.arranged.addresses value arg used isPart).access with ⟨isLoad, -⟩ | ⟨isStore, -⟩
  · exact noLoad isLoad
  · exact noStore isStore

theorem Turn.own_quietly {other : Progress} (turn : Turn context start value)
    (isOperand : (context.graph.value value).opcode.isOperand = true) :
    Names context current other value writer :=
  operand_quietly (.inl ⟨turn.placed, isOperand⟩) (turn.arranged.proper value)

theorem Turn.mem_args (found : (context.graph.value value).args[position]? = some arg) :
    arg ∈ (context.graph.value value).args :=
  List.mem_of_getElem? found

theorem singleOperand_plainly (isOperand : ∀ {writer}, Names context current start arg writer) :
    Plainly context current start (singleOperand context arg) writer (fun _ => start) fun id after =>
      after.emitter.Has id := by
  unfold singleOperand
  refine Quietly.bind isOperand fun id after₁ keeps₁ ⟨has, _⟩ => ?_
  refine Quietly.bind valueType_quietly fun type after₂ keeps₂ _ => ?_
  split_ifs
  · refine Quietly.bind typeId_quietly fun single after₃ keeps₃ hasSingle => ?_
    refine fresh_bind fun converted after₄ keeps₄ hasConverted => ?_
    refine Plainly.bind (plainly_write (write_held rfl (by simp; grind) nofun) rfl) fun _ after₅ keeps₅ _ => ?_
    exact plainly_pure rfl (keeps₅.has hasConverted)
  · exact plainly_pure rfl (keeps₂.has has)

/-! ## Parts of aggregates -/

theorem shuffleInto_plainly {vector : TypeId} {result old new : Id} {components : List Nat}
    {finish : PUnit → Progress}
    (writes : ∀ type words after, writer.Keeps current after → after.emitter.Has type →
      Gives context current start (write (.vectorShuffle type result old new words)) after finish
        fun _ written _ => written = [.vectorShuffle type result old new words]) :
    Plainly context current start (shuffleInto context vector result old new components) writer finish
      fun _ _ => True := by
  refine Quietly.bind typeId_quietly fun type after keeps hasType => ?_
  exact plainly_write (writes type _ after keeps hasType) rfl

theorem Turn.content_quietly {content : ValueId} (turn : Turn context start value)
    (isStore : (context.graph.value value).opcode = .store)
    (isContent : (context.graph.value value).args[1]? = some content) :
    Names context current start content writer := by
  have used := Turn.mem_args isContent
  refine operand_quietly (.inl ⟨turn.arranged.isPlaced used, ?_⟩) (turn.arranged.proper content)
  simp only [Opcode.isOperand, turn.arranged.results value content used, Bool.true_and, bne_iff_ne]
  intro isPart
  rcases (turn.arranged.addresses value content used isPart).access with
    ⟨isLoad, -⟩ | ⟨-, other, args, noPart⟩
  · rw [isStore] at isLoad
    cases isLoad
  · rw [args] at isContent
    cases isContent
    exact noPart isPart

theorem Turn.address_quietly {address : ValueId} (turn : Turn context start value)
    (used : address ∈ (context.graph.value value).args) (balanced : writer.Balanced context start)
    (whole : writer.swizzled.find? address = none) :
    Names context current start address writer := by
  refine operand_quietly ?_ (turn.arranged.proper address)
  by_cases isPart : (context.graph.value address).opcode = .elementPtr
  · refine .inr ((balanced.written address (turn.parts address used isPart) ?_).resolve_right ?_)
    · rw [isPart]
      rfl
    · rintro ⟨swizzle, found⟩
      rw [whole] at found
      cases found
  · refine .inl ⟨turn.arranged.isPlaced used, ?_⟩
    simp [Opcode.isOperand, turn.arranged.results value address used, isPart]

theorem load_plainly (turn : Turn context start value)
    (isLoad : (context.graph.value value).opcode = .load) :
    Writes context current start value (load context value) writer := by
  have isOwn : (context.graph.value value).opcode.isDeclared = false := by rw [isLoad]; rfl
  have isOperand : (context.graph.value value).opcode.isOperand = true := by rw [isLoad]; rfl
  refine Quietly.bind typeOf_quietly fun type after₁ keeps₁ hasType => ?_
  refine Quietly.bind argument_quietly fun address after₂ keeps₂ isArg => ?_
  refine gives_get_bind fun balanced => ?_
  split
  · rename_i swizzle found
    have hasPointer := (balanced.swizzled _ _ found).1
    refine Quietly.bind typeId_quietly fun vector after₃ keeps₃ hasVector => ?_
    refine fresh_bind fun loaded after₄ keeps₄ hasLoaded => ?_
    refine Plainly.bind (plainly_write (write_held rfl (by simp; grind) nofun) rfl) fun _ after₅ keeps₅ _ => ?_
    refine Quietly.bind (turn.own_quietly isOperand) fun id after₆ keeps₆ ⟨_, isId⟩ => ?_
    exact plainly_write (write_value isId turn.new isOwn (by simp) (by simp; grind) nofun) rfl
  · rename_i whole
    refine Quietly.bind (turn.address_quietly (Turn.mem_args isArg) balanced whole)
      fun pointer after₃ keeps₃ ⟨hasPointer, _⟩ => ?_
    refine Quietly.bind (turn.own_quietly isOperand) fun id after₄ keeps₄ ⟨_, isId⟩ => ?_
    exact plainly_write (write_value isId turn.new isOwn rfl (by simp; grind) nofun) rfl

theorem finish_gives {step : Write PUnit}
    (isNoted : (context.graph.value value).opcode.isNoted = false)
    {good : PUnit → List Instruction → Writer → Prop}
    (gives : Gives context current start step writer (fun _ => start) good) :
    Gives context current start step writer (fun _ => start.finish value) good := by
  intro balanced result after runs
  obtain ⟨balanced, keeps, holds⟩ := gives balanced result after runs
  refine ⟨balanced.finish (.inl ?_) (by simp [isNoted]), keeps, holds⟩
  cases found : after.ids.find? value with
  | none => rfl
  | some id =>
    have owner := (balanced.owners value id found).2
    rw [isNoted] at owner
    cases owner

theorem store_plainly (turn : Turn context start value)
    (isStore : (context.graph.value value).opcode = .store) :
    Writes context current start value (store context value) writer := by
  refine finish_gives (by rw [isStore]; rfl) ?_
  refine Quietly.bind argument_quietly fun content after₁ keeps₁ isContent => ?_
  refine Quietly.bind (turn.content_quietly isStore isContent) fun stored after₂ keeps₂ ⟨hasStored, _⟩ => ?_
  refine Quietly.bind argument_quietly fun address after₃ keeps₃ isAddress => ?_
  refine gives_get_bind fun balanced => ?_
  split
  · rename_i swizzle found
    have hasPointer := (balanced.swizzled _ _ found).1
    refine Quietly.bind typeId_quietly fun vector after₄ keeps₄ hasVector => ?_
    refine fresh_bind fun old after₅ keeps₅ hasOld => ?_
    refine Plainly.bind (plainly_write (write_held rfl (by simp; grind) nofun) rfl) fun _ after₆ keeps₆ _ => ?_
    refine fresh_bind fun merged after₇ keeps₇ hasMerged => ?_
    refine Plainly.bind (shuffleInto_plainly fun type words after keeps hasType =>
      write_held (by simp) (by simp; grind) nofun)
      fun _ after₈ keeps₈ _ => ?_
    exact plainly_write (write_none rfl (by simp; grind)) rfl
  · rename_i whole
    refine Quietly.bind (turn.address_quietly (Turn.mem_args isAddress) balanced whole)
      fun pointer after₄ keeps₄ ⟨hasPointer, _⟩ => ?_
    exact plainly_write (write_none rfl (by simp; grind)) rfl

theorem Turn.part_gives (turn : Turn context start value)
    (isPart : (context.graph.value value).opcode = .elementPtr) :
    Gives context current start (operand context value) writer (fun id => (start.finish value).hold id)
      fun id new after => new = [] ∧ after.emitter.Has id ∧ after.ids.find? value = some id := by
  unfold operand
  refine gives_get_bind fun balanced => ?_
  split
  · rename_i id found
    exact absurd (balanced.parts value id isPart found) turn.new
  · rename_i missing
    refine Gives.bind (freshOperand_gives (turn.arranged.proper value))
      fun id _ after _ ⟨isNone, has, same, _⟩ => ?_
    subst isNone
    rw [← same] at missing
    refine Gives.bind (noteId_gives ((start.finish value).hold id) (by simp [missing])
      fun balanced => ?_) fun _ _ last _ ⟨isNone, isLast⟩ => ?_
    · rw [isPart] at balanced
      refine balanced.note has turn.placed (by rw [isPart]; rfl) rfl ?_ (Set.subset_insert _ _)
        (Set.Subset.refl _) fun _ => Set.mem_insert _ _
      have same : after.owed context.graph (start.finish value) = after.owed context.graph start :=
        owed_finish_of_unowed (.inl missing)
      have known : value ∈ (start.finish value).values := Set.mem_insert _ _
      rw [owed_hold, owed_note_of_known (.inl known), same]
      exact owed_hold.symm
    · subst isNone isLast
      exact gives_pure rfl ⟨rfl, has, Table.find?_insert_self _ _ _⟩

theorem alias_gives (missing : writer.ids.find? value = none) (has : writer.emitter.Has id)
    (placed : context.graph.IsPlaced value)
    (isNoted : (context.graph.value value).opcode.isNoted = true) :
    Gives context current start (noteId value id) writer (fun _ => start.finish value) fun _ new after =>
      new = [] ∧ after = { writer with ids := writer.ids.insert value id } := by
  refine noteId_gives (start.finish value) (by simp [missing]) fun balanced => ?_
  refine balanced.note has placed isNoted rfl ?_ (Set.subset_insert _ _) (Set.Subset.refl _)
    fun _ => Set.mem_insert _ _
  have known : value ∈ (start.finish value).values := Set.mem_insert _ _
  rw [owed_note_of_known (.inl known), owed_finish_of_unowed (.inl missing)]

theorem steps_quietly {members : List Nat} : Quietly context current start
      (members.mapM fun member => emitting (Emit.constantIndex context.program member)) writer
      fun steps after => ∀ step ∈ steps, after.emitter.Has step :=
  quietly_mapM_all (fun step after => after.emitter.Has step) (fun _ _ _ keeps has => keeps.has has)
    fun _ _ _ _ => emitting_quietly Emit.constantIndex_gives

theorem elementPointer_plainly (turn : Turn context start value)
    (isPart : (context.graph.value value).opcode = .elementPtr) :
    Writes context current start value (elementPointer context value) writer := by
  refine Quietly.bind argument_quietly fun base after₁ keeps₁ isBase => ?_
  refine Quietly.bind argumentsFrom_quietly fun indices after₂ keeps₂ _ => ?_
  extract_lets onBuffer finish
  have finishes (markers : List ValueId) : Writes context current start value (finish markers) after₂ := by
    refine Quietly.bind splitPath_quietly fun path after₃ keeps₃ _ => ?_
    refine Quietly.bind memory_quietly fun class_ after₄ keeps₄ _ => ?_
    refine Quietly.bind valueType_quietly fun baseType after₅ keeps₅ _ => ?_
    refine Quietly.bind walk_quietly fun target after₆ keeps₆ _ => ?_
    refine Quietly.bind (turn.arg_quietly (Turn.mem_args isBase) (by simp [isPart]) (by simp [isPart]))
      fun baseId after₇ keeps₇ ⟨hasBase, _⟩ => ?_
    obtain ⟨members, components⟩ := path
    cases components with
    | some components =>
      extract_lets noting
      have notes (pointer : Id) (after : Writer) (has : after.emitter.Has pointer) :
          Writes context current start value (noting pointer) after := by
        rintro balanced _ _ ⟨⟩
        exact ⟨balanced.swizzle has isPart turn.new, ⟨le_rfl, Emitter.keeps_refl,
          fun _ _ found => found⟩, [], (List.append_nil _).symm, by simp, trivial⟩
      split
      · exact notes baseId after₇ hasBase
      · refine Quietly.bind typeId_quietly fun pointee after₈ keeps₈ hasPointee => ?_
        refine Quietly.bind (emitting_quietly (Emit.pointerType_gives hasPointee))
          fun pointerType after₉ keeps₉ hasType => ?_
        simp only [Option.isSome_some, if_true]
        refine fresh_bind fun id after₁ keeps₁ hasId => ?_
        refine Quietly.bind steps_quietly fun steps after₂ keeps₂ hasSteps => ?_
        refine Plainly.bind (plainly_write (write_held (by simp) (by simp; grind) nofun) rfl) fun _ after₃ keeps₃ _ => ?_
        exact notes id after₃ (keeps₃.has (keeps₂.has hasId))
    | none =>
      extract_lets noting
      have isNoted : (context.graph.value value).opcode.isNoted = true := by rw [isPart]; rfl
      split
      · refine gives_assuming fun balanced => ?_
        refine Gives.mono (alias_gives ?_ hasBase turn.placed isNoted) fun _ _ _ _ holds => ?_
        · cases found : after₇.ids.find? value with
          | none => rfl
          | some id => exact absurd (balanced.parts value id isPart found) turn.new
        · simp [holds.1]
      · refine Quietly.bind typeId_quietly fun pointee after₈ keeps₈ hasPointee => ?_
        refine Quietly.bind (emitting_quietly (Emit.pointerType_gives hasPointee))
          fun pointerType after₉ keeps₉ hasType => ?_
        simp only [Option.isSome_none, Bool.false_eq_true, if_false]
        refine Gives.bind (turn.part_gives isPart) fun id _ after₁ keeps₁ ⟨isNone, hasId, isId⟩ => ?_
        subst isNone
        refine Quietly.bind steps_quietly fun steps after₂ keeps₂ hasSteps => ?_
        refine Plainly.bind (plainly_write (write_held (by simp) (by simp; grind) nofun) rfl) fun _ after₃ keeps₃ _ => ?_
        have found : after₃.ids.find? value = some id := keeps₃.find (keeps₂.find isId)
        refine Gives.mono (noteId_gives (start.finish value) (by simp [found])
          fun balanced => ?_) fun _ _ _ _ holds => by simp [holds.1]
        have known : value ∈ (start.finish value).values := Set.mem_insert _ _
        exact balanced.note (keeps₃.has (keeps₂.has hasId)) turn.placed isNoted rfl
          (owed_note_of_known (.inl known)) (Set.Subset.refl _) (Set.subset_insert _ _) fun _ => known
  clear_value onBuffer finish
  split
  · dsimp only
    split_ifs
    · exact finishes _
    · exact gives_throw_bind
  · exact finishes _

/-- A value of a kind that has an id of its own, and that does not access memory. -/
structure Turn.Computes (turn : Turn context start value) : Prop where
  isOperand : (context.graph.value value).opcode.isOperand = true
  isOwn : (context.graph.value value).opcode.isDeclared = false
  noLoad : (context.graph.value value).opcode ≠ .load

theorem Turn.Computes.arg_quietly {turn : Turn context start value} (computes : turn.Computes)
    (used : arg ∈ (context.graph.value value).args) :
    Names context current start arg writer :=
  turn.arg_quietly used computes.noLoad fun isStore => by
    have isOperand := computes.isOperand
    rw [isStore] at isOperand
    cases isOperand

theorem Turn.Computes.own_quietly {turn : Turn context start value} (computes : turn.Computes) :
    Names context current start value writer :=
  turn.own_quietly computes.isOperand

theorem Turn.Computes.writes {turn : Turn context start value} (computes : turn.Computes)
    (found : writer.ids.find? value = some id) (calls : writer.Calls context instruction)
    (results : instruction.results = [id])
    (uses : ∀ id ∈ instruction.uses, writer.emitter.Has id)
    (isBody : instruction.isBody = true) :
    Writes context current start value (write instruction) writer :=
  plainly_write (write_value found turn.new computes.isOwn results uses calls) isBody

theorem Turn.Computes.args_quietly {turn : Turn context start value} (computes : turn.Computes)
    {args : List ValueId} (used : ∀ arg ∈ args, arg ∈ (context.graph.value value).args) :
    Quietly context current start (args.mapM (operand context)) writer fun ids after =>
      ∀ id ∈ ids, after.emitter.Has id :=
  quietly_mapM_all (fun id after => after.emitter.Has id) (fun _ _ _ keeps has => keeps.has has)
    fun arg found _ _ => (computes.arg_quietly (used arg found)).mono fun _ _ _ holds => holds.1

section Computing

variable {type : Id}

variable (turn : Turn context start value) (computes : turn.Computes)

include turn computes

theorem extractValue_plainly : Writes context current start value (extractValue context value) writer := by
  refine Quietly.bind argument_quietly fun aggregate after₁ keeps₁ isAggregate => ?_
  refine Quietly.bind argumentsFrom_quietly fun markers after₂ keeps₂ _ => ?_
  refine Quietly.bind splitPath_quietly fun path after₃ keeps₃ _ => ?_
  refine Quietly.bind (computes.arg_quietly (Turn.mem_args isAggregate))
    fun source after₄ keeps₄ ⟨hasSource, _⟩ => ?_
  refine Quietly.bind typeOf_quietly fun type after₅ keeps₅ hasType => ?_
  refine Quietly.bind computes.own_quietly fun id after₆ keeps₆ ⟨hasId, isId⟩ => ?_
  split
  · exact computes.writes isId nofun (by simp) (by simp; grind) rfl
  · extract_lets shuffle
    have shuffles (vector : Id) (after : Writer) (keeps : after₆.Keeps current after)
        (has : after.emitter.Has vector) :
        Writes context current start value (shuffle vector) after := by
      exact computes.writes (keeps.find isId) nofun (by simp) (by simp; grind) rfl
    split_ifs
    · exact shuffles source after₆ keeps_refl (keeps₆.has (keeps₅.has hasSource))
    · refine Quietly.bind valueType_quietly fun aggregateType after₇ keeps₇ _ => ?_
      refine Quietly.bind walk_quietly fun vectorType after₈ keeps₈ _ => ?_
      refine Quietly.bind typeId_quietly fun vector after₉ keeps₉ hasVector => ?_
      refine fresh_bind fun extracted after keeps hasExtracted => ?_
      refine Plainly.bind (plainly_write (write_held (by simp) (by simp; grind) nofun) rfl) fun _ last keepsLast _ => ?_
      exact shuffles extracted last ((((keeps₇.trans keeps₈).trans keeps₉).trans keeps).trans keepsLast)
        (keepsLast.has hasExtracted)

theorem insertValue_plainly : Writes context current start value (insertValue context value) writer := by
  refine Quietly.bind argument_quietly fun aggregate after₁ keeps₁ isAggregate => ?_
  refine Quietly.bind argumentsFrom_quietly fun markers after₂ keeps₂ _ => ?_
  refine Quietly.bind splitPath_quietly fun path after₃ keeps₃ _ => ?_
  refine Quietly.bind (computes.arg_quietly (Turn.mem_args isAggregate))
    fun source after₄ keeps₄ ⟨hasSource, _⟩ => ?_
  refine Quietly.bind argument_quietly fun part after₅ keeps₅ isElement => ?_
  refine Quietly.bind (computes.arg_quietly (Turn.mem_args isElement))
    fun element after₆ keeps₆ ⟨hasElement, _⟩ => ?_
  refine Quietly.bind typeOf_quietly fun type after₇ keeps₇ hasType => ?_
  refine Quietly.bind computes.own_quietly fun id after₈ keeps₈ ⟨hasId, isId⟩ => ?_
  split
  · exact computes.writes isId nofun (by simp) (by simp; grind) rfl
  · split_ifs
    · refine Quietly.bind valueType_quietly fun vector after₉ keeps₉ _ => ?_
      exact shuffleInto_plainly fun type words last keeps hasVector =>
        write_value (keeps.find (keeps₉.find isId)) turn.new computes.isOwn (by simp) (by simp; grind) nofun
    · have has : after₈.emitter.Has source ∧ after₈.emitter.Has element ∧ after₈.emitter.Has type := by
        grind
      refine Quietly.bind valueType_quietly fun aggregateType after₉ keeps₉ _ => ?_
      refine Quietly.bind walk_quietly fun vector after₁ keeps₁ _ => ?_
      refine Quietly.bind typeId_quietly fun vectorType after₂ keeps₂ hasVector => ?_
      refine fresh_bind fun old after₃ keeps₃ hasOld => ?_
      refine Plainly.bind (plainly_write (write_held (by simp) (by simp; grind) nofun) rfl) fun _ after₄ keeps₄ _ => ?_
      refine fresh_bind fun merged after₅ keeps₅ hasMerged => ?_
      refine Plainly.bind (shuffleInto_plainly fun type words last keeps hasType => write_held (by simp) (by simp; grind) nofun)
        fun _ after₆ keeps₆ _ => ?_
      have isStill : after₆.ids.find? value = some id := by grind
      exact computes.writes isStill nofun (by simp) (by simp; grind) rfl

theorem swizzle_plainly : Writes context current start value (swizzle context value) writer := by
  refine Quietly.bind argument_quietly fun marker after₁ keeps₁ _ => ?_
  split
  · refine Quietly.bind argument_quietly fun source after₂ keeps₂ isSource => ?_
    refine Quietly.bind (computes.arg_quietly (Turn.mem_args isSource))
      fun base after₃ keeps₃ ⟨hasBase, _⟩ => ?_
    refine Quietly.bind typeOf_quietly fun type after₄ keeps₄ hasType => ?_
    refine Quietly.bind computes.own_quietly fun id after₅ keeps₅ ⟨hasId, isId⟩ => ?_
    exact computes.writes isId nofun (by simp) (by simp; grind) rfl
  · exact gives_throw

theorem splat_plainly : Writes context current start value (splat context value) writer := by
  refine Quietly.bind argument_quietly fun source after₁ keeps₁ isSource => ?_
  refine Plainly.bind (singleOperand_plainly (computes.arg_quietly (Turn.mem_args isSource)))
    fun scalar after₂ keeps₂ hasScalar => ?_
  refine Quietly.bind valueType_quietly fun vector after₃ keeps₃ _ => ?_
  refine Quietly.bind typeId_quietly fun type after₄ keeps₄ hasType => ?_
  refine Quietly.bind computes.own_quietly fun id after₅ keeps₅ ⟨hasId, isId⟩ => ?_
  exact computes.writes isId nofun (by simp) (by simp; grind) rfl

theorem makeStruct_plainly : Writes context current start value (makeStruct context value) writer := by
  refine Quietly.bind typeOf_quietly fun type after₁ keeps₁ hasType => ?_
  refine Quietly.bind computes.own_quietly fun id after₂ keeps₂ ⟨hasId, isId⟩ => ?_
  refine Quietly.bind (computes.args_quietly fun _ used => used) fun parts after₃ keeps₃ hasParts => ?_
  exact computes.writes (keeps₃.find isId) nofun (by simp) (by simp; grind) rfl

/-! ## Interfaces -/

theorem uniformPointer_plainly :
    Writes context current start value (uniformPointer context value) writer := by
  refine gives_assuming fun balanced => ?_
  unfold uniformPointer
  split
  · split
    · exact gives_throw
    · rename_i uniform bound
      obtain ⟨interface, isInterface, isBound⟩ := Option.bind_eq_some_iff.1 bound
      have hasUniform := (balanced.interface interface isInterface).1 _ _ isBound
      refine Quietly.bind typeOf_quietly fun pointee after₁ keeps₁ hasPointee => ?_
      refine Quietly.bind (emitting_quietly (Emit.pointerType_gives hasPointee))
        fun pointer after₂ keeps₂ hasPointer => ?_
      refine Quietly.bind (emitting_quietly Emit.constantIndex_gives) fun zero after₃ keeps₃ hasZero => ?_
      refine Quietly.bind computes.own_quietly fun id after₄ keeps₄ ⟨hasId, isId⟩ => ?_
      exact computes.writes isId nofun rfl (by simp; grind) rfl
  · exact gives_throw

theorem stageInput_plainly : Writes context current start value (stageInput context value) writer := by
  refine gives_assuming fun balanced => ?_
  unfold stageInput
  split
  · split
    · exact gives_throw
    · rename_i input bound
      obtain ⟨interface, isInterface, isInput⟩ := Option.bind_eq_some_iff.1 bound
      have hasInput := (balanced.interface interface isInterface).2.1 _ (List.mem_of_getElem? isInput)
      refine Quietly.bind typeOf_quietly fun type after₁ keeps₁ hasType => ?_
      refine Quietly.bind computes.own_quietly fun id after₂ keeps₂ ⟨hasId, isId⟩ => ?_
      exact computes.writes isId nofun rfl (by simp; grind) rfl
  · exact gives_throw

/-! ## Operations -/

theorem call_plainly
    (isCall : (context.graph.value value).opcode = .call) :
    Writes context current start value (call context value) writer := by
  unfold call
  dsimp only
  split
  · rename_i callee isCallee
    refine Quietly.bind (computes.args_quietly fun _ used => used) fun args after₁ keeps₁ hasArgs => ?_
    refine Quietly.bind typeOf_quietly fun type after₂ keeps₂ hasType => ?_
    refine Quietly.bind computes.own_quietly fun id after₃ keeps₃ ⟨hasId, isId⟩ => ?_
    split
    · split_ifs with isEntryPoint
      · exact gives_throw
      · refine Quietly.bind (emitting_quietly Emit.noteCall_gives) fun _ after₄ keeps₄ isCalled => ?_
        refine Quietly.bind (emitting_quietly (Emit.functionId_gives (.inl isCalled)))
          fun functionId after₅ keeps₅ ⟨hasFunction, isFunctionId⟩ => ?_
        refine computes.writes (keeps₅.find (keeps₄.find isId)) ?_ (by simp) (by simp; grind) rfl
        rintro _ _ _ _ ⟨⟩
        exact ⟨value, callee, isCall, isCallee, by simpa using isEntryPoint, isFunctionId⟩
    · exact computes.writes isId nofun (by simp) (by simp; grind) rfl
    · split
      · exact gives_throw
      · refine Quietly.bind (emitting_quietly Emit.extendedSet_gives) fun set after₄ keeps₄ hasSet => ?_
        have hasAll : ∀ arg ∈ args, after₄.emitter.Has arg := fun arg found =>
          keeps₄.has (keeps₃.has (keeps₂.has (hasArgs arg found)))
        exact computes.writes (keeps₄.find isId) nofun (by simp) (by simp; grind) rfl
  · exact gives_throw

theorem scaleVector_plainly
    {vector scalar : ValueId} (isVector : vector ∈ (context.graph.value value).args)
    (isScalar : scalar ∈ (context.graph.value value).args) (hasType : writer.emitter.Has type) :
    Writes context current start value (scaleVector context value vector scalar type) writer := by
  refine Quietly.bind (computes.arg_quietly isVector) fun vector after₁ keeps₁ ⟨hasVector, _⟩ => ?_
  refine Plainly.bind (singleOperand_plainly (computes.arg_quietly isScalar))
    fun scalar after₂ keeps₂ hasScalar => ?_
  refine Quietly.bind computes.own_quietly fun id after₃ keeps₃ ⟨hasId, isId⟩ => ?_
  exact computes.writes isId nofun rfl (by simp; grind) rfl

theorem sameClass_plainly {left right : ValueId} {leftType : TypeId}
    (isLeft : left ∈ (context.graph.value value).args)
    (isRight : right ∈ (context.graph.value value).args) (hasType : writer.emitter.Has type) :
    Writes context current start value (sameClass context value left right leftType type) writer := by
  refine Quietly.bind numericClass_quietly fun class_ after₁ keeps₁ _ => ?_
  split
  · exact gives_throw
  · refine Quietly.bind (computes.arg_quietly isLeft) fun left after₂ keeps₂ ⟨hasLeft, _⟩ => ?_
    refine Quietly.bind (computes.arg_quietly isRight) fun right after₃ keeps₃ ⟨hasRight, _⟩ => ?_
    refine Quietly.bind computes.own_quietly fun id after₄ keeps₄ ⟨hasId, isId⟩ => ?_
    exact computes.writes isId nofun rfl (by simp; grind) rfl

theorem binary_plainly : Writes context current start value (binary context value) writer := by
  refine Quietly.bind argument_quietly fun left after₁ keeps₁ isLeft => ?_
  refine Quietly.bind argument_quietly fun right after₂ keeps₂ isRight => ?_
  refine Quietly.bind valueType_quietly fun leftType after₃ keeps₃ _ => ?_
  refine Quietly.bind valueType_quietly fun rightType after₄ keeps₄ _ => ?_
  refine Quietly.bind typeOf_quietly fun type after₅ keeps₅ hasType => ?_
  have isLeft := Turn.mem_args isLeft
  have isRight := Turn.mem_args isRight
  dsimp only
  split_ifs
  · exact scaleVector_plainly turn computes isLeft isRight hasType
  · exact scaleVector_plainly turn computes isRight isLeft hasType
  · exact sameClass_plainly turn computes isLeft isRight hasType

theorem integerNot_plainly {operandType : TypeId} {source : Id} (hasType : writer.emitter.Has type)
    (hasSource : writer.emitter.Has source) :
    Writes context current start value (integerNot context value operandType type source) writer := by
  refine Quietly.bind typeId_quietly fun bool after₁ keeps₁ hasBool => ?_
  refine Quietly.bind (emitting_quietly Emit.constant_gives) fun zero after₂ keeps₂ hasZero => ?_
  refine Quietly.bind (emitting_quietly Emit.constant_gives) fun one after₃ keeps₃ hasOne => ?_
  refine fresh_bind fun isZero after₄ keeps₄ hasIsZero => ?_
  refine Plainly.bind (plainly_write (write_held rfl (by simp; grind) nofun) rfl) fun _ after₅ keeps₅ _ => ?_
  refine Quietly.bind computes.own_quietly fun id after₆ keeps₆ ⟨hasId, isId⟩ => ?_
  exact computes.writes isId nofun rfl (by simp; grind) rfl

theorem unary_plainly : Writes context current start value (unary context value) writer := by
  refine Quietly.bind argument_quietly fun source after₁ keeps₁ isSource => ?_
  refine Quietly.bind valueType_quietly fun operandType after₂ keeps₂ _ => ?_
  refine Quietly.bind numericClass_quietly fun class_ after₃ keeps₃ _ => ?_
  refine Quietly.bind typeOf_quietly fun type after₄ keeps₄ hasType => ?_
  refine Quietly.bind (computes.arg_quietly (Turn.mem_args isSource))
    fun operandId after₅ keeps₅ ⟨hasOperand, _⟩ => ?_
  extract_lets simple
  have simply (instruction : UnaryInstruction) : Writes context current start value (simple instruction) after₅ := by
    refine Quietly.bind computes.own_quietly fun id after₆ keeps₆ ⟨hasId, isId⟩ => ?_
    exact computes.writes isId nofun rfl (by simp; grind) rfl
  have negates : Writes context current start value
      (integerNot context value operandType type operandId) after₅ :=
    integerNot_plainly turn computes (keeps₅.has hasType) hasOperand
  clear_value simple
  split
  iterate 4 exact simply _
  iterate 2 exact negates
  iterate 2 exact simply _
  exact gives_throw

end Computing

/-! ## Control flow -/

theorem label_quietly : Quietly context current start (label block) writer fun id after =>
      after.emitter.Has id ∧ after.labels.find? block = some id := by
  refine gives_get_bind fun balanced => ?_
  split
  · rename_i id found
    exact quietly_pure ⟨(balanced.labels block id found).1, found⟩
  · exact gives_throw

theorem phi_gives (turn : Turn context start value)
    (isPhi : (context.graph.value value).opcode = .phi) :
    Gives context current start (phi context block value) writer (fun _ => start.finish value)
      fun _ new _ => ∃ type id choices, new = [.phi type id choices] := by
  have computes : turn.Computes := by constructor <;> simp [isPhi] <;> rfl
  refine Quietly.bind typeOf_quietly fun type after₁ keeps₁ hasType => ?_
  refine Quietly.bind computes.own_quietly fun id after₂ keeps₂ ⟨hasId, isId⟩ => ?_
  dsimp only
  split_ifs
  · exact gives_throw
  · have chooses : Quietly context current start
        (((context.graph.value value).args.zip (context.graph.block block).preds).mapM fun edge => do
            let arg ← operand context edge.1
            let pred ← label edge.2
            return (arg, pred)) after₂
        fun choices after => ∀ choice ∈ choices, after.emitter.Has choice.1 ∧ after.emitter.Has choice.2 := by
      refine quietly_mapM_all
        (fun (choice : Id × Id) after => after.emitter.Has choice.1 ∧ after.emitter.Has choice.2)
        (fun _ _ _ keeps has => ⟨keeps.has has.1, keeps.has has.2⟩) ?_
      rintro ⟨arg, pred⟩ found after _
      refine Quietly.bind (computes.arg_quietly (List.of_mem_zip found).1) fun arg _ _ ⟨hasArg, _⟩ => ?_
      refine Quietly.bind label_quietly fun pred _ keeps ⟨hasPred, _⟩ => ?_
      exact quietly_pure ⟨keeps.has hasArg, hasPred⟩
    refine Quietly.bind chooses fun choices after₃ keeps₃ hasChoices => ?_
    exact Gives.mono (write_value (keeps₃.find isId) turn.new computes.isOwn (by simp) (by simp; grind) nofun)
      fun _ _ _ _ isNew => ⟨_, _, _, isNew⟩

/-- Some instructions end a block: those of its middle, an instruction that says where paths come together
if there is one, and a terminator. -/
def IsEnd (instructions : List Instruction) : Prop :=
  ∃ body merges terminator, instructions = body ++ merges ++ [terminator] ∧
    (∀ instruction ∈ body, instruction.isBody = true) ∧
    (∀ instruction ∈ merges, instruction.isMerge = true) ∧ merges.length ≤ 1 ∧
    terminator.isTerminator = true

theorem merge_gives : Gives context current start (merge context block) writer (fun _ => start) fun _ new _ =>
      (∀ instruction ∈ new, instruction.isMerge = true) ∧ new.length ≤ 1 := by
  unfold merge
  split
  · refine Quietly.bind label_quietly fun target after keeps ⟨has, _⟩ => ?_
    exact Gives.mono (write_none rfl (by simp; grind)) fun _ _ _ _ isNew => by simp [isNew, Instruction.isMerge]
  · refine Quietly.bind label_quietly fun target after₁ keeps₁ ⟨has, _⟩ => ?_
    refine Quietly.bind label_quietly fun continueTarget after₂ keeps₂ ⟨hasContinue, _⟩ => ?_
    exact Gives.mono (write_none rfl (by simp; grind)) fun _ _ _ _ isNew => by simp [isNew, Instruction.isMerge]
  · exact gives_pure rfl (by simp)

theorem leave_gives {next : Write PUnit} (leaves : ∀ after, writer.Keeps current after →
      Gives context current start next after (fun _ => start) fun _ new _ =>
        ∃ terminator, new = [terminator] ∧ terminator.isTerminator = true) :
    Gives context current start (merge context block >>= fun _ => next) writer (fun _ => start)
      fun _ new _ => IsEnd new := by
  refine Gives.bind merge_gives fun _ merges after keeps ⟨areMerges, one⟩ => ?_
  refine Gives.mono (leaves after keeps) ?_
  rintro _ _ _ _ ⟨terminator, rfl, isTerminator⟩
  exact ⟨[], merges, terminator, rfl, by simp, areMerges, one, isTerminator⟩

theorem jump_gives :
    Gives context current start (jump context block value) writer (fun _ => start) fun _ new _ =>
      IsEnd new := by
  unfold jump
  split
  · refine leave_gives fun after _ => ?_
    refine Quietly.bind label_quietly fun target last keeps ⟨has, _⟩ => ?_
    exact Gives.mono (write_none rfl (by simp; grind)) fun _ _ _ _ isNew => ⟨_, isNew, rfl⟩
  · exact gives_throw

theorem condJump_gives (turn : Turn context start value)
    (isCondJump : (context.graph.value value).opcode = .condJump) :
    Gives context current start (condJump context block value) writer (fun _ => start) fun _ new _ =>
      IsEnd new := by
  unfold condJump
  split
  · refine Quietly.bind argument_quietly fun source after₁ keeps₁ isSource => ?_
    refine Quietly.bind (turn.arg_quietly (Turn.mem_args isSource) (by simp [isCondJump])
      (by simp [isCondJump])) fun condition after₂ keeps₂ ⟨hasCondition, _⟩ => ?_
    refine leave_gives fun after₃ keeps₃ => ?_
    refine Quietly.bind label_quietly fun onTrue after₄ keeps₄ ⟨hasTrue, _⟩ => ?_
    refine Quietly.bind label_quietly fun onFalse after₅ keeps₅ ⟨hasFalse, _⟩ => ?_
    exact Gives.mono (write_none rfl (by simp; grind)) fun _ _ _ _ isNew => ⟨_, isNew, rfl⟩
  · exact gives_throw

theorem isEnd_append {body : List Instruction} {terminator : Instruction}
    (isBody : ∀ instruction ∈ body, instruction.isBody = true)
    (isTerminator : terminator.isTerminator = true) : IsEnd (body ++ [terminator]) :=
  ⟨body, [], terminator, by simp, isBody, by simp, by simp, isTerminator⟩

theorem storeOutput_plainly {source : ValueId} {result output : Id} {member : Option Nat}
    (hasResult : writer.emitter.Has result) (hasOutput : writer.emitter.Has output) :
    Plainly context current start (storeOutput context source result member output) writer (fun _ => start)
      fun _ _ => True := by
  unfold storeOutput
  split
  · exact plainly_write (write_none rfl (by simp; grind)) rfl
  · refine Quietly.bind valueType_quietly fun sourceType after₁ keeps₁ _ => ?_
    refine Quietly.bind memberType_quietly fun partType after₂ keeps₂ _ => ?_
    refine Quietly.bind typeId_quietly fun type after₃ keeps₃ hasType => ?_
    refine fresh_bind fun extracted after₄ keeps₄ hasExtracted => ?_
    refine Plainly.bind (plainly_write (write_held rfl (by simp; grind) nofun) rfl) fun _ after₅ keeps₅ _ => ?_
    exact plainly_write (write_none rfl (by simp; grind)) rfl

theorem returnResult_gives (turn : Turn context start value)
    (isReturn : (context.graph.value value).opcode = .returnValue) :
    Gives context current start (returnResult context value) writer (fun _ => start) fun _ new _ =>
      IsEnd new := by
  refine Quietly.bind argument_quietly fun source after₁ keeps₁ isSource => ?_
  refine Quietly.bind (turn.arg_quietly (Turn.mem_args isSource) (by simp [isReturn])
    (by simp [isReturn])) fun result after₂ keeps₂ ⟨hasResult, _⟩ => ?_
  refine gives_assuming fun balanced => ?_
  split
  · rename_i interface isInterface
    have hasOutputs := (balanced.interface interface isInterface).2.2
    have stores (outputs : List (Option Nat × Id)) (after : Writer)
        (hasResult : after.emitter.Has result) (hasOutputs : ∀ output ∈ outputs, after.emitter.Has output.2) :
        Plainly context current start (outputs.forM fun output =>
          storeOutput context source result output.1 output.2) after (fun _ => start) fun _ _ => True := by
      induction outputs generalizing after with
      | nil => exact plainly_pure rfl trivial
      | cons output rest ih =>
        refine Plainly.bind (storeOutput_plainly hasResult (hasOutputs output List.mem_cons_self))
          fun _ last keeps _ => ?_
        exact ih last (keeps.has hasResult) fun other found =>
          keeps.has (hasOutputs other (List.mem_cons_of_mem _ found))
    refine Gives.bind (stores interface.outputs after₂ hasResult hasOutputs)
      fun _ body last keeps ⟨isBody, _⟩ => ?_
    refine Gives.mono (write_none rfl (by simp)) fun _ _ _ _ isNew => ?_
    rw [isNew]
    exact isEnd_append isBody rfl
  · refine Gives.mono (write_none rfl (by simp; grind)) fun _ _ _ _ isNew => ?_
    rw [isNew]
    exact @isEnd_append [] _ (by simp) rfl

/-! ## Values -/

theorem ending_gives (turn : Turn context start value)
    (isEnding : (context.graph.value value).opcode.isEnding = true) :
    Gives context current start (Write.value context block value) writer (fun _ => start.finish value)
      fun _ new _ => IsEnd new := by
  have unnoted : (context.graph.value value).opcode.isNoted = false := by
    simp [Opcode.isNoted, Opcode.hasResult, isEnding]
  refine finish_gives unnoted ?_
  have alone (terminator : Instruction) (results : terminator.results = []) (uses : terminator.uses = [])
      (isTerminator : terminator.isTerminator = true) :
      Gives context current start (write terminator) writer (fun _ => start) fun _ new _ => IsEnd new := by
    refine Gives.mono (write_none results (by simp [uses])) fun _ _ _ _ isNew => ?_
    rw [isNew]
    exact @isEnd_append [] _ (by simp) isTerminator
  unfold Write.value
  cases opcode : (context.graph.value value).opcode <;> rw [opcode] at isEnding <;> cases isEnding
  · exact jump_gives
  · exact condJump_gives turn opcode
  · exact returnResult_gives turn opcode
  · exact alone .returnVoid rfl rfl rfl
  · exact alone .unreachable rfl rfl rfl

/-- It is the turn of a value, which may be written already if it is a local variable or an argument. -/
structure Visit (context : WriteContext) (start : Progress) (value : ValueId) : Prop where
  arranged : context.graph.Arranged
  placed : context.graph.IsPlaced value
  parts : ∀ arg ∈ (context.graph.value value).args, (context.graph.value arg).opcode = .elementPtr →
    arg ∈ start.values
  new : (context.graph.value value).opcode ≠ .alloca → (context.graph.value value).opcode ≠ .functionArg →
    value ∉ start.values
  locals : (context.graph.value value).opcode = .alloca → value ∈ start.values
  arguments : (context.graph.value value).opcode = .functionArg → context.interface = none →
    value ∈ start.values

theorem Visit.turn (visit : Visit context start value)
    (noLocal : (context.graph.value value).opcode ≠ .alloca)
    (noArgument : (context.graph.value value).opcode ≠ .functionArg) : Turn context start value :=
  ⟨visit.arranged, visit.placed, visit.new noLocal noArgument, visit.parts⟩

theorem declared_plainly (turn : Turn context start value)
    (isDeclared : (context.graph.value value).opcode.isDeclared = true) :
    Writes context current start value (do let _ ← operand context value) writer := by
  have isOperand : (context.graph.value value).opcode.isOperand = true := by
    cases opcode : (context.graph.value value).opcode <;> rw [opcode] at isDeclared <;> cases isDeclared <;>
      rfl
  refine Quietly.bind (turn.own_quietly isOperand) fun id after _ ⟨_, found⟩ => ?_
  rintro balanced _ _ ⟨⟩
  exact ⟨balanced.finish (.inr isDeclared) fun _ => .inl ⟨id, found⟩, keeps_refl, [],
    (List.append_nil _).symm, by simp, trivial⟩

theorem plain_gives (visit : Visit context start value)
    (isPlain : context.graph.isPlain value = true) :
    Writes context current start value (Write.value context block value) writer := by
  by_cases isLocal : (context.graph.value value).opcode = .alloca
  · simp only [Write.value, isLocal]
    exact plainly_pure (Progress.finish_of_mem (visit.locals isLocal)) trivial
  by_cases isArgument : (context.graph.value value).opcode = .functionArg
  · simp only [Write.value, isArgument, functionArgument]
    split_ifs with hasInterface
    · exact gives_throw
    · have noInterface : context.interface = none := by simpa using hasInterface
      exact plainly_pure (Progress.finish_of_mem (visit.arguments isArgument noInterface)) trivial
  have turn := visit.turn isLocal isArgument
  have unnoted (isNoted : (context.graph.value value).opcode.isNoted = false) :
      Plainly context current start (pure ()) writer (fun _ => start.finish value) fun _ _ => True :=
    finish_gives isNoted (plainly_pure rfl trivial)
  have computes (isOperand : (context.graph.value value).opcode.isOperand = true)
      (isOwn : (context.graph.value value).opcode.isDeclared = false)
      (noLoad : ((context.graph.value value).opcode == .load) = false) : turn.Computes :=
    ⟨isOperand, isOwn, by simpa using noLoad⟩
  unfold Write.value
  simp only [Graph.isPlain, Graph.isPhi] at isPlain
  cases opcode : (context.graph.value value).opcode <;> rw [opcode] at isPlain computes unnoted
  case memberAccess | swizzleIndices => exact unnoted rfl
  case const | zeroInit | undef | globalVar => exact declared_plainly turn (by rw [opcode]; rfl)
  case alloca => exact absurd opcode isLocal
  case functionArg => exact absurd opcode isArgument
  case uniformPtr => exact uniformPointer_plainly turn (computes rfl rfl rfl)
  case stageInput => exact stageInput_plainly turn (computes rfl rfl rfl)
  case makeStruct => exact makeStruct_plainly turn (computes rfl rfl rfl)
  case elementPtr => exact elementPointer_plainly turn opcode
  case load => exact load_plainly turn opcode
  case store => exact store_plainly turn opcode
  case extractValue => exact extractValue_plainly turn (computes rfl rfl rfl)
  case insertValue => exact insertValue_plainly turn (computes rfl rfl rfl)
  case swizzleExpr => exact swizzle_plainly turn (computes rfl rfl rfl)
  case splat => exact splat_plainly turn (computes rfl rfl rfl)
  case call => exact call_plainly turn (computes rfl rfl rfl) opcode
  case negate | logicalNot | bitNot => exact unary_plainly turn (computes rfl rfl rfl)
  case phi | jump | condJump | returnValue | returnVoid | unreachable => cases isPlain
  all_goals exact binary_plainly turn (computes rfl rfl rfl)

end Write

end Shader
