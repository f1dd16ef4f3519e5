import Shader.Proofs.Module.Writing

/-! # The layout of a function

A function is written as its header, its parameters and its blocks. A block is written as its label, its
phis, the variables of the function if it is the first one, and what computes its other values, down to
the instruction that leaves it. -/

namespace Shader

namespace Instruction

def isPhi : Instruction → Bool
  | .phi _ _ _ => true
  | _ => false

def isVar : Instruction → Bool
  | .var _ _ _ _ => true
  | _ => false

def isParameter : Instruction → Bool
  | .functionParameter _ _ => true
  | _ => false

/-- Some instructions are a block. Only the first one has variables, and it has no phis. -/
def IsBlock (isFirst : Prop) (instructions : List Instruction) : Prop :=
  ∃ label phis vars rest, instructions = .label label :: (phis ++ vars ++ rest) ∧
    (∀ instruction ∈ phis, instruction.isPhi = true) ∧
    (∀ instruction ∈ vars, instruction.isVar = true) ∧ (isFirst → phis = []) ∧ (¬ isFirst → vars = []) ∧
    Write.IsEnd rest

/-- Some instructions are a function with an id and a number of parameters. -/
def IsFunction (id : Id) (count : Nat) (instructions : List Instruction) : Prop :=
  ∃ returnType functionType parameters first blocks, instructions = .function returnType id functionType ::
      (parameters ++ (first :: blocks).flatten ++ [.functionEnd]) ∧
    parameters.length = count ∧ (∀ instruction ∈ parameters, instruction.isParameter = true) ∧
    IsBlock True first ∧ ∀ block ∈ blocks, IsBlock False block

end Instruction

namespace Progress

def finishAll (progress : Progress) (values : List ValueId) : Progress :=
  { progress with values := progress.values ∪ {value | value ∈ values} }

@[simp] theorem finishAll_nil (progress : Progress) : progress.finishAll [] = progress := by
  simp [finishAll]

theorem finishAll_finish (progress : Progress) (values : List ValueId) (value : ValueId) :
    (progress.finishAll values).finish value = progress.finishAll (values ++ [value]) := by
  refine congrArg (fun values => { progress with values }) (Set.ext fun other => ?_)
  simp only [finishAll, Set.mem_insert_iff, Set.mem_union, Set.mem_ofPred_eq, List.mem_append,
    List.mem_singleton]
  tauto

theorem finish_finishAll (progress : Progress) (value : ValueId) (values : List ValueId) :
    (progress.finish value).finishAll values = progress.finishAll (value :: values) := by
  refine congrArg (fun values => { progress with values }) (Set.ext fun other => ?_)
  simp only [finish, Set.mem_insert_iff, Set.mem_union, Set.mem_ofPred_eq, List.mem_cons]
  tauto

def cover (progress : Progress) (graph : Graph) (blocks : List BlockId) : Progress :=
  { progress with
    blocks := progress.blocks ∪ {block | block ∈ blocks}
    values := progress.values ∪ {value | ∃ block ∈ blocks, value ∈ (graph.block block).values} }

@[simp] theorem cover_nil (progress : Progress) (graph : Graph) : progress.cover graph [] = progress := by
  simp [cover]

theorem cover_enter (progress : Progress) (graph : Graph) (blocks : List BlockId) (block : BlockId) :
    ((progress.cover graph blocks).enter block).finishAll (graph.block block).values =
      progress.cover graph (blocks ++ [block]) := by
  have blocksSame : insert block (progress.blocks ∪ {other | other ∈ blocks}) =
      progress.blocks ∪ {other | other ∈ blocks ++ [block]} := by
    ext other
    simp only [Set.mem_insert_iff, Set.mem_union, Set.mem_ofPred_eq, List.mem_append, List.mem_singleton]
    tauto
  have valuesSame : progress.values ∪ {value | ∃ other ∈ blocks, value ∈ (graph.block other).values} ∪
      {value | value ∈ (graph.block block).values} =
        progress.values ∪ {value | ∃ other ∈ blocks ++ [block], value ∈ (graph.block other).values} := by
    ext value
    simp only [Set.mem_union, Set.mem_ofPred_eq, List.mem_append, List.mem_singleton]
    constructor
    · rintro ((old | ⟨other, inside, found⟩) | found)
      · exact .inl old
      · exact .inr ⟨other, .inl inside, found⟩
      · exact .inr ⟨block, .inr rfl, found⟩
    · rintro (old | ⟨other, inside | rfl, found⟩)
      · exact .inl (.inl old)
      · exact .inl (.inr ⟨other, inside, found⟩)
      · exact .inr found
  simp only [cover, enter, finishAll, blocksSame, valuesSame]

theorem cover_cover (progress : Progress) (graph : Graph) (first second : List BlockId) :
    (progress.cover graph first).cover graph second = progress.cover graph (first ++ second) := by
  have blocksSame : progress.blocks ∪ {block | block ∈ first} ∪ {block | block ∈ second} =
      progress.blocks ∪ {block | block ∈ first ++ second} := by
    ext block
    simp only [Set.mem_union, Set.mem_ofPred_eq, List.mem_append]
    tauto
  have valuesSame : progress.values ∪ {value | ∃ block ∈ first, value ∈ (graph.block block).values} ∪
      {value | ∃ block ∈ second, value ∈ (graph.block block).values} =
        progress.values ∪ {value | ∃ block ∈ first ++ second, value ∈ (graph.block block).values} := by
    ext value
    simp only [Set.mem_union, Set.mem_ofPred_eq, List.mem_append, or_and_right, exists_or, or_assoc]
  simp only [cover, blocksSame, valuesSame]

end Progress

namespace Write

open Writer

variable {α β : Type} {context : WriteContext} {current : Set FunctionId} {start : Progress}
  {writer : Writer} {id : Id} {block : BlockId} {value : ValueId} {instruction : Instruction}
  {items : List α} {vars : List Instruction} {values : List ValueId}

/-! ## Lists of steps -/

theorem gives_forM {step : α → Write PUnit} (progress : List α → Progress)
    {good : α → List Instruction → Prop}
    (each : ∀ done item rest, items = done ++ item :: rest → ∀ after, writer.Keeps current after →
      Gives context current (progress done) (step item) after (fun _ => progress (done ++ [item]))
        fun _ new _ => good item new) :
    Gives context current (progress []) (items.forM step) writer (fun _ => progress items) fun _ new _ =>
      ∃ logs, new = logs.flatten ∧ List.Forall₂ good items logs := by
  have run (done rest : List α) (all : items = done ++ rest) (after : Writer)
      (keeps : writer.Keeps current after) :
      Gives context current (progress done) (rest.forM step) after (fun _ => progress items)
        fun _ new _ => ∃ logs, new = logs.flatten ∧ List.Forall₂ good rest logs := by
    induction rest generalizing done after with
    | nil =>
      rw [List.append_nil] at all
      exact gives_pure (all ▸ rfl) ⟨[], rfl, .nil⟩
    | cons item rest ih =>
      refine Gives.bind (each done item rest all after keeps) fun _ front last keepsOn isGood => ?_
      refine Gives.mono (ih (done ++ [item]) (by simp [all]) last (keeps.trans keepsOn)) ?_
      rintro _ _ _ _ ⟨logs, rfl, fits⟩
      exact ⟨front :: logs, rfl, .cons isGood fits⟩
  exact run [] items rfl writer keeps_refl

theorem forall_mem_flatten {γ : Type} {logs : List (List γ)}
    {good : α → List γ → Prop} {holds : γ → Prop} (fits : List.Forall₂ good items logs)
    (each : ∀ item ∈ items, ∀ log, good item log → ∀ entry ∈ log, holds entry) :
    ∀ entry ∈ logs.flatten, holds entry := by
  induction fits with
  | nil => simp
  | cons isGood _ ih =>
    intro entry found
    rcases List.mem_append.1 found with found | found
    · exact each _ List.mem_cons_self _ isGood entry found
    · exact ih (fun item inside => each item (List.mem_cons_of_mem _ inside)) entry found

theorem forall₂_append {good : α → β → Prop} {first second : List α} {others : List β}
    (fits : List.Forall₂ good (first ++ second) others) :
    ∃ front back, others = front ++ back ∧ List.Forall₂ good first front ∧ List.Forall₂ good second back := by
  induction first generalizing others with
  | nil => exact ⟨[], others, rfl, .nil, fits⟩
  | cons item rest ih =>
    obtain ⟨⟩ | ⟨holds, fits⟩ := fits
    obtain ⟨front, back, rfl, fitsFront, fitsBack⟩ := ih fits
    exact ⟨_ :: front, back, rfl, .cons holds fitsFront, fitsBack⟩

theorem mem_of_pair_sublist {first second : α} {done rest : List α}
    (once : (done ++ second :: rest).Nodup) (behind : [first, second].Sublist (done ++ second :: rest)) :
    first ∈ done := by
  induction done with
  | nil =>
    have inside : second ∈ rest := by
      rcases List.sublist_cons_iff.1 behind with inside | ⟨_, same, inside⟩
      · exact inside.subset (by simp)
      · cases same
        exact inside.subset (by simp)
    exact absurd inside (List.nodup_cons.1 once).1
  | cons item done ih =>
    rcases List.sublist_cons_iff.1 behind with inside | ⟨_, same, -⟩
    · exact List.mem_cons_of_mem _ (ih (List.nodup_cons.1 once).2 inside)
    · cases same
      exact List.mem_cons_self

/-! ## Blocks -/

structure Ready (context : WriteContext) (start : Progress) (block : BlockId) : Prop where
  arranged : context.graph.Arranged
  has : context.graph.HasBlock block
  new : ∀ value ∈ (context.graph.block block).values, (context.graph.value value).opcode ≠ .alloca →
    (context.graph.value value).opcode ≠ .functionArg → value ∉ start.values
  locals : ∀ value, context.graph.IsPlaced value → (context.graph.value value).opcode = .alloca →
    value ∈ start.values
  arguments : ∀ value, context.graph.IsPlaced value → (context.graph.value value).opcode = .functionArg →
    context.interface = none → value ∈ start.values

theorem Ready.visit {done rest : List ValueId} (ready : Ready context start block)
    (all : (context.graph.block block).values = done ++ value :: rest) :
    Visit context (start.finishAll done) value := by
  have found : value ∈ (context.graph.block block).values := by simp [all]
  have isHome := ready.arranged.home block value found
  have placed : context.graph.IsPlaced value := by
    rw [Graph.IsPlaced, isHome]
    exact found
  have once := ready.arranged.once block
  rw [all] at once
  refine ⟨ready.arranged, placed, fun arg used isPart => .inr ?_, fun noLocal noArgument => ?_,
    fun isLocal => .inl (ready.locals value placed isLocal),
    fun isArgument noInterface => .inl (ready.arguments value placed isArgument noInterface)⟩
  · -- the address of a part stands in front of the value that uses it
    have behind := (ready.arranged.addresses value arg used isPart).behind
    have inside : value ∈ (context.graph.block (context.graph.value arg).block).values :=
      behind.subset (by simp)
    rw [← ready.arranged.home _ value inside, isHome, all] at behind
    exact mem_of_pair_sublist once behind
  · rintro (old | isDone)
    · exact ready.new value found noLocal noArgument old
    · exact (List.nodup_append.1 once).2.2 value isDone value List.mem_cons_self rfl

theorem values_gives (ready : Ready context start block) :
    Gives context current start ((context.graph.block block).values.forM (Write.value context block)) writer
      (fun _ => start.finishAll (context.graph.block block).values) fun _ new _ =>
        ∃ phis rest, new = phis ++ rest ∧ (∀ instruction ∈ phis, instruction.isPhi = true) ∧
          (block = context.graph.entry → phis = []) ∧ IsEnd rest := by
  have writes := @gives_forM _ context current writer (context.graph.block block).values
    (Write.value context block) start.finishAll (fun value new =>
      ((context.graph.value value).opcode = .phi → ∃ type id choices, new = [.phi type id choices]) ∧
      (context.graph.isPlain value = true → ∀ instruction ∈ new, instruction.isBody = true) ∧
      ((context.graph.value value).opcode.isEnding = true → IsEnd new))
    fun done value rest all after _ => by
      have visit := ready.visit all
      rw [← Progress.finishAll_finish]
      by_cases isPhi : (context.graph.value value).opcode = .phi
      · have isValue : Write.value context block value = phi context block value := by
          simp only [Write.value, isPhi]
        rw [isValue]
        refine Gives.mono (phi_gives (visit.turn (by simp [isPhi]) (by simp [isPhi])) isPhi)
          fun _ _ _ _ isNew => ⟨fun _ => isNew, fun plain => ?_, fun isEnding => ?_⟩
        · simp [Graph.isPlain, Graph.isPhi, isPhi] at plain
        · rw [isPhi] at isEnding
          cases isEnding
      by_cases isEnding : (context.graph.value value).opcode.isEnding = true
      · refine Gives.mono (ending_gives (visit.turn ?_ ?_) isEnding)
          fun _ _ _ _ isEnd => ⟨fun same => absurd same isPhi, fun plain => ?_, fun _ => isEnd⟩
        · intro isLocal
          rw [isLocal] at isEnding
          cases isEnding
        · intro isArgument
          rw [isArgument] at isEnding
          cases isEnding
        · simp [Graph.isPlain, isEnding] at plain
      · exact Gives.mono (plain_gives visit (by simp [Graph.isPlain, Graph.isPhi, isPhi, isEnding]))
          fun _ _ _ _ isNew => ⟨fun same => absurd same isPhi, fun _ => isNew.1,
            fun same => absurd same isEnding⟩
  rw [Progress.finishAll_nil] at writes
  refine Gives.mono writes ?_
  rintro _ _ _ _ ⟨logs, rfl, fits⟩
  obtain ⟨phis, plain, ending, values, -, arePhis, arePlain, isEnding⟩ := ready.arranged.laidOut block ready.has
  rw [values, List.append_assoc] at fits
  obtain ⟨phiLogs, logs, rfl, phiFits, fits⟩ := forall₂_append fits
  obtain ⟨plainLogs, logs, rfl, plainFits, fits⟩ := forall₂_append fits
  obtain ⟨⟩ | ⟨⟨-, -, isEnd⟩, ⟨⟩⟩ := fits
  have isBody : ∀ instruction ∈ plainLogs.flatten, instruction.isBody = true :=
    forall_mem_flatten plainFits fun value found log isGood => isGood.2.1 (arePlain value found)
  obtain ⟨body, merges, terminator, rfl, isBodyEnd, areMerges, one, isTerminator⟩ := isEnd isEnding
  refine ⟨phiLogs.flatten, plainLogs.flatten ++ (body ++ merges ++ [terminator]), by simp, ?_, ?_,
    plainLogs.flatten ++ body, merges, terminator, by simp, ?_, areMerges, one, isTerminator⟩
  · refine forall_mem_flatten phiFits fun value found log isGood instruction inside => ?_
    obtain ⟨type, id, choices, rfl⟩ := isGood.1 (arePhis value found)
    rw [List.mem_singleton.1 inside]
    rfl
  · rintro rfl
    have noPhis : phis = [] := List.eq_nil_iff_forall_not_mem.2 fun value found =>
      ready.arranged.noPhis value (by simp [values, found]) (arePhis value found)
    subst noPhis
    cases phiFits
    rfl
  · intro instruction found
    exact (List.mem_append.1 found).elim (isBody instruction) (isBodyEnd instruction)

theorem write_label (found : writer.labels.find? block = some id) (new : block ∉ start.blocks) :
    Gives context current start (write (.label id)) writer (fun _ => start.enter block)
      fun _ written _ => written = [.label id] := by
  rintro balanced _ _ ⟨⟩
  refine ⟨balanced.write (by simp) rfl ?_ balanced.written
    (Set.Subset.refl _) nofun, ⟨le_rfl, Emitter.keeps_refl, fun _ _ found => found⟩, [.label id], rfl, rfl⟩
  exact owed_enter balanced.distinctLabels found new

theorem label_bind {next : Write PUnit} {finish : PUnit → Progress}
    {good : PUnit → List Instruction → Writer → Prop} (new : block ∉ start.blocks)
    (continues : ∀ id after, writer.Keeps current after →
      Gives context current (start.enter block) next after finish fun result instructions last =>
        good result (.label id :: instructions) last) :
    Gives context current start (do
      let labelId ← label block
      write (.label labelId)
      next) writer finish good := by
  refine Quietly.bind label_quietly fun id middle keeps ⟨_, found⟩ => ?_
  refine Gives.bind (write_label found new) fun _ front after keepsOn isFront => ?_
  subst isFront
  exact continues id after (keeps.trans keepsOn)

theorem block_gives (ready : Ready context start block)
    (new : block ∉ start.blocks) (isOther : block ≠ context.graph.entry) :
    Gives context current start (Write.block context vars block) writer
      (fun _ => (start.enter block).finishAll (context.graph.block block).values) fun _ new _ =>
        Instruction.IsBlock False new := by
  unfold Write.block
  dsimp only
  split_ifs
  · exact gives_throw
  · refine label_bind new fun id after keeps => ?_
    have ready : Ready context (start.enter block) block := { ready with }
    refine Gives.mono (values_gives ready) ?_
    rintro _ _ _ _ ⟨phis, rest, rfl, arePhis, -, isEnd⟩
    exact ⟨id, phis, [], rest, by simp, arePhis, by simp, False.elim, fun _ => rfl, isEnd⟩

def Declares (writer : Writer) (values : List ValueId) (vars : List Instruction) : Prop :=
  List.Forall₂ (fun value var => ∃ pointer id, var = .var pointer id .function none ∧
    writer.ids.find? value = some id ∧ writer.emitter.Has pointer) values vars

theorem Declares.keeps {after : Writer}
    (declares : Declares writer values vars) (keeps : writer.Keeps current after) :
    Declares after values vars :=
  declares.imp fun _ _ ⟨pointer, id, same, found, has⟩ =>
    ⟨pointer, id, same, keeps.find found, keeps.has has⟩

theorem vars_gives (declares : Declares writer values vars)
    (areLocal : ∀ value ∈ values, (context.graph.value value).opcode = .alloca) (distinct : values.Nodup)
    (new : ∀ value ∈ values, value ∉ start.values) :
    Gives context current start (vars.forM write) writer (fun _ => start.finishAll values)
      fun _ written _ => written = vars := by
  induction vars generalizing values start writer with
  | nil =>
    cases declares
    exact gives_pure (Progress.finishAll_nil _) rfl
  | cons var rest ih =>
    obtain ⟨⟩ | ⟨⟨pointer, id, rfl, found, has⟩, declares⟩ := declares
    rename_i value values
    obtain ⟨alone, distinct⟩ := List.nodup_cons.1 distinct
    have isLocal := areLocal value List.mem_cons_self
    refine Gives.bind (write_value found (new value List.mem_cons_self) (by rw [isLocal]; rfl)
      (by simp [Instruction.results]) (by simp; grind) nofun) fun _ front after keeps isFront => ?_
    subst isFront
    rw [← Progress.finish_finishAll]
    refine Gives.mono (ih (Declares.keeps declares keeps)
      (fun other inside => areLocal other (List.mem_cons_of_mem _ inside)) distinct
      fun other inside => ?_) fun _ _ _ _ isNew => by rw [isNew]; rfl
    rintro (rfl | old)
    · exact alone inside
    · exact new other (List.mem_cons_of_mem _ inside) old

theorem entry_gives (ready : Ready context (start.finishAll values) context.graph.entry)
    (declares : Declares writer values vars)
    (areLocal : ∀ value ∈ values, (context.graph.value value).opcode = .alloca) (distinct : values.Nodup)
    (unwritten : ∀ value ∈ values, value ∉ start.values) (new : context.graph.entry ∉ start.blocks) :
    Gives context current start (Write.block context vars context.graph.entry) writer
      (fun _ => ((start.finishAll values).enter context.graph.entry).finishAll
        (context.graph.block context.graph.entry).values) fun _ new _ => Instruction.IsBlock True new := by
  unfold Write.block
  dsimp only
  split_ifs
  · exact gives_throw
  · refine label_bind new fun id after keeps => ?_
    refine Gives.bind (vars_gives (declares.keeps keeps) areLocal distinct unwritten) fun _ front middle keepsOn isFront => ?_
    subst isFront
    have ready : Ready context ((start.enter context.graph.entry).finishAll values) context.graph.entry :=
      { ready with }
    refine Gives.mono (values_gives ready) ?_
    rintro _ _ _ _ ⟨phis, rest, rfl, arePhis, noPhis, isEnd⟩
    rw [noPhis rfl]
    refine ⟨id, [], front, rest, by simp, by simp, ?_, fun _ => rfl, fun no => absurd trivial no, isEnd⟩
    intro instruction found
    obtain ⟨position, bound, rfl⟩ := List.mem_iff_getElem.1 found
    obtain ⟨pointer, id, same, -⟩ := declares.get (declares.length_eq ▸ bound) bound
    have same : front[position] = .var pointer id .function none := same
    rw [same]
    rfl
  · contradiction

theorem blocks_gives {blocks : List BlockId} (ready : ∀ done block rest, blocks = done ++ block :: rest →
      Ready context (start.cover context.graph done) block)
    (distinct : blocks.Nodup) (new : ∀ block ∈ blocks, block ∉ start.blocks ∧ block ≠ context.graph.entry) :
    Gives context current start (blocks.forM (Write.block context vars)) writer
      (fun _ => start.cover context.graph blocks) fun _ new _ =>
        ∃ logs : List (List Instruction), new = logs.flatten ∧
          ∀ log ∈ logs, Instruction.IsBlock False log := by
  have writes := @gives_forM _ context current writer blocks (Write.block context vars)
    (start.cover context.graph) (fun _ new => Instruction.IsBlock False new)
    fun done block rest all after _ => by
      rw [← Progress.cover_enter]
      have inside : block ∈ blocks := by simp [all]
      refine block_gives (ready done block rest all) ?_ (new block inside).2
      rintro (old | isDone)
      · exact (new block inside).1 old
      · rw [all] at distinct
        exact (List.nodup_append.1 distinct).2.2 block isDone block List.mem_cons_self rfl
  rw [Progress.cover_nil] at writes
  refine Gives.mono writes ?_
  rintro _ _ _ _ ⟨logs, rfl, fits⟩
  refine ⟨logs, rfl, fun log found => ?_⟩
  obtain ⟨position, bound, rfl⟩ := List.mem_iff_getElem.1 found
  exact fits.get (fits.length_eq ▸ bound) bound

/-! ## Headers -/

theorem parameters_gives {types : List Id} (has : ∀ type ∈ types, writer.emitter.Has type) :
    Gives context current start (types.mapM parameter) writer (fun _ => start) fun ids new after =>
      (ids.length = types.length ∧ ∀ id ∈ ids, after.emitter.Has id) ∧ new.length = types.length ∧
        ∀ instruction ∈ new, instruction.isParameter = true := by
  have collect (rest : List Id) (reversed : List Id) (middle : Writer)
      (has : ∀ type ∈ rest, middle.emitter.Has type) (hasReversed : ∀ id ∈ reversed, middle.emitter.Has id) :
      Gives context current start (List.mapM.loop parameter rest reversed) middle (fun _ => start)
        fun ids new after => (ids.length = reversed.length + rest.length ∧
          ∀ id ∈ ids, after.emitter.Has id) ∧ new.length = rest.length ∧
            ∀ instruction ∈ new, instruction.isParameter = true := by
    induction rest generalizing reversed middle with
    | nil => exact gives_pure rfl (by simpa using hasReversed)
    | cons type rest ih =>
      have writes : Gives context current start (parameter type) middle (fun _ => start) fun id new after =>
          after.emitter.Has id ∧ ∃ parameter : Instruction, new = [parameter] ∧
            parameter.isParameter = true := by
        refine fresh_bind fun id after keeps hasId => ?_
        have hasType := keeps.has (has type List.mem_cons_self)
        refine Gives.bind (write_held rfl (by simp; grind) nofun) fun _ front last keepsOn isFront => ?_
        subst isFront
        exact gives_pure rfl ⟨keepsOn.has hasId, _, rfl, rfl⟩
      refine Gives.bind writes fun id front after keeps holds => ?_
      obtain ⟨hasId, parameter, rfl, isParameter⟩ := holds
      refine Gives.mono (ih (id :: reversed) after
        (fun other inside => keeps.has (has other (List.mem_cons_of_mem _ inside))) ?_) ?_
      · intro other inside
        rcases List.mem_cons.1 inside with rfl | inside
        · exact hasId
        · exact keeps.has (hasReversed other inside)
      · rintro ids new _ _ ⟨⟨length, hasIds⟩, lengthNew, areParameters⟩
        refine ⟨⟨by simp only [length, List.length_cons]; omega, hasIds⟩, by simp [lengthNew], ?_⟩
        intro instruction found
        rcases List.mem_cons.1 found with rfl | found
        · exact isParameter
        · exact areParameters instruction found
  refine Gives.mono (collect types [] writer has (by simp)) fun _ _ _ _ holds => ?_
  simpa using holds

theorem bindParameters_gives {parameters : List Id} (arranged : context.graph.Arranged)
    (has : ∀ id ∈ parameters, writer.emitter.Has id)
    (bound : ∀ value ∈ context.graph.entryArguments, ∃ index,
      (context.graph.value value).payload = .argument index ∧ index < parameters.length)
    (missing : ∀ value ∈ context.graph.entryArguments, writer.ids.find? value = none) :
    Gives context current start (bindParameters context parameters) writer
      (fun _ => start.finishAll context.graph.entryArguments) fun _ new after =>
        new = [] ∧ after.labels = writer.labels := by
  have isEntry (value : ValueId) (found : value ∈ context.graph.entryArguments) :
      context.graph.IsPlaced value ∧ (context.graph.value value).opcode = .functionArg := by
    obtain ⟨inside, isArgument⟩ := List.mem_filter.1 found
    rw [Graph.IsPlaced, arranged.home _ value inside]
    exact ⟨inside, by simpa using isArgument⟩
  have run (values : List ValueId) (subset : values ⊆ context.graph.entryArguments)
      (distinct : values.Nodup) (start : Progress) (writer : Writer)
      (has : ∀ id ∈ parameters, writer.emitter.Has id)
      (missing : ∀ value ∈ values, writer.ids.find? value = none) :
      Gives context current start (values.forM (bindParameter context parameters)) writer
        (fun _ => start.finishAll values) fun _ new after => new = [] ∧ after.labels = writer.labels := by
    induction values generalizing start writer with
    | nil => exact gives_pure (Progress.finishAll_nil _) ⟨rfl, rfl⟩
    | cons value rest ih =>
      obtain ⟨alone, distinct⟩ := List.nodup_cons.1 distinct
      have inside := subset List.mem_cons_self
      obtain ⟨placed, isArgument⟩ := isEntry value inside
      obtain ⟨index, payload, isBound⟩ := bound value inside
      rw [← Progress.finish_finishAll, List.forM]
      simp only [bindParameter, payload, List.getElem?_eq_getElem isBound]
      refine Gives.bind (alias_gives (missing value List.mem_cons_self)
        (has _ (List.getElem_mem isBound)) placed (by rw [isArgument]; rfl))
        fun _ front after keeps holds => ?_
      obtain ⟨rfl, rfl⟩ := holds
      refine ih (fun other found => subset (List.mem_cons_of_mem _ found)) distinct _ _ has
        fun other found => ?_
      have differs : other ≠ value := fun same => alone (same ▸ found)
      exact (Table.find?_insert_of_ne _ _ differs).trans (missing other (List.mem_cons_of_mem _ found))
  exact run _ (List.Subset.refl _) ((arranged.once _).filter _) start writer has missing

theorem addLabel_gives (missing : writer.labels.find? block = none) (has : context.graph.HasBlock block)
    (new : block ∉ start.blocks) :
    Gives context current start (addLabel block) writer (fun _ => start) fun _ new after =>
      new = [] ∧ ∃ id, after.labels = writer.labels.insert block id := by
  refine Gives.bind fresh_gives fun id front middle keeps holds => ?_
  obtain ⟨rfl, hasId, same⟩ := holds
  have sameLabels : middle.labels = writer.labels := by rw [same]
  rw [← sameLabels] at missing ⊢
  rintro balanced _ _ ⟨⟩
  refine ⟨?_, ⟨le_rfl, Emitter.keeps_refl, fun _ _ found => found⟩, [], (List.append_nil _).symm, rfl,
    id, rfl⟩
  refine { balanced with
    accounts := ?_, labels := fun other found isFound => ?_,
    distinctLabels := balanced.distinctLabels.insert }
  · have accounts := balanced.accounts
    have owes : Writer.owed context.graph start
        { middle with labels := middle.labels.insert block id } =
          middle.owed context.graph (start.hold id) := by
      rw [owed_hold]
      simp only [Writer.owed]
      rw [Table.outside_insert_of_notMem missing new, Multiset.add_cons, Multiset.cons_add]
    rw [← owes] at accounts
    exact accounts
  · by_cases isKey : other = block
    · subst isKey
      rw [Table.find?_insert_self] at isFound
      cases isFound
      exact ⟨hasId, has⟩
    · rw [Table.find?_insert_of_ne _ _ isKey] at isFound
      exact balanced.labels other found isFound

theorem labels_gives {blocks : List BlockId} (distinct : blocks.Nodup)
    (missing : ∀ block ∈ blocks, writer.labels.find? block = none)
    (has : ∀ block ∈ blocks, context.graph.HasBlock block) (new : ∀ block ∈ blocks, block ∉ start.blocks) :
    Gives context current start (blocks.forM addLabel) writer (fun _ => start) fun _ new _ => new = [] := by
  induction blocks generalizing writer with
  | nil => exact gives_pure rfl rfl
  | cons block rest ih =>
    obtain ⟨alone, distinct⟩ := List.nodup_cons.1 distinct
    refine Gives.bind (addLabel_gives (missing block List.mem_cons_self) (has block List.mem_cons_self)
      (new block List.mem_cons_self)) fun _ front after keeps holds => ?_
    obtain ⟨rfl, id, labels⟩ := holds
    refine ih distinct (fun other found => ?_)
      (fun other found => has other (List.mem_cons_of_mem _ found))
      fun other found => new other (List.mem_cons_of_mem _ found)
    have differs : other ≠ block := fun same => alone (same ▸ found)
    rw [labels, Table.find?_insert_of_ne _ _ differs]
    exact missing other (List.mem_cons_of_mem _ found)

theorem localVariable_quietly (arranged : context.graph.Arranged) (placed : context.graph.IsPlaced value)
    (isLocal : (context.graph.value value).opcode = .alloca) :
    Quietly context current start (localVariable context value) writer fun var after =>
      ∃ pointer id, var = .var pointer id .function none ∧ after.ids.find? value = some id ∧
        after.emitter.Has pointer := by
  refine Quietly.bind valueType_quietly fun type after₁ keeps₁ _ => ?_
  split_ifs
  · exact gives_throw
  · refine Quietly.bind typeId_quietly fun pointee after₂ keeps₂ hasPointee => ?_
    refine Quietly.bind (emitting_quietly (Emit.pointerType_gives hasPointee))
      fun pointer after₃ keeps₃ hasPointer => ?_
    refine Quietly.bind (operand_quietly (.inl ⟨placed, by rw [isLocal]; rfl⟩) (arranged.proper value))
      fun id after₄ keeps₄ ⟨_, isId⟩ => ?_
    exact quietly_pure ⟨pointer, id, rfl, isId, keeps₄.has hasPointer⟩

theorem signature_quietly {function : Function} :
    Quietly context current start (signature context function) writer fun types after =>
      after.emitter.Has types.1 ∧ (∀ type ∈ types.2, after.emitter.Has type) ∧
        types.2.length = if function.isEntryPoint then 0 else function.arguments.length := by
  unfold signature
  split_ifs with isEntryPoint
  · refine Quietly.bind typeId_quietly fun void after _ has => ?_
    exact quietly_pure ⟨has, by simp, rfl⟩
  · exact gives_throw
  · have parameters : Quietly context current start (parameterTypes context function) writer
        fun types after => (∀ type ∈ types, after.emitter.Has type) ∧
          types.length = function.arguments.length := by
      refine Quietly.mono (quietly_mapM (fun _ type after => after.emitter.Has type)
        (fun _ _ _ _ keeps has => keeps.has has) fun argument _ after _ => ?_)
        fun types after _ all => ⟨fun type found => ?_, all.length_eq.symm⟩
      · dsimp only
        split_ifs
        · exact gives_throw
        · exact typeId_quietly
      · obtain ⟨position, bound, rfl⟩ := List.mem_iff_getElem.1 found
        exact all.get (all.length_eq ▸ bound) bound
    refine Quietly.bind parameters fun types after₁ _ ⟨has, length⟩ => ?_
    refine Quietly.bind typeId_quietly fun returnType after₂ keeps hasReturn => ?_
    exact quietly_pure ⟨hasReturn, fun type found => keeps.has (has type found), length⟩

/-! ## Functions -/

/-- A step leaves the ids of values and the labels of blocks as they are. -/
def Spares (step : Write α) : Prop :=
  ∀ writer result after, step writer = .ok result after →
    after.ids = writer.ids ∧ after.labels = writer.labels

theorem spares_pure {result : α} : Spares (pure result) := by
  rintro _ _ _ ⟨⟩
  exact ⟨rfl, rfl⟩

theorem spares_throw {failure : Failure} : Spares (throw failure : Write α) := by
  rintro _ _ _ ⟨⟩

theorem Spares.bind {step : Write α} {next : α → Write β} (first : Spares step)
    (second : ∀ result, Spares (next result)) : Spares (step >>= next) := by
  intro writer result last runs
  obtain ⟨value, after, stepped, runs⟩ := Emit.bind_eq_ok runs
  obtain ⟨ids, labels⟩ := first writer value after stepped
  obtain ⟨idsOn, labelsOn⟩ := second value after result last runs
  exact ⟨idsOn.trans ids, labelsOn.trans labels⟩

theorem spares_mapM {step : α → Write β} (each : ∀ item, Spares (step item)) : Spares (items.mapM step) := by
  have collect (items : List α) (reversed : List β) : Spares (List.mapM.loop step items reversed) := by
    induction items generalizing reversed with
    | nil => exact spares_pure
    | cons item rest ih => exact (each item).bind fun _ => ih _
  exact collect items []

theorem spares_emitting {step : Emit α} : Spares (emitting step) := by
  intro writer result after runs
  unfold emitting onPart at runs
  split at runs <;> cases runs
  exact ⟨rfl, rfl⟩

theorem spares_write : Spares (write instruction) := by
  rintro _ _ _ ⟨⟩
  exact ⟨rfl, rfl⟩

theorem spares_signature {function : Function} : Spares (signature context function) := by
  unfold signature
  split_ifs
  · exact spares_emitting.bind fun _ => spares_pure
  · exact spares_throw
  · refine (spares_mapM fun argument => ?_).bind fun _ => spares_emitting.bind fun _ => spares_pure
    dsimp only
    split_ifs
    · exact spares_throw
    · exact spares_emitting

theorem spares_parameter {type : Id} : Spares (parameter type) :=
  spares_emitting.bind fun _ => spares_write.bind fun _ => spares_pure

theorem Gives.sparing {step : Write α} {finish : α → Progress}
    {good : α → List Instruction → Writer → Prop}
    (gives : Gives context current start step writer finish good) (spares : Spares step) :
    Gives context current start step writer finish fun result new after =>
      good result new after ∧ after.ids = writer.ids ∧ after.labels = writer.labels := by
  intro balanced result after runs
  obtain ⟨balanced, keeps, new, body, holds⟩ := gives balanced result after runs
  exact ⟨balanced, keeps, new, body, holds, spares writer result after runs⟩

theorem write_function {function : FunctionId} {returnType functionType : Id}
    (found : writer.emitter.functionIds.find? function = some id) (new : function ∉ start.functions)
    (hasReturn : writer.emitter.Has returnType) (hasType : writer.emitter.Has functionType) :
    Gives context current start (write (.function returnType id functionType)) writer
      (fun _ => start.start function) fun _ written _ =>
        written = [.function returnType id functionType] := by
  rintro balanced _ _ ⟨⟩
  refine ⟨?_, ⟨le_rfl, Emitter.keeps_refl, fun _ _ found => found⟩, _, rfl, rfl⟩
  refine { balanced with
    accounts := ?_
    used := List.forall_mem_append.2 ⟨balanced.used, by simpa using ⟨hasReturn, hasType⟩⟩
    calls := List.forall_mem_append.2 ⟨balanced.calls, List.forall_mem_singleton.2 nofun⟩ }
  have accounts := balanced.accounts.start found new
  have same : Instruction.allResults (writer.body ++ [.function returnType id functionType]) +
      writer.owed context.graph start =
        id ::ₘ (Instruction.allResults writer.body + writer.owed context.graph start) := by
    have result : Instruction.allResults [.function returnType id functionType] = {id} := by
      simp [Instruction.allResults, Instruction.results]
    rw [Instruction.allResults_append, result, ← Multiset.singleton_add]
    ac_rfl
  rw [← same] at accounts
  exact accounts

theorem name_quietly {target : Id} {text : String} (has : writer.emitter.Has target) :
    Quietly context current start (emitting (Emit.name target text)) writer fun _ after =>
      .name target text ∈ after.emitter.sections.names := by
  intro balanced result after runs
  obtain ⟨balanced, keeps, new, body, isNone, -⟩ :=
    emitting_quietly (Emit.name_gives has) balanced result after runs
  refine ⟨balanced, keeps, new, body, isNone, ?_⟩
  cases runs
  exact List.mem_append_right _ (List.mem_singleton_self _)

structure Suits (context : WriteContext) : Prop where
  arranged : context.graph.Arranged
  interface : (context.program.function context.graph.function).isEntryPoint = context.interface.isSome
  arguments : context.interface = none → ∀ value, context.graph.IsPlaced value →
    (context.graph.value value).opcode = .functionArg →
      (context.graph.value value).block = context.graph.entry ∧
        ∃ index, (context.graph.value value).payload = .argument index ∧
          index < (context.program.function context.graph.function).arguments.length

def allocations (graph : Graph) : List ValueId :=
  graph.liveValues.filter fun value => (graph.value value).opcode == .alloca

theorem mem_handles : block ∈ context.graph.blocks.handles ↔ context.graph.HasBlock block := by
  simp only [Arena.handles, List.mem_map, List.mem_range, Graph.HasBlock]
  constructor
  · rintro ⟨index, bound, rfl⟩
    exact bound
  · exact fun bound => ⟨block.index, bound, rfl⟩

theorem nodup_handles : context.graph.blocks.handles.Nodup :=
  List.Nodup.map (fun _ _ same => congrArg Handle.index same) List.nodup_range

theorem liveValues_eq : context.graph.liveValues =
    context.graph.blocks.handles.flatMap fun block => (context.graph.block block).values := by
  have items : context.graph.blocks.toList = context.graph.blocks.handles.map context.graph.block := by
    refine List.ext_getElem (by simp [Arena.toList, Arena.handles, Arena.size]) fun index bound _ => ?_
    have inside : index < context.graph.blocks.items.size := by simpa [Arena.toList] using bound
    simp [Arena.toList, Arena.handles, Graph.block, Arena.get, Arena.get?, inside]
  rw [Graph.liveValues, items, List.flatMap_map]

namespace Suits

theorem mem_liveValues (suits : Suits context) :
    value ∈ context.graph.liveValues ↔ context.graph.IsPlaced value := by
  rw [liveValues_eq, List.mem_flatMap]
  constructor
  · rintro ⟨block, -, found⟩
    rw [Graph.IsPlaced, suits.arranged.home block value found]
    exact found
  · exact fun placed => ⟨_, mem_handles.2 (Graph.hasBlock_of_mem_values placed), placed⟩

theorem mem_allocations (suits : Suits context) : value ∈ allocations context.graph ↔
      context.graph.IsPlaced value ∧ (context.graph.value value).opcode = .alloca := by
  rw [allocations, List.mem_filter, suits.mem_liveValues, beq_iff_eq]

theorem nodup_allocations (suits : Suits context) : (allocations context.graph).Nodup := by
  refine List.Nodup.filter _ ?_
  rw [liveValues_eq, List.nodup_flatMap]
  refine ⟨fun block _ => suits.arranged.once block, nodup_handles.imp fun differs value first second => ?_⟩
  exact differs ((suits.arranged.home _ value first).symm.trans (suits.arranged.home _ value second))

theorem handles_eq (suits : Suits context) : ∃ others,
    context.graph.blocks.handles = context.graph.entry :: others := by
  have some : 0 < context.graph.blocks.size := by
    have has := suits.arranged.hasEntry
    rw [suits.arranged.entry] at has
    exact has
  obtain ⟨count, size⟩ := Nat.exists_eq_succ_of_ne_zero some.ne'
  refine ⟨(List.range count).map fun index => ⟨index + 1⟩, ?_⟩
  rw [Arena.handles, size, List.range_succ_eq_map, List.map_cons, List.map_map, suits.arranged.entry]
  rfl

theorem ready (suits : Suits context) {done : List BlockId} (has : context.graph.HasBlock block)
    (new : block ∉ done)
    (values : ∀ value ∈ start.values, (context.graph.value value).opcode = .functionArg)
    (arguments : ∀ value, context.graph.IsPlaced value → (context.graph.value value).opcode = .functionArg →
      context.interface = none → value ∈ start.values) :
    Ready context ((start.finishAll (allocations context.graph)).cover context.graph done) block where
  arranged := suits.arranged
  has := has
  new value found noLocal noArgument := by
    rintro ((isArgument | isLocal) | ⟨other, isDone, inside⟩)
    · exact noArgument (values value isArgument)
    · exact noLocal (suits.mem_allocations.1 isLocal).2
    · refine new ?_
      rwa [← suits.arranged.home block value found, suits.arranged.home other value inside]
  locals value placed isLocal := .inl (.inr (suits.mem_allocations.2 ⟨placed, isLocal⟩))
  arguments value placed isArgument noInterface := .inl (.inl (arguments value placed isArgument noInterface))

end Suits

theorem body_gives (suits : Suits context) (noBlocks : start.blocks = ∅)
    (values : ∀ value ∈ start.values, (context.graph.value value).opcode = .functionArg)
    (arguments : ∀ value, context.graph.IsPlaced value → (context.graph.value value).opcode = .functionArg →
      context.interface = none → value ∈ start.values)
    (noLabels : writer.labels = {}) :
    Gives context current start (do
      context.graph.blocks.handles.forM addLabel
      let vars ← (allocations context.graph).mapM (localVariable context)
      context.graph.blocks.handles.forM (Write.block context vars)
      write .functionEnd) writer
      (fun _ => (start.finishAll (allocations context.graph)).cover context.graph
        context.graph.blocks.handles) fun _ new _ =>
        ∃ first blocks, new = (first :: blocks).flatten ++ [.functionEnd] ∧
          Instruction.IsBlock True first ∧ ∀ block ∈ blocks, Instruction.IsBlock False block := by
  refine Gives.bind (labels_gives nodup_handles (fun block _ => by rw [noLabels]; rfl)
    (fun block found => mem_handles.1 found) (by simp [noBlocks])) fun _ front after₁ _ isFront => ?_
  subst isFront
  refine Quietly.bind (quietly_mapM (fun value (var : Instruction) after => ∃ pointer id,
    var = .var pointer id .function none ∧ after.ids.find? value = some id ∧ after.emitter.Has pointer)
    (fun _ _ _ _ keeps ⟨pointer, id, same, found, has⟩ =>
      ⟨pointer, id, same, keeps.find found, keeps.has has⟩)
    fun value found _ _ => ?_) fun vars after₂ _ declares => ?_
  · obtain ⟨placed, isLocal⟩ := suits.mem_allocations.1 found
    exact localVariable_quietly suits.arranged placed isLocal
  have distinct := @nodup_handles context
  have has (block : BlockId) (found : block ∈ context.graph.blocks.handles) := mem_handles.1 found
  obtain ⟨others, handles⟩ := suits.handles_eq
  rw [handles] at distinct has ⊢
  obtain ⟨alone, distinct⟩ := List.nodup_cons.1 distinct
  have readyEntry := suits.ready suits.arranged.hasEntry (List.not_mem_nil) values arguments
  rw [Progress.cover_nil] at readyEntry
  have entry := @entry_gives context current start after₂ vars (allocations context.graph) readyEntry declares
    (fun value found => (suits.mem_allocations.1 found).2) suits.nodup_allocations
    (fun value found isArgument => by
      have isLocal := (suits.mem_allocations.1 found).2
      rw [values value isArgument] at isLocal
      cases isLocal) (by simp [noBlocks])
  have covers := Progress.cover_enter (start.finishAll (allocations context.graph)) context.graph []
    context.graph.entry
  rw [Progress.cover_nil, List.nil_append] at covers
  rw [covers] at entry
  simp only [List.forM, bind_assoc]
  refine Gives.bind entry fun _ first after₃ _ isFirst => ?_
  refine Gives.bind (blocks_gives (fun done block rest all => ?_) distinct fun block found => ?_)
    fun _ _ after₄ _ ⟨blocks, isBlocks, areBlocks⟩ => ?_
  · rw [Progress.cover_cover]
    have inside : block ∈ others := by simp [all]
    refine suits.ready (has block (List.mem_cons_of_mem _ inside)) ?_ values arguments
    rw [List.singleton_append, List.mem_cons, not_or]
    refine ⟨fun same => alone (same ▸ inside), fun isDone => ?_⟩
    rw [all] at distinct
    exact (List.nodup_append.1 distinct).2.2 block isDone block List.mem_cons_self rfl
  · have differs : block ≠ context.graph.entry := fun same => alone (same ▸ found)
    refine ⟨?_, differs⟩
    simp [Progress.cover, Progress.finishAll, noBlocks, differs]
  · rw [Progress.cover_cover, List.singleton_append]
    refine Gives.mono (write_none rfl (by simp)) fun _ _ _ _ isNew => ⟨first, blocks, ?_, isFirst, areBlocks⟩
    simp [isNew, isBlocks]

def boundArguments (context : WriteContext) : List ValueId :=
  if context.interface.isSome then [] else context.graph.entryArguments

theorem Suits.mem_boundArguments (suits : Suits context) :
    value ∈ boundArguments context ↔ context.interface = none ∧ context.graph.IsPlaced value ∧
      (context.graph.value value).opcode = .functionArg := by
  unfold boundArguments
  split_ifs with hasInterface
  · simp [Option.ne_none_iff_isSome.2 hasInterface]
  · have noInterface : context.interface = none := by simpa using hasInterface
    simp only [noInterface, true_and, Graph.entryArguments, List.mem_filter, beq_iff_eq]
    refine and_congr_left fun isArgument => ⟨fun found => ?_, fun placed => ?_⟩
    · rw [Graph.IsPlaced, suits.arranged.home _ value found]
      exact found
    · rw [← (suits.arguments noInterface value placed isArgument).1]
      exact placed

theorem function_gives (suits : Suits context) (isCurrent : context.graph.function ∈ current)
    (new : context.graph.function ∉ start.functions) (noBlocks : start.blocks = ∅)
    (noValues : start.values = ∅) (noIds : writer.ids = {}) (noLabels : writer.labels = {}) :
    Gives context current start (Write.function context) writer
      (fun _ => (((start.start context.graph.function).finishAll (boundArguments context)).finishAll
        (allocations context.graph)).cover context.graph context.graph.blocks.handles) fun _ new after =>
      ∃ id, after.emitter.functionIds.find? context.graph.function = some id ∧
        .name id (context.program.function context.graph.function).name ∈ after.emitter.sections.names ∧
        Instruction.IsFunction id (if context.interface.isSome then 0 else
          (context.program.function context.graph.function).arguments.length) new := by
  have body (writer : Writer) (noLabels : writer.labels = {}) :=
    @body_gives context current ((start.start context.graph.function).finishAll (boundArguments context))
      writer suits noBlocks (by
        rintro value (old | isBound)
        · rw [show (start.start context.graph.function).values = ∅ from noValues] at old
          exact absurd old (Set.notMem_empty value)
        · exact (suits.mem_boundArguments.1 isBound).2.2)
      (fun value placed isArgument noInterface =>
        .inr (suits.mem_boundArguments.2 ⟨noInterface, placed, isArgument⟩)) noLabels
  unfold Write.function
  dsimp only
  refine Gives.bind (Gives.sparing (emitting_quietly (Emit.functionId_gives (.inr isCurrent)))
    spares_emitting) fun id _ after₁ keeps₁ holds => ?_
  obtain ⟨⟨rfl, has, found⟩, ids₁, labels₁⟩ := holds
  refine Gives.bind (Gives.sparing signature_quietly spares_signature) fun types _ after₂ keeps₂ holds => ?_
  obtain ⟨⟨rfl, hasReturn, hasTypes, length⟩, ids₂, labels₂⟩ := holds
  obtain ⟨returnType, types⟩ := types
  refine Gives.bind (Gives.sparing (emitting_quietly (Emit.functionType_gives hasReturn hasTypes))
    spares_emitting) fun functionType _ after₃ keeps₃ holds => ?_
  obtain ⟨⟨rfl, hasType⟩, ids₃, labels₃⟩ := holds
  have found₃ := keeps₃.emitter.functionIds _ _ (keeps₂.emitter.functionIds _ _ found)
  refine Gives.bind (Gives.sparing (write_function found₃ new (keeps₃.has hasReturn) hasType)
    spares_write) fun _ _ after₄ keeps₄ holds => ?_
  obtain ⟨rfl, ids₄, labels₄⟩ := holds
  have has₄ : after₄.emitter.Has id := keeps₄.has (keeps₃.has (keeps₂.has has))
  refine Gives.bind (Gives.sparing (name_quietly has₄) spares_emitting) fun _ _ after₅ keeps₅ holds => ?_
  obtain ⟨⟨rfl, isNamed⟩, ids₅, labels₅⟩ := holds
  have noIds₅ : after₅.ids = {} := by rw [ids₅, ids₄, ids₃, ids₂, ids₁, noIds]
  have noLabels₅ : after₅.labels = {} := by rw [labels₅, labels₄, labels₃, labels₂, labels₁, noLabels]
  have found₅ := keeps₅.emitter.functionIds _ _ (keeps₄.emitter.functionIds _ _ found₃)
  refine @Gives.mono _ _ _ _ _ _ _ (fun _ new _ => ∃ parameters first blocks,
    new = parameters ++ ((first :: blocks).flatten ++ [.functionEnd]) ∧
      parameters.length = types.length ∧ (∀ instruction ∈ parameters, instruction.isParameter = true) ∧
      Instruction.IsBlock True first ∧ ∀ block ∈ blocks, Instruction.IsBlock False block) _ ?_ ?_
  · have entry := suits.interface
    split_ifs with isEntryPoint
    · have noArguments : boundArguments context = [] := by
        rw [boundArguments, ← entry, if_pos isEntryPoint]
      have noTypes : types.length = 0 := by simpa [isEntryPoint] using length
      have goesOn := body after₅ noLabels₅
      rw [noArguments, Progress.finishAll_nil] at goesOn ⊢
      refine Gives.mono goesOn ?_
      rintro _ _ _ _ ⟨first, blocks, rfl, isFirst, areBlocks⟩
      exact ⟨[], first, blocks, rfl, noTypes.symm, by simp, isFirst, areBlocks⟩
    · have noInterface : context.interface = none := by
        rw [entry] at isEntryPoint
        simpa using isEntryPoint
      have isBound : boundArguments context = context.graph.entryArguments := by
        simp [boundArguments, noInterface]
      have hasTypes₅ : ∀ type ∈ types, after₅.emitter.Has type := fun type inside =>
        keeps₅.has (keeps₄.has (keeps₃.has (hasTypes type inside)))
      refine Gives.bind (Gives.sparing (parameters_gives hasTypes₅) (spares_mapM fun _ => spares_parameter))
        fun ids parameters after₆ keeps₆ holds => ?_
      obtain ⟨⟨⟨lengthIds, hasIds⟩, lengthNew, areParameters⟩, ids₆, labels₆⟩ := holds
      refine Gives.bind (bindParameters_gives suits.arranged hasIds (fun value inside => ?_)
        fun value _ => by rw [ids₆, noIds₅]; rfl) fun _ _ after₇ _ holds => ?_
      · rw [← isBound] at inside
        obtain ⟨-, placed, isArgument⟩ := suits.mem_boundArguments.1 inside
        obtain ⟨-, index, payload, bound⟩ := suits.arguments noInterface value placed isArgument
        have sameLength : types.length = (context.program.function context.graph.function).arguments.length := by
          simpa [isEntryPoint] using length
        exact ⟨index, payload, by rwa [lengthIds, sameLength]⟩
      · obtain ⟨rfl, labels₇⟩ := holds
        have goesOn := body after₇ (by rw [labels₇, labels₆, noLabels₅])
        rw [isBound] at goesOn ⊢
        refine Gives.mono goesOn ?_
        rintro _ _ _ _ ⟨first, blocks, rfl, isFirst, areBlocks⟩
        exact ⟨parameters, first, blocks, rfl, lengthNew, areParameters, isFirst, areBlocks⟩
  · rintro _ _ last keeps ⟨parameters, first, blocks, rfl, lengthNew, areParameters, isFirst, areBlocks⟩
    refine ⟨id, keeps.emitter.functionIds _ _ found₅, keeps.emitter.names isNamed, returnType, functionType,
      parameters, first, blocks, by simp, ?_, areParameters, isFirst, areBlocks⟩
    rw [lengthNew, ← suits.interface]
    exact length

end Write

end Shader
