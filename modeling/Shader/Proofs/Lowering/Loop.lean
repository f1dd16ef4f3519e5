import Shader.Proofs.Lowering.Branch

/-! # Loops

Lowering a loop. The block that the loop comes back to is not sealed before the way back is there, so
variables that are looked up meanwhile wait in it. The way back opens no new ways, since it comes from
behind that block. -/

namespace Shader

open Relation (ReflTransGen)

namespace Graph

variable {slots : Set VarId} {free : Set BlockId} {graph after : Graph} {header origin : BlockId}

/-- A block has one predecessor, and waits for the way back of a loop. -/
structure IsHeader (graph : Graph) (header origin : BlockId) : Prop where
  has : graph.HasBlock header
  notEntry : header ≠ graph.entry
  preds : (graph.block header).preds = [origin]
  unsealed : (graph.block header).isSealed = false

theorem IsHeader.moves (isHeader : graph.IsHeader header origin)
    (moves : Moves False slots free graph after) (ready : graph.Ready)
    (away : header ∉ free) : after.IsHeader header origin := by
  have stepped := moves.stepped ready
  refine ⟨stepped.hasBlock header isHeader.has, ?_, ?_, ?_⟩
  · rw [stepped.entry]
    exact isHeader.notEntry
  · rw [stepped.preds header ⟨isHeader.has, away⟩]
    exact isHeader.preds
  · rw [stepped.isSealed header ⟨isHeader.has, away⟩]
    exact isHeader.unsealed

theorem Reserved.isHeader (reserved : graph.Reserved header [origin] false) : graph.IsHeader header origin :=
  ⟨reserved.has, reserved.notEntry, reserved.preds, reserved.isSealed⟩

/-- What opening the blocks of a loop does, up to the start of its condition. -/
structure Opened (slots : Set VarId) (header : BlockId) (graph start : Graph) : Prop where
  extension : Extends slots ∅ {header} graph start
  isHeader : start.IsHeader header graph.current
  new : ¬ graph.HasBlock header
  isOpen : start.IsOpen
  behind : start.Dominates header start.current

/-- The condition of a loop can start in a block behind the header. -/
structure Announces (slots : Set VarId) (header first : BlockId) (graph now : Graph) : Prop where
  extension : Extends slots ∅ {header} graph now
  isHeader : now.IsHeader header graph.current
  new : ¬ graph.HasBlock header
  newFirst : ¬ graph.HasBlock first
  reserved : ∃ preds closed, now.Reserved first preds closed
  behind : now.Dominates header first

end Graph

namespace Build

open Shader.Graph

variable {program : Program} {slots scope : Set VarId} {graph : Graph}
  {watch : Watch} {condition : ValueId} {header : BlockId} {α β : Type} {post : α → Graph → Prop}
  {step : Build β} {origin : BlockId}

theorem Fills.mono {does : Graph → β → Graph → Prop} {more : Set VarId}
    (fills : Fills watch program more scope step does) (fewer : slots ⊆ more) :
    Fills watch program slots scope step does := by
  intro start ready isOpen available
  refine (fills start ready isOpen available).mono ?_
  rintro result after ⟨proceeds, done⟩
  exact ⟨proceeds.mono fewer, done⟩

/-! ## In front of the condition -/

theorem pass_ensures (tolerant : watch.Tolerant)
    {does : Graph → β → Graph → Prop} {next : Nat → β → Build α} {name : String}
    (fills : Fills watch program slots scope step does) (fewer : scope ⊆ slots)
    (ready : graph.Ready) (isOpen : graph.IsOpen)
    (available : graph.Available program graph.current scope)
    (continues : ∀ construct start result after, Proceeds False slots graph after →
      does start result after → Ensures watch (next construct result) after post) :
    Ensures watch (do
        let construct ← nextConstruct
        let block ← newBlock construct name
        let _ ← jump (← get).current block
        sealBlock program block
        setCurrent block
        let result ← step
        next construct result) graph post := by
  refine Ensures.bind (nextConstruct_yields slots).ensures ?_
  rintro construct counted ⟨extends₁, prepares₁⟩
  refine Ensures.bind (newBlock_reserving (Reserving.refl.onward extends₁ prepares₁ ready) ready
    construct name).ensures ?_
  intro block entered reserving
  have readyEntered := reserving.extension.ready ready
  have new := reserving.new block (by simp)
  refine ensures_get_bind (Ensures.bind (jump_reserved slots tolerant readyEntered
    (reserving.prepares.isOpen isOpen) (reserving.reserved block (by simp))).ensures ?_)
  rintro - left ⟨leaves, reserved, -⟩
  rw [reserving.prepares.current, List.nil_append] at reserved
  have whole := reserving.extension.onward leaves ready subset_rfl (by simpa using new)
  have readyLeft := whole.ready ready
  have gathers : left.Gathers block graph.current := ⟨_, reserved, by simp⟩
  refine ensures_assoc (Ensures.bind (resume_yields slots tolerant readyLeft gathers).ensures ?_)
  rintro - start ⟨enters, starts, isOpenStart, behind, isSealed⟩
  have readyStart := enters.ready readyLeft
  have wholeStart : Extends slots ∅ ∅ graph start := by
    refine (whole.close enters ready subset_rfl (by simpa using new) isSealed).mono ?_
    intro other found
    simp at found
  have proceeds := wholeStart.proceeds id (starts.current.symm ▸ behind)
  refine Ensures.bind (fills start readyStart isOpenStart (available.proceeds proceeds ready fewer)) ?_
  rintro result after ⟨filled, done⟩
  exact continues construct start result after (proceeds.trans filled ready subset_rfl) done

theorem setCurrent_header {block : BlockId} {preds : List BlockId} {closed : Bool}
    (slots : Set VarId) (ready : graph.Ready) (reserved : graph.Reserved block preds closed)
    (isHeader : graph.IsHeader header origin) :
    Yields watch (setCurrent block) graph fun _ after =>
      (Extends slots {block} ∅ graph after ∧ Starts block after ∧ after.IsOpen ∧
        ∀ other, after.Dominates other block ↔ graph.Dominates other block) ∧
      after.IsHeader header origin := by
  obtain ⟨_, after, runs, facts⟩ := @setCurrent_yields graph watch block preds closed slots ready reserved
  refine ⟨_, after, runs, facts, ?_⟩
  cases runs
  exact ⟨isHeader.has, isHeader.notEntry, isHeader.preds, isHeader.unsealed⟩

section

variable {construct : Nat}

variable (slots : Set VarId) (tolerant : watch.Tolerant) (ready : graph.Ready) (isOpen : graph.IsOpen)

include tolerant ready isOpen

theorem openHeader_ensures {name : String} {next : BlockId → Build α}
    (continues : ∀ header left, ¬ graph.HasBlock header → Extends slots ∅ {header} graph left →
      left.Reserved header [graph.current] false → Ensures watch (next header) left post) :
    Ensures watch (do
        let header ← newBlock construct name
        let _ ← jump (← get).current header
        next header) graph post := by
  refine Ensures.bind (newBlock_yields slots ready construct name).ensures ?_
  rintro header entered ⟨makes, prepares, reserved, new⟩
  refine ensures_get_bind (Ensures.bind (jump_reserved slots tolerant (makes.ready ready)
    (prepares.isOpen isOpen) reserved).ensures ?_)
  rintro - left ⟨leaves, reservedLeft, -⟩
  rw [prepares.current, List.nil_append] at reservedLeft
  refine continues header left new ?_ reservedLeft
  exact (makes.onward leaves ready subset_rfl (by simpa using new)).mono (by simp)

omit isOpen in
theorem openThrough_yields {left : Graph} {name : String}
    (new : ¬ graph.HasBlock header) (extension : Extends slots ∅ {header} graph left)
    (reserved : left.Reserved header [graph.current] false) :
    Yields watch (do
        let first ← newBlock construct name
        let _ ← jump header first
        sealBlock program first
        return (header, first)) left fun opened now =>
      Announces slots opened.1 opened.2 graph now := by
  have readyLeft := extension.ready ready
  refine Yields.bind (newBlock_yields slots readyLeft construct name) ?_
  rintro first next ⟨makes, -, reservedFirst, newFirst⟩
  have readyNext := makes.ready readyLeft
  have reservedNext := reserved.moves makes.moves readyLeft (Set.notMem_empty _)
  have differs : header ≠ first := by
    rintro rfl
    exact newFirst reserved.has
  have newFirstHere : ¬ graph.HasBlock first :=
    fun has => newFirst ((extension.moves.stepped ready).hasBlock first has)
  -- the jump comes from the header, which is not the current block
  have ends : Ends next header (.jumpTo first) :=
    { joins :=
        { hasSource := reservedNext.has
          isOpen := readyNext.sound.laidOut.ending_of_blank reservedNext.blank
          hasTargets := by simpa [Payload.blocks] using reservedFirst.has
          unsealed := by simpa [Payload.blocks] using reservedFirst.isSealed
          distinct := List.nodup_singleton _
          forward := .inl (by simpa [Payload.blocks] using ⟨reservedFirst.blank, differs.symm⟩) }
      isEnding := rfl
      live := by simp
      dominates := by simp }
  refine Yields.bind (jump_yields tolerant readyNext.sound ends) ?_
  rintro - passed rfl
  have passes : Extends slots {header, first} ∅ next (next.endBlock header (.jumpTo first)) :=
    ends.extends (.inr (by simp)) (by simp [Payload.blocks])
  have readyPassed := passes.ready readyNext
  have firstPassed := reservedFirst.ends ends List.mem_cons_self differs.symm
  have headerPassed : (next.endBlock header (.jumpTo first)).IsHeader header graph.current := by
    refine ⟨(passes.moves.stepped readyNext).hasBlock header reservedNext.has, ?_, ?_, ?_⟩
    · rw [(passes.moves.stepped readyNext).entry]
      exact reservedNext.notEntry
    · rw [ends.preds_eq, if_neg (by simpa [Payload.blocks] using differs), List.append_nil]
      exact reservedNext.preds
    · rw [ends.inserts.isSealed, ends.joins.isSealed]
      exact reservedNext.isSealed
  refine Yields.bind (seal_yields slots tolerant readyPassed firstPassed) ?_
  rintro - sealed ⟨seals, firstSealed, -⟩
  have away : header ∉ ({first} : Set BlockId) := differs
  have wholeNext := extension.onward makes ready subset_rfl (by simp)
  have wholePassed := wholeNext.onward passes ready subset_rfl (by simp [new, newFirstHere])
  have whole := wholePassed.close seals ready subset_rfl (by simpa using newFirstHere) firstSealed.isSealed
  refine yields_pure
    { extension := whole.mono ?_
      isHeader := headerPassed.moves seals.moves readyPassed away
      new := new
      newFirst := newFirstHere
      reserved := ⟨_, _, firstSealed⟩
      behind := firstSealed.dominates (by simp) }
  intro block found
  simp at found
  tauto

theorem openLoop_ensures {branches : Bool} {next : BlockId × BlockId → Build α}
    (continues : ∀ opened start, Opened slots opened.1 graph start → Ensures watch (next opened) start post) :
    Ensures watch (do
        let opened ← openLoop program construct branches
        setCurrent opened.2
        next opened) graph post := by
  have announces : Ensures watch (openLoop program construct branches) graph fun opened now =>
      Announces slots opened.1 opened.2 graph now := by
    unfold openLoop
    split
    · refine openHeader_ensures slots tolerant ready isOpen ?_
      intro header left new extension reserved
      exact (openThrough_yields slots tolerant ready new extension reserved).ensures
    · refine openHeader_ensures slots tolerant ready isOpen ?_
      intro header left new extension reserved
      exact ensures_pure
        { extension := extension
          isHeader := reserved.isHeader
          new := new
          newFirst := new
          reserved := ⟨_, _, reserved⟩
          behind := dominates_self }
  refine Ensures.bind announces ?_
  rintro ⟨header, first⟩ now announced
  have readyNow := announced.extension.ready ready
  obtain ⟨preds, closed, reserved⟩ := announced.reserved
  refine Ensures.bind (setCurrent_header slots readyNow reserved announced.isHeader).ensures ?_
  rintro - start ⟨⟨enters, starts, isOpenStart, dominates⟩, isHeader⟩
  refine continues (header, first) start
    { extension := ?_
      isHeader := isHeader
      new := announced.new
      isOpen := isOpenStart
      behind := ?_ }
  · exact (announced.extension.onward enters ready subset_rfl (by simpa using announced.newFirst)).mono
      (by simp)
  · rw [starts.current]
    exact (dominates header).2 announced.behind

end

/-! ## Body and step -/

structure Turns (slots : Set VarId) (last : BlockId) (graph after : Graph) : Prop where
  proceeds : Proceeds False slots graph after
  isOpen : after.IsOpen
  new : ¬ graph.HasBlock last
  reserved : after.Reserved last [graph.current] true

theorem stepBlock_ensures (tolerant : watch.Tolerant)
    {does : Graph → β → Graph → Prop} {next : BlockId → Build α} {construct : Nat} {name : String}
    (fills : Fills watch program slots scope step does) (fewer : scope ⊆ slots)
    (ready : graph.Ready) (has : graph.HasBlock origin)
    (available : graph.Available program origin scope) (behind : graph.Dominates origin graph.current)
    (continues : ∀ block start result after, ¬ graph.HasBlock block → Starts block start →
      does start result after → Extends slots ∅ ∅ graph after →
      after.Dominates origin after.current → Ensures watch (next block) after post) :
    Ensures watch (do
        let block ← newBlock construct name
        jumpIfOpen block
        sealBlock program block
        setCurrent block
        let _ ← step
        next block) graph post := by
  refine Ensures.bind (newBlock_yields slots ready construct name).ensures ?_
  rintro block prepared ⟨makes, prepares, reserved, new⟩
  have readyPrepared := makes.ready ready
  have behindPrepared : prepared.Dominates origin prepared.current := by
    rw [prepares.current]
    exact (makes.moves.dominates_iff ready ready.sound.flows.hasCurrent (Set.notMem_empty _)
      (by simp)).2 behind
  refine Ensures.bind (jumpIfOpen_yields slots tolerant readyPrepared ⟨[], reserved, by simp⟩
    behindPrepared).ensures ?_
  rintro - left ⟨leaves, gathers⟩
  have whole := makes.onward leaves ready subset_rfl (by simpa using new)
  have readyLeft := whole.ready ready
  refine ensures_assoc (Ensures.bind (resume_yields slots tolerant readyLeft gathers).ensures ?_)
  rintro - start ⟨enters, starts, isOpenStart, behindStart, isSealed⟩
  have wholeStart : Extends slots ∅ ∅ graph start := by
    refine (whole.close enters ready subset_rfl (by simpa using new) isSealed).mono ?_
    intro other found
    simp at found
  have readyStart := wholeStart.ready ready
  rw [← starts.current] at behindStart
  have availableStart : start.Available program start.current scope :=
    (available.moves wholeStart.moves ready fewer has (Set.notMem_empty _) (by simp)).behind behindStart
  refine Ensures.bind (fills start readyStart isOpenStart availableStart) ?_
  rintro result after ⟨proceeds, done⟩
  refine continues block start result after new starts done ?_ ?_
  · exact (wholeStart.onward proceeds.extends ready subset_rfl (by simp)).mono (by simp)
  · exact ((proceeds.dominates_iff readyStart readyStart.sound.flows.hasCurrent).2 behindStart).trans
      proceeds.dominates

theorem round_ensures (tolerant : watch.Tolerant) (ready : graph.Ready) (isOpen : graph.IsOpen)
    (held : graph.Held graph.current condition) (available : graph.Available program graph.current scope)
    {body : Build Unit} {next : BlockId → BlockId → Build α} {construct : Nat} {first second third : String}
    (fillsBody : Fills watch program scope scope body fun _ _ _ => True)
    (fillsStep : Fills watch program scope scope step fun _ _ after => after.IsOpen)
    (continues : ∀ last stepBlock after, Turns scope last graph after →
        Ensures watch (next last stepBlock) after post) :
    Ensures watch (do
        let bodyBlock ← newBlock construct first
        let last ← newBlock construct second
        let _ ← condJump (← get).current condition bodyBlock last
        sealBlock program bodyBlock
        sealBlock program last
        setCurrent bodyBlock
        body
        let stepBlock ← newBlock construct third
        jumpIfOpen stepBlock
        sealBlock program stepBlock
        setCurrent stepBlock
        let _ ← step
        next last stepBlock) graph post := by
  have unchanged : Reserving scope [] graph graph := .refl
  refine Ensures.bind (newBlock_reserving unchanged ready construct first).ensures ?_
  intro bodyBlock graph₁ reserving₁
  refine Ensures.bind (newBlock_reserving reserving₁ ready construct second).ensures ?_
  intro last split reserving
  have bodyLast : bodyBlock ≠ last := by simpa using reserving.distinct
  refine ensures_get_bind (Ensures.bind (split_yields scope tolerant ready isOpen held reserving
    (by simp) (by simp) bodyLast).ensures ?_)
  intro _ forked forks
  have newBody := forks.new bodyBlock (by simp)
  have newLast := forks.new last (by simp)
  have hasHead := ready.sound.flows.hasCurrent
  have apart : graph.current ≠ bodyBlock := by
    rintro rfl
    exact newBody hasHead
  -- both blocks are sealed at once
  have ready₁ := forks.extension.ready ready
  refine Ensures.bind (seal_yields scope tolerant ready₁ forks.reservedTrue).ensures ?_
  rintro - graph₂ ⟨seals₂, body₂, -⟩
  have ready₂ := seals₂.ready ready₁
  have last₂ := forks.reservedFalse.moves seals₂.moves ready₁ (by simpa using bodyLast.symm)
  have whole₂ := forks.extension.close seals₂ ready subset_rfl (by simpa using newBody) body₂.isSealed
  refine Ensures.bind (seal_yields scope tolerant ready₂ last₂).ensures ?_
  rintro - graph₃ ⟨seals₃, last₃, -⟩
  have ready₃ := seals₃.ready ready₂
  have body₃ := body₂.moves seals₃.moves ready₂ (by simpa using bodyLast)
  have whole₃ : Extends scope ∅ ∅ graph graph₃ := by
    refine (whole₂.close seals₃ ready subset_rfl (by simpa using newLast) last₃.isSealed).mono ?_
    intro block found
    simp at found
    tauto
  -- the body is filled
  refine fill_ensures fillsBody ready₃ subset_rfl body₃ (by simp)
    ((whole₃.moves.stepped ready).hasBlock _ hasHead) apart
    (available.moves whole₃.moves ready subset_rfl hasHead (Set.notMem_empty _) (by simp)) ?_
  intro _ _ bodyEnd _ enters readyEnd behindEnd _
  have wholeEnd : Extends scope ∅ ∅ graph bodyEnd :=
    (whole₃.onward enters ready subset_rfl (by simpa using newBody)).mono (by simp)
  have lastEnd := last₃.moves enters.moves ready₃ (by simpa using bodyLast.symm)
  -- the step comes behind it
  refine stepBlock_ensures tolerant fillsStep subset_rfl readyEnd
    ((wholeEnd.moves.stepped ready).hasBlock _ hasHead)
    (available.moves wholeEnd.moves ready subset_rfl hasHead (Set.notMem_empty _) (by simp)) behindEnd ?_
  intro stepBlock _ _ after _ _ isOpenAfter extension behind
  have whole : Extends scope ∅ ∅ graph after :=
    (wholeEnd.onward extension ready subset_rfl (by simp)).mono (by simp)
  exact continues last stepBlock after
    { proceeds := whole.proceeds id behind
      isOpen := isOpenAfter
      new := newLast
      reserved := lastEnd.moves extension.moves readyEnd (Set.notMem_empty _) }

/-! ## The way back -/

theorem waiting_new {now : Graph} {free : Set BlockId} {block : BlockId}
    (moves : Moves False slots free graph now) (ready : graph.Ready)
    (new : ¬ graph.HasBlock block) {var : VarId} {phi : ValueId}
    (waits : (var, phi) ∈ (now.block block).incomplete) : ¬ graph.HasValue phi := by
  intro has
  have sound := (moves.ready ready).sound
  have live := sound.consistent.waiting block var phi waits
  obtain ⟨-, home, -⟩ := sound.fills.waits block var phi waits
  have core := (moves.stepped ready).core phi has
  have liveThen : graph.IsLive phi := ⟨has, by rw [← Value.removed_of_core core]; exact live.2⟩
  have homeThen : (graph.value phi).block = block :=
    (Value.block_of_nature (Value.nature_of_core core)).symm.trans home
  exact new (homeThen ▸ ready.sound.consistent.hasBlock liveThen)

theorem closeLoop_yields (tolerant : watch.Tolerant)
    {now : Graph} {test last stepBlock : BlockId} (ready : graph.Ready)
    (extension : Extends slots ∅ {header} graph now) (isOpen : now.IsOpen)
    (isHeader : now.IsHeader header origin) (new : ¬ graph.HasBlock header)
    (behind : now.Dominates header now.current) (reserved : now.Reserved last [test] true)
    (newLast : ¬ graph.HasBlock last) (apart : last ≠ header)
    (dominates : now.Dominates graph.current test) :
    Yields watch (do
        let _ ← jump (← get).current header
        sealBlock program header
        setMerge header (.loop last stepBlock)
        setCurrent last) now fun _ after =>
      Proceeds False slots graph after ∧ after.IsOpen := by
  have readyNow := extension.ready ready
  have ends : Ends now now.current (.jumpTo header) :=
    { joins :=
        { hasSource := readyNow.sound.flows.hasCurrent
          isOpen := isOpen
          hasTargets := by simpa [Payload.blocks] using isHeader.has
          unsealed := by simpa [Payload.blocks] using isHeader.unsealed
          distinct := List.nodup_singleton _
          forward := .inr ⟨header, rfl, behind⟩ }
      isEnding := rfl
      live := by simp
      dominates := by simp }
  refine yields_get_bind (Yields.bind (jump_yields tolerant readyNow.sound ends) ?_)
  rintro - looped isLooped
  have leaves : Extends slots {header} ∅ now looped := by
    rw [isLooped]
    exact ends.extends (.inl rfl) (by simp [Payload.blocks])
  have whole : Extends slots ∅ {header} graph looped :=
    (extension.onward leaves ready subset_rfl (by simpa using new)).mono (by simp)
  have readyLooped := whole.ready ready
  have lastLooped := reserved.moves leaves.moves readyNow (by simpa using apart)
  have dominatesLooped : looped.Dominates graph.current test := by
    have edge : test ∈ (now.block last).preds := by simp [reserved.preds]
    rw [isLooped, ends.dominates_iff readyNow.sound _
      (fun _ blank => absurd blank (readyNow.sound.not_blank_of_pred edge))]
    exact dominates
  have preds : (looped.block header).preds = [origin, now.current] := by
    rw [isLooped, ends.preds_eq, isHeader.preds]
    simp [Payload.blocks]
  have hasHeader := (leaves.moves.stepped readyNow).hasBlock header isHeader.has
  have unsealed : (looped.block header).isSealed = false := by
    rw [isLooped, ends.inserts.isSealed, ends.joins.isSealed]
    exact isHeader.unsealed
  -- the header is sealed, which only touches phis that are newer than the loop
  have fits : (sealGuard graph looped slots header).Fits looped := whole.moves.sealGuard_fits ready
  refine Yields.bind (seal_steps tolerant readyLooped fits hasHeader unsealed
    (fun pred only => by simp [preds] at only)
    fun var phi waits => waiting_new whole.moves ready new waits) ?_
  rintro - sealed ⟨steps, seals, neatens⟩
  have stepped := Steps.stepped steps readyLooped.sound fits
  have hasBlock (block : BlockId) : sealed.HasBlock block ↔ looped.HasBlock block := by
    rw [HasBlock, HasBlock, seals.sizeBlocks]
  have wholeStepped := whole.moves.stepped ready
  have below : (graph.frame False slots ∅).Below (sealGuard graph looped slots header) :=
    { values := subset_rfl
      blank := fun block found => ⟨wholeStepped.hasBlock block found.1, wholeStepped.blank block found,
        whole.moves.current_ne ready found.1 (Set.notMem_empty _) found.2.2.1⟩
      notes := subset_rfl
      blocks := fun block found => ⟨wholeStepped.hasBlock block found.1, by
        rintro rfl
        exact new found.1⟩
      slots := subset_rfl
      straight := id }
  have wholeSealed : Extends slots ∅ ∅ graph sealed := by
    refine ⟨⟨whole.moves.steps.trans (steps.weaken below), whole.moves.neatens.trans neatens⟩,
      fun block has => ?_⟩
    rw [seals.isSealed]
    rcases whole.closed block ((hasBlock block).1 has) with old | done | isLast
    · exact .inl old
    · exact .inr (.inl (by simp [done]))
    · exact .inr (.inl (if_pos isLast))
  have readySealed := wholeSealed.ready ready
  have lastSealed : sealed.Reserved last [test] true := by
    refine ⟨(hasBlock last).2 lastLooped.has,
      stepped.blank last ⟨lastLooped.has, lastLooped.blank, lastLooped.apart⟩, ?_, ?_, ?_, ?_⟩
    · rw [seals.current]
      exact lastLooped.apart
    · rw [stepped.entry]
      exact lastLooped.notEntry
    · rw [seals.preds]
      exact lastLooped.preds
    · rw [seals.isSealed, if_neg apart]
      exact lastLooped.isSealed
  have dominatesSealed : sealed.Dominates graph.current last := by
    refine lastSealed.dominates fun pred found => ?_
    rw [List.mem_singleton.1 found]
    exact (dominates_congr stepped.entry seals.preds).2 dominatesLooped
  -- what comes behind the loop is filled next
  refine Yields.bind (setMerge_yields slots ((hasBlock header).2 hasHeader) _) ?_
  rintro - merged ⟨merges, -⟩
  have readyMerged := merges.ready readySealed
  have lastMerged := lastSealed.moves merges.moves readySealed (Set.notMem_empty _)
  refine Yields.mono (setCurrent_yields slots readyMerged lastMerged) ?_
  rintro - after ⟨enters, starts, isOpenAfter, dominatesAfter⟩
  have wholeMerged := wholeSealed.onward merges ready subset_rfl (by simp)
  have wholeAfter : Extends slots ∅ ∅ graph after :=
    (wholeMerged.onward enters ready subset_rfl (by simpa using newLast)).mono (by simp)
  refine ⟨wholeAfter.proceeds id ?_, isOpenAfter⟩
  rw [starts.current, dominatesAfter, merges.moves.dominates_iff readySealed lastSealed.has
    (Set.notMem_empty _) (by simp)]
  exact dominatesSealed

/-! ## The whole loop -/

theorem forLoopWith_ensures (tolerant : watch.Tolerant)
    (ready : graph.Ready) (isOpen : graph.IsOpen)
    (available : graph.Available program graph.current scope) {init condition step : Option ExprId}
    {body : Build Unit}
    (fillsInit : Fills watch program scope scope (optionalExpr program init) fun _ _ after => after.IsOpen)
    (fillsCondition : Fills watch program scope scope (loopCondition program condition) (Evaluates False))
    (fillsStep : Fills watch program scope scope (optionalExpr program step) fun _ _ after => after.IsOpen)
    (fillsBody : Fills watch program scope scope body fun _ _ _ => True) :
    Ensures watch (forLoopWith program init condition step body) graph fun _ after =>
      Proceeds False scope graph after ∧ after.IsOpen := by
  refine pass_ensures tolerant fillsInit subset_rfl ready isOpen available ?_
  intro construct _ _ initEnd proceeds isOpenInit
  have readyInit := proceeds.ready ready
  dsimp only
  refine openLoop_ensures scope tolerant readyInit isOpenInit ?_
  rintro ⟨header, first⟩ condStart opened
  have readyStart := opened.extension.ready readyInit
  have hasInit := readyInit.sound.flows.hasCurrent
  -- the condition comes behind the header, and the header behind the initialisation
  have behindHeader : condStart.Dominates initEnd.current header := by
    refine dominates_of_preds opened.isHeader.notEntry fun pred edge => ?_
    rw [opened.isHeader.preds, List.mem_singleton] at edge
    rw [edge]
    exact dominates_self
  have availableStart : condStart.Available program condStart.current scope :=
    ((available.proceeds proceeds ready subset_rfl).moves opened.extension.moves readyInit subset_rfl
      hasInit (Set.notMem_empty _) (by simp)).behind (behindHeader.trans opened.behind)
  refine Ensures.bind (fillsCondition condStart readyStart opened.isOpen availableStart) ?_
  rintro value condEnd ⟨-, evaluates⟩
  have readyCond := evaluates.ready readyStart
  have condProceeds := evaluates.proceeds.mono (Set.subset_univ scope)
  refine round_ensures tolerant readyCond evaluates.isOpen evaluates.held
    (availableStart.proceeds condProceeds readyStart subset_rfl) fillsBody fillsStep ?_
  intro last stepBlock stepEnd turns
  have fromStart : Proceeds False scope condStart stepEnd :=
    condProceeds.trans turns.proceeds readyStart subset_rfl
  have hasHeader := opened.isHeader.has
  have hasStart := readyStart.sound.flows.hasCurrent
  have apart : last ≠ header := by
    rintro rfl
    exact turns.new ((condProceeds.moves.stepped readyStart).hasBlock last hasHeader)
  have newHeader : ¬ graph.HasBlock header :=
    fun has => opened.new ((proceeds.moves.stepped ready).hasBlock header has)
  have newLast : ¬ graph.HasBlock last := by
    intro has
    have hasStartLast := (opened.extension.moves.stepped readyInit).hasBlock last
      ((proceeds.moves.stepped ready).hasBlock last has)
    exact turns.new ((condProceeds.moves.stepped readyStart).hasBlock last hasStartLast)
  have opening : Extends scope ∅ {header} graph condStart :=
    (proceeds.extends.onward opened.extension ready subset_rfl (by simp)).mono (by simp)
  have whole : Extends scope ∅ {header} graph stepEnd :=
    (opening.onward fromStart.extends ready subset_rfl (by simp)).mono (by simp)
  have behind : stepEnd.Dominates header stepEnd.current :=
    ((fromStart.dominates_iff readyStart hasStart).2 opened.behind).trans fromStart.dominates
  have dominates : condEnd.Dominates graph.current condEnd.current := by
    have first : condStart.Dominates graph.current initEnd.current :=
      (opened.extension.moves.dominates_iff readyInit hasInit (Set.notMem_empty _) (by simp)).2
        proceeds.dominates
    exact ((condProceeds.dominates_iff readyStart hasStart).2
      ((first.trans behindHeader).trans opened.behind)).trans condProceeds.dominates
  exact (closeLoop_yields tolerant ready whole turns.isOpen
    (opened.isHeader.moves fromStart.moves readyStart (Set.notMem_empty _)) newHeader behind
    turns.reserved newLast apart
    ((turns.proceeds.dominates_iff readyCond readyCond.sound.flows.hasCurrent).2 dominates)).ensures

end Build

end Shader
