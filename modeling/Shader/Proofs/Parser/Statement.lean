import Shader.Proofs.Parser.Expression

/-! # Parsed statements

Every statement that is read is made of older nodes, and its expressions read only variables that are
declared in front of them. -/

namespace Shader

variable {scopes : Scopes} {name : String}

namespace ParserState

variable {start middle after : ParserState} {added more : Set VarId}

/-! ## Declared variables -/

/-- A sane program was added to other things than arguments, and variables to the innermost scope. -/
structure Declares (start after : ParserState) (added : Set VarId) : Prop where
  started : start.Sane
  sane : after.Sane
  grows : start.program.Grows after.program
  globals : after.scopes.globals = start.scopes.globals
  outer : after.scopes.blocks.tail = start.scopes.blocks.tail
  inner : after.scopes.blocks ≠ []
  locals : after.scopes.locals = start.scopes.locals ∪ added
  result : after.returnType = start.returnType
  declarations : after.program.declarations = start.program.declarations
  vars : start.program.KeepsVars after.program

theorem Extends.declares (extended : Extends start after) (inner : start.scopes.blocks ≠ []) :
    Declares start after ∅ where
  started := extended.started
  sane := extended.sane
  grows := extended.grows
  globals := by rw [extended.scopes]
  outer := by rw [extended.scopes]
  inner := by rwa [extended.scopes]
  locals := by rw [extended.scopes, Set.union_empty]
  result := extended.result
  declarations := extended.declarations
  vars := extended.vars

theorem Declares.trans (first : Declares start middle added) (second : Declares middle after more) :
    Declares start after (added ∪ more) where
  started := first.started
  sane := second.sane
  grows := first.grows.trans second.grows
  globals := second.globals.trans first.globals
  outer := second.outer.trans first.outer
  inner := second.inner
  locals := by rw [second.locals, first.locals, Set.union_assoc]
  result := second.result.trans first.result
  declarations := second.declarations.trans first.declarations
  vars := first.vars.trans second.vars first.grows.vars

end ParserState

theorem Scopes.locals_bindInnermost {var : VarId}
    {span : Option Span} (inner : scopes.blocks ≠ []) (free : scopes.innermost.find? name = none) :
    (scopes.bindInnermost name ⟨.var var, span⟩).locals = scopes.locals ∪ {var} := by
  obtain ⟨_ | ⟨scope, outer⟩, globals⟩ := scopes
  · exact absurd rfl inner
  have free : scope.find? name = none := free
  ext other
  simp only [Scopes.locals, bindInnermost, List.mem_cons, exists_eq_or_imp, Set.mem_ofPred_eq,
    Set.mem_union, Set.mem_singleton_iff]
  constructor
  · rintro (⟨key, place, found⟩ | outside)
    · by_cases same : key = name
      · rw [same, Table.find?_insert_self] at found
        cases found
        exact .inr rfl
      · rw [Table.find?_insert_of_ne _ _ same] at found
        exact .inl (.inl ⟨key, place, found⟩)
    · exact .inl (.inr outside)
  · rintro ((⟨key, place, found⟩ | outside) | rfl)
    · have differs : key ≠ name := by
        rintro rfl
        rw [free] at found
        cases found
      exact .inl ⟨key, place, by rwa [Table.find?_insert_of_ne _ _ differs]⟩
    · exact .inr outside
    · exact .inl ⟨name, span, Table.find?_insert_self _ _ _⟩

theorem Scopes.binds_bindGlobal {entry : ScopeEntry}
    {symbol : Symbol} (bound : (scopes.bindGlobal name entry).Binds symbol) :
    symbol = entry.symbol ∨ scopes.Binds symbol := by
  rcases bound with inBlocks | ⟨key, span, found⟩
  · exact .inr (.inl inBlocks)
  · by_cases same : key = name
    · rw [same, bindGlobal, Table.find?_insert_self] at found
      cases found
      exact .inl rfl
    · rw [bindGlobal, Table.find?_insert_of_ne _ _ same] at found
      exact .inr (.inr ⟨key, span, found⟩)

theorem Scopes.binds_bindInnermost {entry : ScopeEntry}
    {symbol : Symbol} (bound : (scopes.bindInnermost name entry).Binds symbol) :
    symbol = entry.symbol ∨ scopes.Binds symbol := by
  obtain ⟨_ | ⟨scope, outer⟩, globals⟩ := scopes
  · exact Scopes.binds_bindGlobal bound
  rcases bound with ⟨inner, inBlocks, key, span, found⟩ | atTop
  · rcases List.mem_cons.1 inBlocks with rfl | inOuter
    · by_cases same : key = name
      · rw [same, Table.find?_insert_self] at found
        cases found
        exact .inl rfl
      · rw [Table.find?_insert_of_ne _ _ same] at found
        exact .inr (.inl ⟨scope, List.mem_cons_self, key, span, found⟩)
    · exact .inr (.inl ⟨inner, List.mem_cons_of_mem _ inOuter, key, span, found⟩)
  · exact .inr (.inr atTop)

namespace Parser

variable {node : Stmt}

open ParserState (Extends Declares)

variable {α β : Type} {scope : Set VarId} {expected : Option TypeId} {start : ParserState}

theorem declareLocal_gives {name : String} {var : VarId} {span : Span} (sane : start.Sane)
    (inner : start.scopes.blocks ≠ []) (has : var.index < start.program.vars.size) :
    Gives (declareLocal name (.var var) span) start fun _ after =>
      after.program = start.program ∧ Declares start after {var} := by
  refine gives_get_bind ?_
  split
  · exact gives_throw
  · rename_i free
    refine gives_modify ⟨rfl, ?_⟩
    have locals : (start.scopes.bindInnermost name ⟨.var var, some span⟩).locals =
        start.scopes.locals ∪ {var} := Scopes.locals_bindInnermost inner free
    obtain ⟨innermost, outer, split⟩ := List.exists_cons_of_ne_nil inner
    have bound : start.scopes.bindInnermost name ⟨.var var, some span⟩ =
        { start.scopes with blocks := innermost.insert name ⟨.var var, some span⟩ :: outer } := by
      rw [Scopes.bindInnermost, split]
    refine ⟨sane, ⟨sane.program, ?_, ?_⟩, .refl, ?_, ?_, ?_, locals, rfl, rfl, .refl⟩ <;> dsimp only
    · intro symbol isBound
      rcases Scopes.binds_bindInnermost isBound with rfl | old
      · exact has
      · exact sane.known symbol old
    · rw [bound]
      exact sane.globals
    · rw [bound]
    · rw [bound, split]
      rfl
    · rw [bound]
      exact List.cons_ne_nil _ _

theorem makeVariable_reads {var : Variable} (fits : start.program.VarFits var)
    (noArgument : var.kind.isArgument = false) :
    Reads scope expected (makeVariable var) start fun program id =>
      program = start.program.addVariable var ∧ id = start.program.vars.next := by
  intro sane _ _
  refine gives_get_bind (gives_modify_bind (gives_pure ⟨?_, rfl, rfl⟩))
  exact sane.extends (sane.program.addVariable fits) (start.program.grows_addVariable var) rfl rfl rfl
    (Program.keepsVars_addVariable noArgument)

theorem var_of_added {program : Program} {var : Variable}
    (added : program = start.program.addVariable var) :
    program.var start.program.vars.next = var ∧ start.program.vars.next.index < program.vars.size := by
  rw [added, Program.addVariable, Program.var, Arena.get, Arena.get?_append_next]
  exact ⟨rfl, by simp [Arena.next]⟩

theorem declareLocals_gives {type : TypeId} {init : Option ExprId} {names : List Token}
    (sane : start.Sane) (inner : start.scopes.blocks ≠ [])
    (plain : start.program.NoPointer type) (typed : start.program.HasInit type init) :
    Gives (declareVariables type .localVar init names) start fun vars after =>
      Declares start after {var | var ∈ vars} ∧ ∀ var ∈ vars, start.program.vars.size ≤ var.index ∧
          (after.program.var var).kind ≠ .global ∧ (after.program.var var).init = init := by
  induction names generalizing start with
  | nil =>
    rw [declareVariables]
    refine gives_pure ⟨?_, by simp⟩
    simpa using (Extends.refl sane).declares inner
  | cons name rest ih =>
    rw [declareVariables]
    refine Gives.bind (makeVariable_reads ⟨plain.known, typed, fun _ => ⟨rfl, plain.noPointer⟩⟩ rfl sane
      rfl rfl) ?_
    rintro var added ⟨extended, program, rfl⟩
    obtain ⟨isNew, has⟩ := var_of_added program
    have size : added.program.vars.size = start.program.vars.size + 1 := by
      rw [program]
      exact Arena.size_append _ _
    have innerAdded : added.scopes.blocks ≠ [] := by rwa [extended.scopes]
    rw [if_neg (by decide)]
    refine Gives.bind (declareLocal_gives extended.sane innerAdded has) ?_
    rintro - named ⟨same, declares⟩
    have growsNamed : start.program.Grows named.program := extended.grows.trans declares.grows
    refine Gives.bind (ih declares.sane declares.inner (plain.grows growsNamed) (typed.grows growsNamed)) ?_
    rintro vars after ⟨others, each⟩
    refine gives_pure ⟨?_, ?_⟩
    · have whole := ((extended.declares inner).trans declares).trans others
      simpa [Set.insert_def, Set.union_def] using whole
    · intro other found
      rcases List.mem_cons.1 found with rfl | inRest
      · obtain ⟨kind, -, sameInit⟩ := others.grows.var start.program.vars.next (same ▸ has)
        rw [kind, sameInit, same, isNew]
        exact ⟨le_rfl, by simp⟩
      · obtain ⟨beyond, facts⟩ := each other inRest
        rw [same, size] at beyond
        exact ⟨by omega, facts⟩

/-! ## Declarations -/

theorem attribute_reads :
    Reads scope expected attribute? start fun _ found => ∀ attr ∈ found, attr.used = false := by
  refine reads_peek_bind fun token => ?_
  split_ifs
  · refine Reads.bind advance_reads fun _ first _ _ => ?_
    refine Reads.bind expectIdentifier_reads fun name second _ _ => ?_
    extract_lets rest
    have reads (arguments : List ExprId) (now : ParserState) :
        Reads scope expected (rest arguments) now fun _ found => ∀ attr ∈ found, attr.used = false := by
      refine reads_peek_bind fun close => ?_
      dsimp only
      split_ifs
      · refine Reads.bind advance_reads fun _ last _ _ => ?_
        exact reads_program_bind (reads_accept_bind fun kind _ => reads_pure (by simp))
      · exact reads_throw_bind
    refine Reads.bind (eat_reads "(") fun hasArguments third _ _ => ?_
    split_ifs
    · refine reads_depthLimit_bind fun limit => ?_
      refine Reads.bind ((reads_exprs scope expected limit).arguments third true) fun result last _ _ => ?_
      exact reads result.1 last
    · exact reads [] third
  · exact reads_pure (by simp)

theorem attributes_reads :
    Reads scope expected attributes start fun _ found => ∀ attr ∈ found, attr.used = false := by
  refine reads_repeatFrom (fun _ found => ∀ attr ∈ found, attr.used = false) (by simp)
    fun found now _ unused => ?_
  refine Reads.bind attribute_reads fun attr after _ isUnused => ?_
  split
  · exact reads_pure (by simpa [or_imp, forall_and] using And.intro unused isUnused)
  · exact reads_pure unused

theorem typeName_reads :
    Reads scope expected typeName start fun program starred => program.NoPointer starred.base := by
  refine reads_peek_bind fun token => reads_get_bind ?_
  dsimp only
  split
  · exact reads_throw
  · rename_i base found
    have named : start.scopes.findType? token.text = some base := by
      split_ifs at found
      exact found
    refine reads_intro fun sane _ => ?_
    have plain : start.program.NoPointer base := sane.known (.type base) (Scopes.binds_of_findType named)
    refine Reads.bind advance_reads fun _ first extended _ => ?_
    refine reads_repeatFrom (fun program starred => program.NoPointer starred.base)
      (plain.grows extended.grows) fun starred now front holds => ?_
    refine reads_nextIs_bind fun isStar => ?_
    split_ifs
    · refine Reads.bind advance_reads fun star after extendedAfter _ => reads_pure ?_
      exact plain.grows ((extended.trans front).trans extendedAfter).grows
    · exact reads_pure holds

theorem starType_reads (storage : StorageClass) (stars : Nat) {type : TypeId}
    (known : type.index < start.program.types.size) :
    Reads scope expected (starType storage stars type) start fun program pointer =>
      pointer.index < program.types.size := by
  induction stars generalizing start type with
  | zero => exact reads_pure known
  | succ stars ih =>
    refine Reads.bind (pointerTo_reads storage known) fun pointer after _ isPointer => ?_
    exact ih (Program.has_of_kind_ne (by simp [isPointer]))

theorem finishType_reads {starred : StarredType} (found : List Attribute)
    (plain : start.program.NoPointer starred.base) :
    Reads scope expected (finishType starred found) start fun program type =>
      type.index < program.types.size ∧ (found = [] → program.NoPointer type) := by
  unfold finishType
  split_ifs
  · exact reads_pure ⟨plain.known, fun _ => plain⟩
  · refine reads_accept_bind fun storage accepted => ?_
    refine (starType_reads storage _ plain.known).mono fun type after _ known => ⟨known, ?_⟩
    rintro rfl
    cases accepted

theorem moreNames_reads (first : Token) : Reads scope expected (moreNames first) start fun _ _ => True := by
  refine reads_repeatFrom (fun _ _ => True) trivial fun names now _ _ => ?_
  refine Reads.bind (eat_reads ",") fun isComma after _ _ => ?_
  split_ifs
  · exact Reads.bind expectIdentifier_reads fun name _ _ _ => reads_pure trivial
  · exact reads_pure trivial

theorem initialValue_reads (type : TypeId) :
    Reads scope expected (initialValue type) start fun program init =>
      (∀ id ∈ init.toList, program.Readable scope id) ∧ program.HasInit type init := by
  refine Reads.bind (eat_reads "=") fun hasInit first _ _ => ?_
  split_ifs
  · refine Reads.bind (expression_reads 0) fun init after _ read => ?_
    refine reads_program_bind (reads_accept_bind fun _ checked => reads_pure ⟨?_, ?_⟩)
    · simpa using read
    · simpa [Program.HasInit] using And.intro read.has (Program.type_of_checkInit checked)
  · exact reads_pure ⟨by simp, by simp [Program.HasInit]⟩

theorem variableDeclaration_gives {starred : StarredType} {first : Token} {kind : VariableKind}
    {post : StmtId → ParserState → Prop} (sane : start.Sane)
    (plain : start.program.NoPointer starred.base)
    (declared : ∀ type names init span now, Extends start now →
      (∀ id ∈ init.toList, now.program.Readable start.scopes.locals id) →
      now.program.NoPointer type → now.program.HasInit type init →
      Gives (do
        let vars ← declareVariables type kind init names
        makeStmt ⟨.varDecl vars init, span⟩) now post) :
    Gives (variableDeclaration starred first kind) start post := by
  refine attributes_reads.gives_bind sane fun found first' extendedFirst _ => ?_
  refine (finishType_reads found (plain.grows extendedFirst.grows)).gives_bind extendedFirst.sane
    fun type second extendedSecond isType => ?_
  extract_lets rest checked
  have reads (isPlain : second.program.NoPointer type) : Gives (rest ()) second post := by
    refine (moreNames_reads first).gives_bind extendedSecond.sane fun names third extendedThird _ => ?_
    refine (initialValue_reads type).gives_bind extendedThird.sane fun init fourth extendedFourth both => ?_
    obtain ⟨read, typed⟩ := both
    refine gives_peek_bind fun semicolon => ?_
    refine (eat_reads ";").gives_bind extendedFourth.sane fun isEnd last extendedLast _ => ?_
    dsimp only
    have front := (extendedFirst.trans extendedSecond).trans extendedThird
    have whole := (front.trans extendedFourth).trans extendedLast
    have behind := (extendedThird.trans extendedFourth).trans extendedLast
    split_ifs
    · refine declared type names init _ last whole (fun id isInit => ?_)
        (isPlain.grows behind.grows) (typed.grows extendedLast.grows)
      rw [← front.scopes]
      exact extendedLast.readable (read id isInit)
    · exact gives_throw_bind
  have passes (isPlain : second.program.NoPointer type) : Gives (checked ()) second post := by
    unfold checked
    split_ifs
    · exact gives_throw_bind
    · exact reads isPlain
  split
  · exact gives_throw_bind
  · rename_i none
    exact passes (isType.2 (List.eq_nil_iff_forall_not_mem.2 fun attr inFound => by
      obtain ⟨first, rest, rfl⟩ := List.exists_cons_of_ne_nil (List.ne_nil_of_mem inFound)
      exact none first rest rfl))

/-! ## Statements -/

theorem makeStmt_reads {around : Set VarId}
    (exprs : ∀ expr ∈ node.kind.exprs, start.program.Readable scope expr)
    (new : ∀ var ∈ node.kind.declared, var ∉ scope)
    (own : ∀ var ∈ node.kind.declared, (start.program.var var).kind ≠ .global)
    (row : start.program.RunnableRow expected scope node.kind.row)
    (branches : ∀ child ∈ node.kind.branches, start.program.Runnable expected scope child)
    (typed : start.program.StmtTyped node.kind)
    (returns : ∀ value, node.kind = .returnStmt value → start.program.ReturnFits expected value) :
    Reads around expected (makeStmt node) start fun program id =>
      program.Runnable expected scope id ∧
        program.declaredBy [id] = {var | var ∈ node.kind.declared} := by
  intro sane _ _
  refine gives_get_bind (gives_modify_bind (gives_pure ?_))
  have rowHas (child : StmtId) (found : child ∈ node.kind.row) : child.index < start.program.stmts.size := by
    obtain ⟨_, runnable⟩ := row.mem found
    exact runnable.has
  have added : Program.Sane _ := sane.program.addStmt rowHas
    (fun child found => (branches child found).has) (fun expr found => (exprs expr found).has) typed
  exact ⟨sane.extends added (Program.grows_addStmt node) rfl rfl rfl .refl,
    sane.program.runnable_addStmt exprs new own row branches returns⟩

/-- A statement that declares nothing can be added when its parts are readable and runnable, its
conditions are truth values and what it returns fits. -/
theorem makePlain_reads (none : node.kind.declared = [])
    (exprs : ∀ expr ∈ node.kind.exprs, start.program.Readable scope expr)
    (conditions : ∀ condition ∈ node.kind.conditions, (start.program.expr condition).type = .bool)
    (returns : ∀ value, node.kind = .returnStmt value → start.program.ReturnFits expected value)
    (row : start.program.RunnableRow expected scope node.kind.row)
    (branches : ∀ child ∈ node.kind.branches, start.program.Runnable expected scope child) :
    Reads scope expected (makeStmt node) start fun program id =>
      program.Runnable expected scope id ∧ program.declaredBy [id] = ∅ := by
  refine (makeStmt_reads exprs ?_ ?_ row branches ⟨conditions, ?_⟩ returns).mono ?_
  · simp [none]
  · simp [none]
  · intro vars init isDecl var found
    rw [isDecl] at none
    have noVars : vars = [] := none
    rw [noVars] at found
    exact absurd found List.not_mem_nil
  · intro id after _ made
    simpa [none] using made

theorem makeSimple_reads (none : node.kind.declared = [])
    (noRow : node.kind.row = []) (noBranches : node.kind.branches = [])
    (noConditions : node.kind.conditions = [])
    (exprs : ∀ expr ∈ node.kind.exprs, start.program.Readable scope expr)
    (returns : ∀ value, node.kind = .returnStmt value → start.program.ReturnFits expected value) :
    Reads scope expected (makeStmt node) start fun program id =>
      program.Runnable expected scope id ∧ program.declaredBy [id] = ∅ := by
  refine makePlain_reads none exprs ?_ returns ?_ ?_
  · simp [noConditions]
  · rw [noRow]
    exact fun front child rest split => absurd split (by simp)
  · simp [noBranches]

theorem localDeclaration_gives (sane : start.Sane) (inner : start.scopes.blocks ≠ []) :
    Gives localDeclaration start fun id after =>
      Declares start after (after.program.declaredBy [id]) ∧
        after.program.Runnable start.returnType start.scopes.locals id := by
  refine typeName_reads.gives_bind sane fun starred first extendedFirst plain => ?_
  refine expectIdentifier_reads.gives_bind extendedFirst.sane fun name second extendedSecond _ => ?_
  have front := extendedFirst.trans extendedSecond
  refine variableDeclaration_gives extendedSecond.sane (plain.grows extendedSecond.grows)
    fun type names init span now extendedNow read isPlain typed => ?_
  have whole := front.trans extendedNow
  have innerNow : now.scopes.blocks ≠ [] := by rwa [whole.scopes]
  refine Gives.bind (declareLocals_gives whole.sane innerNow isPlain typed) ?_
  rintro vars named ⟨declares, each⟩
  have made : Reads named.scopes.locals named.returnType (makeStmt ⟨.varDecl vars init, span⟩) named
      fun program id => program.Runnable named.returnType start.scopes.locals id ∧
        program.declaredBy [id] = {var | var ∈ vars} := by
    refine makeStmt_reads ?_ ?_ (fun var found => (each var found).2.1) ?_ ?_ ⟨?_, ?_⟩ ?_
    · intro expr found
      rw [← front.scopes]
      exact (read expr found).grows whole.sane.program declares.grows
    · intro var found inScope
      have old := sane.has_local inScope
      have beyond := (each var found).1
      have fewer := whole.grows.vars
      omega
    · intro front child rest split
      exact absurd split (by simp [StmtKind.row])
    · exact fun child found => absurd found List.not_mem_nil
    · exact fun condition found => absurd found List.not_mem_nil
    · rintro _ _ ⟨⟩ var found
      obtain ⟨-, own, shared⟩ := each var found
      exact ⟨Program.has_of_not_global own, shared⟩
    · exact fun value isReturn => nomatch isReturn
  refine (made declares.sane rfl rfl).mono ?_
  rintro id after ⟨extended, runnable, adds⟩
  rw [declares.result, whole.result] at runnable
  refine ⟨?_, runnable⟩
  have total := ((whole.declares inner).trans declares).trans (extended.declares declares.inner)
  rw [adds]
  simpa using total

theorem returnStatement_reads (keyword : Token) :
    Reads scope expected (returnStatement keyword) start fun program id =>
      program.Runnable expected scope id ∧ program.declaredBy [id] = ∅ := by
  refine reads_get_bind (reads_intro fun _ isExpected => ?_)
  split
  · exact reads_throw
  · rename_i type isType
    rw [isExpected] at isType
    extract_lets rest
    have reads (value : Option ExprId) (now : ParserState)
        (read : ∀ expr ∈ value.toList, now.program.Readable scope expr)
        (returns : now.program.ReturnFits (some type) value) :
        Reads scope expected (rest value) now fun program id =>
          program.Runnable expected scope id ∧ program.declaredBy [id] = ∅ := by
      refine Reads.bind (expect_reads ";") fun semicolon last extended _ => ?_
      refine makeSimple_reads rfl rfl rfl rfl ?_ ?_
      · exact fun expr found => extended.readable (read expr found)
      · rintro _ ⟨⟩
        rw [isType]
        exact returns.grows extended.grows fun expr found => (read expr found).has
    split_ifs with isVoid
    · exact reads none start (by simp) isVoid
    · refine Reads.bind (expression_reads 0) fun value after _ read => ?_
      refine reads_program_bind (reads_accept_bind fun _ checked => ?_)
      exact reads (some value) after (by simpa using read) ⟨isVoid, Program.type_of_checkReturn checked⟩

theorem expressionStatement_reads : Reads scope expected expressionStatement start fun program id =>
      program.Runnable expected scope id ∧ program.declaredBy [id] = ∅ := by
  refine Reads.bind (expression_reads 0) fun expr first _ read => ?_
  refine Reads.bind (expect_reads ";") fun semicolon last extended _ => ?_
  refine reads_program_bind (makeSimple_reads rfl rfl rfl rfl ?_ ?_)
  · simpa using extended.readable read
  · exact fun value isReturn => nomatch isReturn

theorem condition_reads : Reads scope expected condition start fun program id =>
      program.Readable scope id ∧ (program.expr id).type = .bool := by
  refine Reads.bind (expression_reads 0) fun condition after _ read => ?_
  exact reads_program_bind (reads_accept_bind fun _ checked =>
    reads_pure ⟨read, Program.type_of_checkCondition checked⟩)

theorem optionalPart_reads (close : String) {part : Parser ExprId} {good : Program → ExprId → Prop}
    (reads : Reads scope expected part start good) :
    Reads scope expected (optionalPart close part) start fun program value =>
      ∀ expr ∈ value.toList, good program expr := by
  refine reads_nextIs_bind fun isMissing => ?_
  split_ifs
  · exact reads_pure (by simp)
  · exact Reads.bind reads fun expr after _ read => reads_pure (by simpa using read)

theorem inScope_reads {step : Parser α} {good : Program → α → Prop}
    (inner : ∀ pushed : ParserState, pushed.Sane → pushed.program = start.program →
      pushed.scopes.blocks ≠ [] → pushed.scopes.locals = scope → pushed.returnType = expected →
      Gives step pushed fun result after =>
        (∃ added, Declares pushed after added) ∧ good after.program result) :
    Reads scope expected (inScope step) start good := by
  intro sane inScope returns
  have locals : start.scopes.push.locals = start.scopes.locals := by
    ext var
    simp [Scopes.locals, Scopes.push, Table.find?]
  refine gives_modify_bind ?_
  have sanePushed : ParserState.Sane { start with scopes := start.scopes.push } := by
    refine ⟨sane.program, fun symbol bound => sane.known symbol ?_, sane.globals⟩
    simpa [Scopes.Binds, Scopes.push, Table.find?] using bound
  refine Gives.bind (inner _ sanePushed rfl (List.cons_ne_nil _ _) (locals.trans inScope) returns) ?_
  rintro result after ⟨⟨added, declares⟩, holds⟩
  -- what is left of the scopes is what there was in front
  have back : after.scopes.pop = start.scopes := by
    have outer : after.scopes.blocks.tail = start.scopes.blocks := declares.outer
    have globals : after.scopes.globals = start.scopes.globals := declares.globals
    rw [Scopes.pop, List.drop_one, outer, globals]
  refine gives_modify_bind (gives_pure ⟨?_, holds⟩)
  exact sane.extends declares.sane.program declares.grows back declares.result
    declares.declarations declares.vars

/-! ## Reading statements -/

/-- A statement that was read is runnable in the scope in front of it. -/
def ReadsStmt (step : Parser StmtId) (start : ParserState) : Prop :=
  start.Sane → start.scopes.blocks ≠ [] → Gives step start fun id after =>
    Declares start after (after.program.declaredBy [id]) ∧
      after.program.Runnable start.returnType start.scopes.locals id

theorem Reads.stmt {step : Parser StmtId}
    (reads : Reads start.scopes.locals start.returnType step start fun program id =>
      program.Runnable start.returnType start.scopes.locals id ∧ program.declaredBy [id] = ∅) :
    ReadsStmt step start := by
  intro sane inner
  refine (reads sane rfl rfl).mono ?_
  rintro id after ⟨extended, runnable, none⟩
  rw [none]
  exact ⟨extended.declares inner, runnable⟩

/-- The functions that read statements to a depth give runnable ones. -/
structure ReadsStmts (depth : Nat) : Prop where
  statement : ∀ start, ReadsStmt (statementWithin depth) start
  block : ∀ scope expected start, Reads scope expected (blockWithin depth) start fun program id =>
    program.Runnable expected scope id ∧ program.declaredBy [id] = ∅
  statements : ∀ start : ParserState, start.Sane → start.scopes.blocks ≠ [] →
    Gives (statementsWithin depth) start fun result after =>
      Declares start after (after.program.declaredBy result.1) ∧
        after.program.RunnableRow start.returnType start.scopes.locals result.1
  body : ∀ scope expected start, Reads scope expected (bodyWithin depth) start fun program id =>
    program.Runnable expected scope id ∧ program.declaredBy [id] = ∅
  branch : ∀ scope expected start keyword, Reads scope expected (ifWithin depth keyword) start fun program id =>
    program.Runnable expected scope id ∧ program.declaredBy [id] = ∅
  loop : ∀ scope expected start keyword, Reads scope expected (forWithin depth keyword) start fun program id =>
    program.Runnable expected scope id ∧ program.declaredBy [id] = ∅

variable {depth : Nat}

theorem ReadsStmts.statement_succ (reads : ReadsStmts depth) :
    ReadsStmt (statementWithin (depth + 1)) start := by
  intro sane inner
  rw [statementWithin]
  refine gives_peek_bind fun token => ?_
  -- only a declaration adds to the scope
  have plain {step : Parser StmtId}
      (inside : Reads start.scopes.locals start.returnType step start fun program id =>
        program.Runnable start.returnType start.scopes.locals id ∧ program.declaredBy [id] = ∅) := inside.stmt sane inner
  split_ifs
  · exact plain (reads.block _ _ start)
  · refine plain (Reads.bind advance_reads fun _ after _ _ => makeSimple_reads rfl rfl rfl rfl ?_ ?_)
    · exact fun expr found => absurd found List.not_mem_nil
    · exact fun value isReturn => nomatch isReturn
  · exact plain (Reads.bind advance_reads fun _ after _ _ => reads.branch _ _ after token)
  · exact plain (Reads.bind advance_reads fun _ after _ _ => reads.loop _ _ after token)
  · exact plain (Reads.bind advance_reads fun _ after _ _ => returnStatement_reads token)
  · refine gives_get_bind ?_
    split_ifs
    · exact localDeclaration_gives sane inner
    · exact plain expressionStatement_reads

theorem ReadsStmts.block_succ (reads : ReadsStmts depth) :
    Reads scope expected (blockWithin (depth + 1)) start fun program id =>
      program.Runnable expected scope id ∧ program.declaredBy [id] = ∅ := by
  rw [blockWithin]
  refine Reads.bind (expect_reads _) fun brace first _ _ => ?_
  have inside : Reads scope expected (inScope (statementsWithin depth)) first fun program result =>
      program.RunnableRow expected scope result.1 := by
    refine inScope_reads fun pushed sane _ inner inScope returns => ?_
    refine (reads.statements pushed sane inner).mono ?_
    rintro result after ⟨declares, row⟩
    rw [inScope, returns] at row
    exact ⟨⟨_, declares⟩, row⟩
  refine Reads.bind inside fun result last _ row => makePlain_reads rfl ?_ ?_ ?_ row ?_
  · exact fun expr found => absurd found List.not_mem_nil
  · exact fun condition found => absurd found List.not_mem_nil
  · exact fun value isReturn => nomatch isReturn
  · exact fun child found => absurd found List.not_mem_nil

theorem ReadsStmts.statements_succ (reads : ReadsStmts depth) (sane : start.Sane)
    (inner : start.scopes.blocks ≠ []) :
    Gives (statementsWithin (depth + 1)) start fun result after =>
      Declares start after (after.program.declaredBy result.1) ∧
        after.program.RunnableRow start.returnType start.scopes.locals result.1 := by
  rw [statementsWithin]
  refine gives_peek_bind fun token => ?_
  refine (eat_reads _).gives_bind sane fun isClosed first extended _ => ?_
  split_ifs
  · refine gives_pure ⟨?_, fun front child rest split => absurd split (by simp)⟩
    simpa [Program.declaredBy] using extended.declares inner
  · exact gives_throw
  · have innerFirst : first.scopes.blocks ≠ [] := by rwa [extended.scopes]
    refine Gives.bind (reads.statement first extended.sane innerFirst) ?_
    rintro stmt second ⟨declares, runnable⟩
    refine Gives.bind (reads.statements second declares.sane declares.inner) ?_
    rintro result last ⟨others, row⟩
    have size := runnable.has
    have sameDeclared : last.program.declaredBy [stmt] = second.program.declaredBy [stmt] :=
      others.grows.declaredBy (by simpa using size)
    refine gives_pure ⟨?_, .cons ?_ ?_⟩
    · rw [Program.declaredBy_cons, sameDeclared]
      simpa using ((extended.declares inner).trans declares).trans others
    · rw [← extended.scopes, ← extended.result]
      exact runnable.grows declares.sane.program others.grows
    · rw [sameDeclared, ← extended.scopes, ← extended.result, ← declares.locals, ← declares.result]
      exact row

theorem ReadsStmts.body_succ (reads : ReadsStmts depth) :
    Reads scope expected (bodyWithin (depth + 1)) start fun program id =>
      program.Runnable expected scope id ∧ program.declaredBy [id] = ∅ := by
  rw [bodyWithin]
  refine reads_nextIs_bind fun isBlock => ?_
  split_ifs
  · exact reads.block scope expected start
  · have inside : Reads scope expected (inScope (statementWithin depth)) start fun program id =>
        program.Runnable expected scope id := by
      refine inScope_reads fun pushed sane _ inner inScope returns => ?_
      refine (reads.statement pushed sane inner).mono ?_
      rintro id after ⟨declares, runnable⟩
      rw [inScope, returns] at runnable
      exact ⟨⟨_, declares⟩, runnable⟩
    refine Reads.bind inside fun stmt after _ runnable => reads_program_bind ?_
    refine makePlain_reads rfl ?_ ?_ ?_ (.cons runnable ?_) ?_
    · exact fun expr found => absurd found List.not_mem_nil
    · exact fun condition found => absurd found List.not_mem_nil
    · exact fun value isReturn => nomatch isReturn
    · exact fun front child rest split => absurd split (by simp)
    · exact fun child found => absurd found List.not_mem_nil

theorem ReadsStmts.branch_succ (reads : ReadsStmts depth) (keyword : Token) :
    Reads scope expected (ifWithin (depth + 1) keyword) start fun program id =>
      program.Runnable expected scope id ∧ program.declaredBy [id] = ∅ := by
  rw [ifWithin]
  refine Reads.bind (expect_reads _) fun _ first _ _ => ?_
  refine Reads.bind condition_reads fun condition second _ read => ?_
  refine Reads.bind (expect_reads _) fun _ third extendedThird _ => ?_
  refine Reads.bind (reads.body scope expected third) fun onTrue fourth extendedFourth runTrue => ?_
  extract_lets rest
  have ends (onFalse : Option StmtId) (now : ParserState) (extended : Extends fourth now)
      (runFalse : ∀ stmt ∈ onFalse.toList, now.program.Runnable expected scope stmt) :
      Reads scope expected (rest onFalse) now fun program id =>
        program.Runnable expected scope id ∧ program.declaredBy [id] = ∅ := by
    have front := (extendedThird.trans extendedFourth).trans extended
    refine reads_get_bind (makePlain_reads rfl ?_ ?_ ?_ ?_ ?_)
    · simpa using front.readable read.1
    · simpa [StmtKind.conditions, front.expr read.1.has] using read.2
    · exact fun value isReturn => nomatch isReturn
    · intro front child rest split
      exact absurd split (by simp [StmtKind.row])
    · simp only [StmtKind.branches, List.mem_cons, forall_eq_or_imp]
      exact ⟨runTrue.1.grows extended.started.program extended.grows, runFalse⟩
  refine Reads.bind (eat_reads "else") fun hasElse fifth extendedFifth _ => ?_
  split_ifs
  · refine reads_peek_bind fun token => Reads.bind (eat_reads "if") fun isIf sixth extendedSixth _ => ?_
    have front := extendedFifth.trans extendedSixth
    split_ifs
    · refine Reads.bind (reads.branch scope expected sixth token) fun stmt last extendedLast runs => ?_
      exact ends (some stmt) last (front.trans extendedLast) (by simpa using runs.1)
    · refine Reads.bind (reads.body scope expected sixth) fun stmt last extendedLast runs => ?_
      exact ends (some stmt) last (front.trans extendedLast) (by simpa using runs.1)
  · exact ends none fifth extendedFifth (by simp)

theorem ReadsStmts.loop_succ (reads : ReadsStmts depth) (keyword : Token) :
    Reads scope expected (forWithin (depth + 1) keyword) start fun program id =>
      program.Runnable expected scope id ∧ program.declaredBy [id] = ∅ := by
  rw [forWithin]
  refine Reads.bind (expect_reads _) fun _ first _ _ => ?_
  refine Reads.bind (optionalPart_reads ";" (expression_reads 0)) fun init second _ readInit => ?_
  refine Reads.bind (expect_reads _) fun _ third extendedThird _ => ?_
  refine Reads.bind (optionalPart_reads ";" condition_reads) fun test fourth extendedFourth readTest => ?_
  refine Reads.bind (expect_reads _) fun _ fifth extendedFifth _ => ?_
  refine Reads.bind (optionalPart_reads ")" (expression_reads 0)) fun step sixth extendedSixth readStep => ?_
  refine Reads.bind (expect_reads _) fun _ seventh extendedSeventh _ => ?_
  refine Reads.bind (reads.body scope expected seventh) fun body last extendedLast runs => ?_
  have afterStep := extendedSeventh.trans extendedLast
  have afterTest := (extendedFifth.trans extendedSixth).trans afterStep
  have afterInit := (extendedThird.trans extendedFourth).trans afterTest
  refine reads_get_bind (makePlain_reads rfl ?_ ?_ ?_ ?_ ?_)
  · simp only [StmtKind.exprs, List.mem_append]
    rintro expr ((found | found) | found)
    · exact afterInit.readable (readInit expr found)
    · exact afterTest.readable (readTest expr found).1
    · exact afterStep.readable (readStep expr found)
  · intro condition found
    obtain ⟨read, isBool⟩ := readTest condition found
    rwa [afterTest.expr read.has]
  · exact fun value isReturn => nomatch isReturn
  · intro front child rest split
    exact absurd split (by simp [StmtKind.row])
  · simpa [StmtKind.branches] using runs.1

theorem reads_stmts (depth : Nat) : ReadsStmts depth := by
  induction depth with
  | zero =>
    constructor
    · intro start sane inner
      rw [statementWithin]
      exact gives_throw
    · intro scope expected start
      rw [blockWithin]
      exact reads_throw
    · intro start sane inner
      rw [statementsWithin]
      exact gives_throw
    · intro scope expected start
      rw [bodyWithin]
      exact reads_throw
    · intro scope expected start keyword
      rw [ifWithin]
      exact reads_throw
    · intro scope expected start keyword
      rw [forWithin]
      exact reads_throw
  | succ depth reads =>
    exact ⟨fun start => reads.statement_succ, fun scope expected start => reads.block_succ,
      fun start => reads.statements_succ, fun scope expected start => reads.body_succ,
      fun scope expected start => reads.branch_succ, fun scope expected start => reads.loop_succ⟩

theorem block_reads : Reads scope expected block start fun program id => program.Runnable expected scope id :=
  reads_depthLimit_bind fun limit =>
    ((reads_stmts limit).block scope expected start).mono fun _ _ _ runs => runs.1

end Parser

end Shader
