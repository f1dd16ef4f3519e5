import Shader.Proofs.Parser.Statement

/-! # Parsed programs

What `parse` gives is a sane program: nodes are made of older nodes, expressions are typed, and the body
of a function reads only variables in scope and ends by returning a result if it has to. -/

namespace Shader

variable {program : Program}

/-! ## The top level -/

theorem Scopes.mem_globalVars_bindGlobal {scopes : Scopes} {name : String} {entry : ScopeEntry}
    {var : VarId} (found : var ∈ (scopes.bindGlobal name entry).globalVars) :
    entry.symbol = .var var ∨ var ∈ scopes.globalVars := by
  obtain ⟨key, span, bound⟩ := found
  by_cases same : key = name
  · rw [same, bindGlobal, Table.find?_insert_self] at bound
    cases bound
    exact .inl rfl
  · rw [bindGlobal, Table.find?_insert_of_ne _ _ same] at bound
    exact .inr ⟨key, span, bound⟩

/-- Every argument belongs to a function, except for some that have yet to get one. -/
def Program.Owned (program : Program) (loose : Set VarId) : Prop :=
  ∀ var, (program.var var).kind.isArgument = true →
    var ∈ loose ∨ ∃ function, var ∈ (program.function function).arguments

theorem Program.Owned.grows {before after : Program} {loose more : Set VarId} (owned : before.Owned loose)
    (functions : before.functions.Grows after.functions) (within : loose ⊆ more)
    (vars : ∀ var, (after.var var).kind.isArgument = true →
      (before.var var).kind.isArgument = true ∨ var ∈ more) : after.Owned more := by
  intro var isArgument
  rcases vars var isArgument with old | isLoose
  · refine (owned var old).imp (@within var) ?_
    rintro ⟨function, found⟩
    have has : function.index < before.functions.size := by
      refine Arena.has_of_get_ne fun missing => ?_
      rw [show before.function function = default from missing] at found
      exact absurd found List.not_mem_nil
    exact ⟨function, by rwa [Program.function, functions.get has]⟩
  · exact .inl isLoose

theorem Program.KeepsVars.owned {before after : Program} {loose : Set VarId} (keeps : before.KeepsVars after)
    (functions : before.functions.Grows after.functions) (owned : before.Owned loose) :
    after.Owned loose := by
  refine owned.grows functions subset_rfl fun var isArgument => .inl ?_
  rcases keeps var with same | ⟨-, noArgument⟩
  · rwa [← same]
  · rw [noArgument] at isArgument
    cases isArgument

namespace ParserState

variable {start middle after : ParserState} {loose : Set VarId}

/-- Between two declarations the program is sane, and no block or function is open. Some arguments may be
left over from a header without its function. -/
structure AtTop (state : ParserState) (loose : Set VarId) : Prop where
  sane : state.Sane
  closed : state.scopes.blocks = []
  outside : state.returnType = none
  declares : state.program.DeclaresOnce
  owned : state.program.Owned loose

theorem AtTop.locals (top : start.AtTop loose) : start.scopes.locals = ∅ := by
  simp [Scopes.locals, top.closed]

theorem Extends.atTop (extended : Extends start after) (top : start.AtTop loose) : after.AtTop loose :=
  ⟨extended.sane, by rw [extended.scopes, top.closed], extended.result.trans top.outside,
    top.declares.grows extended.grows extended.declarations,
    extended.vars.owned extended.grows.functions top.owned⟩

theorem AtTop.setProgram {program : Program} {more : Set VarId} (top : start.AtTop loose)
    (sane : program.Sane) (grows : start.program.Grows program)
    (declarations : program.declarations = start.program.declarations) (within : loose ⊆ more)
    (vars : ∀ var, (program.var var).kind.isArgument = true →
      (start.program.var var).kind.isArgument = true ∨ var ∈ more) :
    AtTop { start with program } more where
  sane := top.sane.grows sane grows rfl
  closed := top.closed
  outside := top.outside
  declares := top.declares.grows grows declarations
  owned := top.owned.grows grows.functions within vars

theorem Sane.inFunction (sane : start.Sane) (type : Option TypeId) :
    Sane { start with returnType := type } :=
  ⟨sane.program, sane.known, sane.globals⟩

end ParserState

/-- Two functions have the same arguments, result, stage, attributes and body. -/
structure Function.Agrees (function other : Function) : Prop where
  arguments : other.arguments = function.arguments
  returnType : other.returnType = function.returnType
  kind : other.kind = function.kind
  attributes : other.attributes = function.attributes
  body : other.body = function.body

namespace Function

variable {program : Program} {function bound last : Function} {argument : VarId}

theorem Agrees.refl : function.Agrees function := ⟨rfl, rfl, rfl, rfl, rfl⟩

theorem Agrees.trans (first : function.Agrees bound) (second : bound.Agrees last) : function.Agrees last :=
  ⟨second.arguments.trans first.arguments, second.returnType.trans first.returnType,
    second.kind.trans first.kind, second.attributes.trans first.attributes,
    second.body.trans first.body⟩

theorem bindStageIn_eq_ok (accepted : bindStageIn program function argument = .ok bound) :
    program.isStruct (program.var argument).type = true ∧ function.stageIn = none ∧
      bound = { function with stageIn := some argument } := by
  unfold bindStageIn at accepted
  dsimp only at accepted
  split at accepted
  · cases accepted
  · rename_i isStruct
    split at accepted
    · cases accepted
    · rename_i free
      cases accepted
      exact ⟨by simpa using isStruct, free, rfl⟩

theorem bindBuffer_eq_ok (accepted : bindBuffer program function argument = .ok bound) :
    program.IsBuffer (program.var argument) ∧ ∃ place index vulkanSpan metalSpan,
      (program.var argument).vkUniform? = some place ∧ (program.var argument).metalIndex? = some index ∧
      function.vkBindings.find? place = none ∧ function.mtlBuffers.find? index = none ∧
      bound = { function with
        mtlBuffers := function.mtlBuffers.insertOrdered metalSmaller index ⟨argument, metalSpan⟩
        vkBindings := function.vkBindings.insertOrdered vulkanSmaller place ⟨argument, vulkanSpan⟩ } := by
  unfold bindBuffer at accepted
  dsimp only at accepted
  split at accepted
  · cases accepted
  · rename_i isPointer
    cases found : bufferBindings {} (program.var argument).attributes with
    | error diagnostic =>
      rw [found] at accepted
      cases accepted
    | ok bindings =>
      rw [found] at accepted
      simp only [bind, Except.bind] at accepted
      obtain ⟨only, oneVulkan, oneMetal, firstVulkan, firstMetal⟩ := bufferBindings_spec found
      split at accepted
      · cases accepted
      · cases accepted
      · rename_i place vulkanSpan index metalSpan isVulkan isMetal
        split at accepted
        · cases accepted
        · rename_i freeMetal
          split at accepted
          · cases accepted
          · rename_i freeVulkan
            cases accepted
            rw [isVulkan] at oneVulkan firstVulkan
            rw [isMetal] at oneMetal firstMetal
            refine ⟨⟨by simpa using isPointer, by simpa using oneVulkan, by simpa using oneMetal, only⟩,
              place, index, vulkanSpan, metalSpan, ?_, ?_, freeVulkan, freeMetal, rfl⟩
            · simpa [Variable.vkUniform?] using firstVulkan.symm
            · simpa [Variable.metalIndex?] using firstMetal.symm

end Function

namespace Parser

variable {starred : StarredType} {before after program : Program} {argument : VarId}
  {function header : Function}

open ParserState (Extends Declares AtTop)

variable {α β : Type} {scope loose : Set VarId} {expected : Option TypeId} {start : ParserState}

theorem declareGlobal_gives {name : String} {symbol : Symbol} {span : Span} (top : start.AtTop loose)
    (knows : start.program.Knows symbol)
    (isGlobal : ∀ var, symbol = .var var → (start.program.var var).kind = .global) :
    Gives (declareGlobal name symbol span) start fun _ after =>
      after.AtTop loose ∧ after.program = start.program := by
  refine gives_get_bind ?_
  split
  · exact gives_throw
  · refine gives_modify ⟨⟨⟨top.sane.program, ?_, ?_⟩, top.closed, top.outside, top.declares, top.owned⟩, rfl⟩
    · intro other bound
      rcases Scopes.binds_bindGlobal bound with rfl | old
      · exact knows
      · exact top.sane.known other old
    · intro var found
      rcases Scopes.mem_globalVars_bindGlobal found with isNew | old
      · exact isGlobal var isNew
      · exact top.sane.globals var old

/-! ## Global variables -/

theorem declareGlobals_gives {type : TypeId} {init : Option ExprId} {names : List Token}
    (top : start.AtTop loose) (plain : start.program.NoPointer type)
    (typed : start.program.HasInit type init) :
    Gives (declareVariables type .global init names) start fun vars after =>
      after.AtTop loose ∧ start.program.Grows after.program ∧ ∀ var ∈ vars,
        var.index < after.program.vars.size ∧ (after.program.var var).init = init := by
  induction names generalizing start with
  | nil =>
    rw [declareVariables]
    exact gives_pure ⟨top, .refl, fun var found => absurd found List.not_mem_nil⟩
  | cons name rest ih =>
    rw [declareVariables]
    refine (makeVariable_reads ⟨plain.known, typed, fun _ => ⟨rfl, plain.noPointer⟩⟩ rfl).gives_bind
      top.sane fun var added extended made => ?_
    obtain ⟨program, rfl⟩ := made
    obtain ⟨isNew, has⟩ := var_of_added program
    rw [if_pos rfl]
    refine Gives.bind (declareGlobal_gives (extended.atTop top) has ?_) ?_
    · rintro var ⟨⟩
      rw [isNew]
    · rintro - named ⟨topNamed, same⟩
      have growsNamed : start.program.Grows named.program := same ▸ extended.grows
      refine Gives.bind (ih topNamed (plain.grows growsNamed) (typed.grows growsNamed)) ?_
      rintro vars after ⟨topAfter, grows, each⟩
      refine gives_pure ⟨topAfter, growsNamed.trans grows, ?_⟩
      intro other found
      rcases List.mem_cons.1 found with rfl | inRest
      · have hasNamed : start.program.vars.next.index < named.program.vars.size := same ▸ has
        refine ⟨hasNamed.trans_le grows.vars, ?_⟩
        rw [(grows.var _ hasNamed).2.2, same, isNew]
      · exact each other inRest

theorem globalDeclaration_gives {first : Token} (top : start.AtTop loose)
    (plain : start.program.NoPointer starred.base) :
    Gives (variableDeclaration starred first .global) start fun _ after => after.AtTop loose := by
  refine variableDeclaration_gives top.sane plain
    fun type names init span now extended read isPlain typed => ?_
  refine Gives.bind (declareGlobals_gives (extended.atTop top) isPlain typed) ?_
  rintro vars named ⟨topNamed, grows, each⟩
  refine gives_get_bind (gives_modify_bind (gives_pure (Extends.atTop ?_ topNamed)))
  have added : Program.Sane
      { named.program with stmts := named.program.stmts.append ⟨.varDecl vars init, span⟩ } := by
    refine topNamed.sane.program.addStmt ?_ ?_ ?_ ⟨?_, ?_⟩
    · exact fun child found => absurd found List.not_mem_nil
    · exact fun child found => absurd found List.not_mem_nil
    · exact fun expr found => (read expr found).has.trans_le grows.exprs.size
    · exact fun condition found => absurd found List.not_mem_nil
    · rintro _ _ ⟨⟩
      exact each
  exact topNamed.sane.extends added (Program.grows_addStmt _) rfl rfl rfl .refl

/-! ## Structs -/

/-- Members have types that are there, initial values of these types and attributes with a use. -/
def MembersFit (program : Program) (members : List Member) : Prop :=
  ∀ member ∈ members, member.type.index < program.types.size ∧
    program.HasInit member.type member.init ∧ ∀ attr ∈ member.attributes, attr.used = true

theorem MembersFit.grows {members : List Member}
    (fit : MembersFit before members) (grows : before.Grows after) : MembersFit after members :=
  fun member found => (fit member found).imp (fun known => known.trans_le grows.types.size)
    fun both => both.imp_left fun typed => typed.grows grows

theorem member_reads {found : StructSoFar} (fit : MembersFit start.program found.members) :
    Reads scope expected (member found) start fun program found => MembersFit program found.members := by
  refine Reads.bind typeName_reads fun starred first extendedFirst plain => ?_
  refine Reads.bind expectIdentifier_reads fun name second extendedSecond _ => ?_
  extract_lets rest
  have reads (init : Option ExprId) (now : ParserState) (extended : Extends second now)
      (has : ∀ id ∈ init.toList, id.index < now.program.exprs.size) :
      Reads scope expected (rest init) now fun program found => MembersFit program found.members := by
    refine Reads.bind attributes_reads fun found third extendedThird _ => ?_
    have front := (extendedSecond.trans extended).trans extendedThird
    refine Reads.bind (finishType_reads found (plain.grows front.grows))
      fun type fourth extendedFourth isType => ?_
    refine Reads.bind (expect_reads ";") fun _ fifth extendedFifth _ => reads_program_bind ?_
    have behind := (extendedThird.trans extendedFourth).trans extendedFifth
    extract_lets ends unique
    -- the checks behind the initial value look only at names and attributes
    have readsEnds (typed : fifth.program.HasInit type init) :
        Reads scope expected (ends ()) fifth fun program found => MembersFit program found.members := by
      refine reads_get_bind (reads_accept_bind fun marked _ => ?_)
      refine reads_accept_bind fun _ used => reads_pure fun member inMembers => ?_
      rcases List.mem_append.1 inMembers with old | isNew
      · exact fit.grows (extendedFirst.trans (extendedSecond.trans (extended.trans behind))).grows member old
      · rw [List.mem_singleton.1 isNew]
        exact ⟨isType.1.trans_le extendedFifth.grows.types.size, typed, checkUsed_eq_ok used⟩
    have readsUnique (typed : fifth.program.HasInit type init) : Reads scope expected (unique ()) fifth
          fun program found => MembersFit program found.members := by
      unfold unique
      split
      · exact reads_throw_bind
      · exact readsEnds typed
    split
    · rename_i init
      refine reads_accept_bind fun _ checked => readsUnique ?_
      have hasInit := (has init (by simp)).trans_le behind.grows.exprs.size
      simpa [Program.HasInit] using And.intro hasInit (Program.type_of_checkInit checked)
    · rename_i noInit
      exact readsUnique fun id found => (noInit id (Option.mem_toList.1 found)).elim
  refine Reads.bind (eat_reads "=") fun hasInit third extendedThird _ => ?_
  split_ifs
  · refine Reads.bind (expression_reads 0) fun init last extendedLast read => ?_
    exact reads (some init) last (extendedThird.trans extendedLast) (by simpa using read.has)
  · exact reads none third extendedThird (by simp)

theorem structDeclaration_gives {keyword : Token} (top : start.AtTop loose) :
    Gives (structDeclaration keyword) start fun _ after => after.AtTop loose := by
  refine expectIdentifier_reads.gives_bind top.sane fun name first extendedFirst _ => ?_
  refine (expect_reads _).gives_bind extendedFirst.sane fun _ second extendedSecond _ => ?_
  have members : Reads second.scopes.locals second.returnType
      (repeatFrom {} memberRound) second fun program result => MembersFit program result.1 := by
    refine reads_repeatFrom (fun program found => MembersFit program found.members)
      (fun member found => absurd found List.not_mem_nil) fun found now _ fit => ?_
    refine reads_peek_bind fun token => Reads.bind (eat_reads _) fun isClosed after extended _ => ?_
    split_ifs
    · exact reads_pure (fit.grows extended.grows)
    · exact Reads.bind (member_reads (fit.grows extended.grows)) fun found last _ fitLast =>
        reads_pure fitLast
  refine members.gives_bind extendedSecond.sane fun result third extendedThird fit => ?_
  have front := (extendedFirst.trans extendedSecond).trans extendedThird
  have topThird := front.atTop top
  have typed : Reads third.scopes.locals third.returnType (makeType
      ⟨name.text, .struct result.1 none, some (keyword.span.cover result.2)⟩) third
      fun program type => program.NoPointer type := by
    intro sane _ _
    refine gives_get_bind (gives_modify_bind (gives_pure ⟨?_, by simp [Arena.next], ?_⟩))
    · refine sane.extends (sane.program.addType ⟨?_, ?_, ?_, ?_⟩ ?_) (Program.grows_addType _ _) rfl rfl rfl
        .refl
      · rintro _ _ ⟨⟩
        exact fun member found => ⟨(fit member found).1, (fit member found).2.1⟩
      · rintro _ _ ⟨⟩
        exact fun member found => (fit member found).2.2
      · rintro _ _ ⟨⟩
      · rintro _ _ ⟨⟩
      · exact sane.program.pointers.addStruct (by rintro _ _ ⟨⟩)
    · rw [Program.isPointer, third.program.type_addType _ third.program.pointerTypes, if_pos rfl]
  refine typed.gives_bind topThird.sane fun type last extendedLast known => ?_
  refine Gives.bind (declareGlobal_gives (extendedLast.atTop topThird) known ?_) ?_
  · rintro _ ⟨⟩
  · rintro - after ⟨topAfter, -⟩
    exact gives_pure topAfter

/-! ## Functions -/

/-- An argument was just read: its attributes have no use yet, and without them it is no pointer. -/
structure FreshArgument (program : Program) (argument : VarId) : Prop where
  isArgument : (program.var argument).kind.isArgument = true
  unused : ∀ attr ∈ (program.var argument).attributes, attr.used = false
  noPointer : (program.var argument).attributes = [] → program.NoPointer (program.var argument).type

theorem FreshArgument.has (fresh : FreshArgument program argument) : argument.index < program.vars.size := by
  refine Arena.has_of_get_ne fun missing => ?_
  have isArgument := fresh.isArgument
  rw [show program.var argument = default from missing] at isArgument
  cases isArgument

theorem FreshArgument.grows (fresh : FreshArgument before argument) (grows : before.Grows after)
    (same : after.var argument = before.var argument) : FreshArgument after argument := by
  constructor <;> rw [same]
  · exact fresh.isArgument
  · exact fresh.unused
  · exact fun none => (fresh.noPointer none).grows grows

theorem argumentDeclaration_gives (position : Nat) (top : start.AtTop loose) :
    Gives (argumentDeclaration position) start fun argument after =>
      after.AtTop (insert argument loose) ∧ start.program.Grows after.program ∧
        (∀ other : VarId, other.index < start.program.vars.size →
          other ≠ argument ∧ after.program.var other = start.program.var other) ∧
        FreshArgument after.program argument := by
  refine gives_peek_bind fun token => ?_
  refine typeName_reads.gives_bind top.sane fun starred first extendedFirst plain => ?_
  refine expectIdentifier_reads.gives_bind extendedFirst.sane fun name second extendedSecond _ => ?_
  refine attributes_reads.gives_bind extendedSecond.sane fun found third extendedThird unused => ?_
  refine (finishType_reads found (plain.grows (extendedSecond.trans extendedThird).grows)).gives_bind
    extendedThird.sane fun type fourth extendedFourth isType => ?_
  dsimp only
  split_ifs
  · exact gives_throw_bind
  · have front := (extendedFirst.trans extendedSecond).trans (extendedThird.trans extendedFourth)
    have topFourth := front.atTop top
    generalize (⟨token.span.start, _⟩ : Span) = span
    let var : Variable := { name := name.text, type, kind := .argument position, attributes := found, span }
    refine gives_get_bind (gives_modify_bind (gives_pure ?_))
    have fits : fourth.program.VarFits var :=
      ⟨isType.1, by simp [Program.HasInit, var], fun isPlain => nomatch isPlain⟩
    have grows := fourth.program.grows_addVariable var
    obtain ⟨isNew, has⟩ := @var_of_added fourth _ var rfl
    have old (other : VarId) (known : other ≠ fourth.program.vars.next) :
        (fourth.program.addVariable var).var other = fourth.program.var other := by
      rw [Program.addVariable, Program.var, Program.var, Arena.get, Arena.get, Arena.get?_append, if_neg known]
    refine ⟨topFourth.setProgram (topFourth.sane.program.addVariable fits) grows rfl
      (Set.subset_insert _ _) fun other isArgument => ?_, front.grows.trans grows, fun other known => ?_, ?_⟩
    · by_cases isLast : other = fourth.program.vars.next
      · exact .inr (.inl isLast)
      · rw [old other isLast] at isArgument
        exact .inl isArgument
    · have differs : other ≠ fourth.program.vars.next := by
        rintro rfl
        exact absurd known (front.grows.vars.not_gt)
      exact ⟨differs, (old other differs).trans (front.vars.var known)⟩
    · constructor <;> rw [isNew]
      · rfl
      · exact unused
      · exact fun none => (isType.2 none).grows grows

theorem argumentDeclarations_gives (top : start.AtTop ∅) :
    Gives argumentDeclarations start fun arguments after =>
      after.AtTop {var | var ∈ arguments} ∧ start.program.Grows after.program ∧ arguments.Nodup ∧
        ∀ argument ∈ arguments, FreshArgument after.program argument := by
  refine gives_repeatFrom (fun found now => now.AtTop {var | var ∈ found} ∧
    start.program.Grows now.program ∧ found.Nodup ∧ ∀ argument ∈ found, FreshArgument now.program argument)
    ⟨by simpa using top, .refl, List.nodup_nil, by simp⟩ ?_
  rintro found now ⟨topNow, grows, nodup, fresh⟩
  refine gives_peek_bind fun token => ?_
  split
  · refine advance_reads.gives_bind topNow.sane fun _ after extended _ => gives_pure ?_
    exact ⟨extended.atTop topNow, grows.trans extended.grows, nodup, fun argument inFound =>
      (fresh argument inFound).grows extended.grows (extended.vars.var (fresh argument inFound).has)⟩
  · extract_lets rest
    have reads (last : ParserState) (extended : Extends now last) :
        Gives (rest ()) last fun result after => result.elim
          (fun found => after.AtTop {var | var ∈ found} ∧ start.program.Grows after.program ∧
            found.Nodup ∧ ∀ argument ∈ found, FreshArgument after.program argument)
          fun arguments => after.AtTop {var | var ∈ arguments} ∧ start.program.Grows after.program ∧
            arguments.Nodup ∧ ∀ argument ∈ arguments, FreshArgument after.program argument := by
      refine Gives.bind (argumentDeclaration_gives _ (extended.atTop topNow)) ?_
      rintro argument after ⟨topAfter, growsAfter, others, isFresh⟩
      have has (other : VarId) (inFound : other ∈ found) : other.index < last.program.vars.size :=
        (fresh other inFound).has.trans_le extended.grows.vars
      refine gives_pure ⟨?_, (grows.trans extended.grows).trans growsAfter, ?_, fun other inFound => ?_⟩
      · convert topAfter using 1
        ext other
        simp [or_comm]
      · refine List.nodup_append.2 ⟨nodup, List.nodup_singleton _, fun other inFound last isLast => ?_⟩
        rw [List.mem_singleton.1 isLast]
        exact (others other (has other inFound)).1
      · rcases List.mem_append.1 inFound with old | isNew
        · refine (fresh other old).grows (extended.grows.trans growsAfter) ?_
          rw [(others other (has other old)).2, extended.vars.var (fresh other old).has]
        · rw [List.mem_singleton.1 isNew]
          exact isFresh
    split_ifs
    · exact reads now (.refl topNow.sane)
    · refine (eat_reads ",").gives_bind topNow.sane fun isComma last extended _ => ?_
      split_ifs
      · exact reads last extended
      · exact gives_throw_bind

theorem markArgument_gives (role : ArgumentRole) (top : start.AtTop loose)
    (has : argument.index < start.program.vars.size) :
    Gives (markArgument argument role) start fun _ after =>
      after.AtTop loose ∧ start.program.Grows after.program ∧ after.program.types = start.program.types ∧
        (∀ other ≠ argument, after.program.var other = start.program.var other) ∧
        after.program.var argument = { start.program.var argument with
          attributes := markUsed (start.program.var argument).attributes role.uses } := by
  let mark (var : Variable) : Variable := { var with attributes := markUsed var.attributes role.uses }
  let marked : Program := { start.program with vars := start.program.vars.modify argument mark }
  have others (other : VarId) (differs : other ≠ argument) : marked.var other = start.program.var other := by
    simp only [marked, Program.var, Arena.get, Arena.get?_modify, if_neg differs]
  have itself : marked.var argument = mark (start.program.var argument) := by
    have found := Array.getElem?_eq_getElem has
    have isThere : start.program.vars.get? argument = some start.program.vars.items[argument.index] := found
    simp only [marked, Program.var, Arena.get, Arena.get?_modify, if_pos, isThere]
    rfl
  have each (var : VarId) : (marked.var var).kind = (start.program.var var).kind ∧
      (marked.var var).type = (start.program.var var).type ∧
      (marked.var var).init = (start.program.var var).init ∧
      (start.program.var var).Marks (marked.var var) := by
    by_cases isIt : var = argument
    · rw [isIt, itself]
      exact ⟨rfl, rfl, rfl, Variable.marks_markUsed _⟩
    · rw [others var isIt]
      exact ⟨rfl, rfl, rfl, .refl⟩
  have grows : start.program.Grows marked := ⟨.refl, .refl, .refl, .refl, by simp [marked],
      fun var _ => ⟨(each var).1, (each var).2.1, (each var).2.2.1⟩, fun var _ => (each var).2.2.2⟩
  refine gives_modify ⟨top.setProgram ?_ grows rfl subset_rfl ?_, grows, rfl, others, itself⟩
  · exact top.sane.program.of_same_nodes grows rfl rfl rfl rfl (by simp) rfl
  · intro var isArgument
    exact .inl ((each var).1 ▸ isArgument)

theorem bindArgument_gives {done : List VarId}
    (top : start.AtTop loose) (isEntry : function.isEntryPoint = true)
    (fresh : FreshArgument start.program argument) (binds : start.program.Binds function done) :
    Gives (bindArgument function argument) start fun bound after =>
      after.AtTop loose ∧ start.program.Grows after.program ∧
        (∀ other ≠ argument, after.program.var other = start.program.var other) ∧
        function.Agrees bound ∧ ((∀ attr ∈ (after.program.var argument).attributes, attr.used = true) →
          after.program.Binds bound (done ++ [argument])) := by
  refine gives_get_bind ?_
  split
  · exact gives_throw
  · rename_i role isRole
    refine gives_accept_bind fun bound accepted => ?_
    refine Gives.bind (markArgument_gives role top fresh.has) ?_
    rintro - after ⟨topAfter, grows, types, others, itself⟩
    have marks : (start.program.var argument).Marks (after.program.var argument) :=
      grows.marks argument fresh.has
    have isType : (after.program.var argument).type = (start.program.var argument).type :=
      (grows.var argument fresh.has).2.1
    have sameType (type : TypeId) : after.program.type type = start.program.type type := by
      rw [Program.type, Program.type, types]
    have kept : after.program.Binds function done := binds.keep fun other found => by
      by_cases isIt : other = argument
      · rw [isIt]
        exact ⟨marks, isType, sameType _⟩
      · rw [others other isIt]
        exact ⟨.refl, rfl, sameType _⟩
    cases role with
    | stageIn =>
      obtain ⟨isStruct, free, rfl⟩ := Function.bindStageIn_eq_ok accepted
      refine gives_pure ⟨topAfter, grows, others, ⟨rfl, rfl, rfl, rfl, rfl⟩, fun used => ?_⟩
      refine kept.stageInput used isEntry free ⟨?_, fun none => ?_, ?_⟩
      · rwa [Program.isStruct, isType, sameType]
      · have unmarked := marks.eq_nil_iff.1 none
        simp [roleOf, unmarked] at isRole
      · refine (marks.forall_iff (· = .stageIn)).2 fun attr found => ?_
        -- an attribute that was not used before has its use from the role
        rw [itself] at used
        have isUsed := used _ (List.mem_map_of_mem found)
        split_ifs at isUsed with isStageIn
        · exact eq_of_beq isStageIn
        · rw [fresh.unused attr found] at isUsed
          cases isUsed
    | buffer =>
      obtain ⟨⟨isPointer, oneVulkan, oneMetal, only⟩, place, index, vulkanSpan, metalSpan, isPlace, isIndex,
        freeVulkan, freeMetal, rfl⟩ := Function.bindBuffer_eq_ok accepted
      refine gives_pure ⟨topAfter, grows, others, ⟨rfl, rfl, rfl, rfl, rfl⟩, fun used => ?_⟩
      refine kept.buffer used isEntry ⟨?_, ?_, ?_, ?_⟩ ?_ ?_ freeVulkan freeMetal
      · rwa [Program.isPointer, isType, sameType]
      · exact (marks.countP_eq fun kind => kind.vkUniform?.isSome).trans oneVulkan
      · exact (marks.countP_eq fun kind => kind.metalIndex?.isSome).trans oneMetal
      · exact (marks.forall_iff (·.isBuffer = true)).2 only
      · exact (marks.findSome?_eq AttributeKind.vkUniform?).trans isPlace
      · exact (marks.findSome?_eq AttributeKind.metalIndex?).trans isIndex

theorem bindArguments_gives {done rest : List VarId} (top : start.AtTop loose)
    (nodup : rest.Nodup) (fresh : ∀ argument ∈ rest, FreshArgument start.program argument)
    (binds : start.program.Binds function done) :
    Gives (bindArguments function rest) start fun bound after =>
      after.AtTop loose ∧ start.program.Grows after.program ∧ function.Agrees bound ∧
        after.program.Binds bound (done ++ rest) := by
  induction rest generalizing start function done with
  | nil => exact gives_pure ⟨top, .refl, .refl, by simpa using binds⟩
  | cons argument rest ih =>
    rw [bindArguments]
    have isFresh := fresh argument List.mem_cons_self
    have ends (bound : Function) (now : ParserState) (topNow : now.AtTop loose)
        (grows : start.program.Grows now.program)
        (others : ∀ other ≠ argument, now.program.var other = start.program.var other)
        (agrees : function.Agrees bound)
        (bindsNow : (∀ attr ∈ (now.program.var argument).attributes, attr.used = true) →
          now.program.Binds bound (done ++ [argument])) :
        Gives (do
          accept (checkUsed ((← program).var argument).attributes)
          bindArguments bound rest) now fun bound after => after.AtTop loose ∧
            start.program.Grows after.program ∧ function.Agrees bound ∧
            after.program.Binds bound (done ++ argument :: rest) := by
      refine gives_get_bind (gives_accept_bind fun _ used => ?_)
      have freshRest (other : VarId) (found : other ∈ rest) : FreshArgument now.program other := by
        refine (fresh other (List.mem_cons_of_mem _ found)).grows grows (others other ?_)
        rintro rfl
        exact (List.nodup_cons.1 nodup).1 found
      refine (ih topNow (List.nodup_cons.1 nodup).2 freshRest (bindsNow (checkUsed_eq_ok used))).mono ?_
      rintro last after ⟨topAfter, growsAfter, agreesLast, bindsLast⟩
      exact ⟨topAfter, grows.trans growsAfter, agrees.trans agreesLast, by simpa using bindsLast⟩
    split_ifs with isEntry
    · refine Gives.bind (bindArgument_gives top isEntry isFresh binds) ?_
      rintro bound now ⟨topNow, grows, others, agrees, bindsNow⟩
      exact ends bound now topNow grows others agrees bindsNow
    · refine ends function start top .refl (fun _ _ => rfl) .refl fun used => ?_
      have none : (start.program.var argument).attributes = [] := by
        refine List.eq_nil_iff_forall_not_mem.2 fun attr found => ?_
        have isUsed := used attr found
        rw [isFresh.unused attr found] at isUsed
        cases isUsed
      exact binds.plain (by simpa using isEntry) ⟨none, (isFresh.noPointer none).noPointer⟩

/-- What the header of a function says is there, its arguments have their roles, and it has no body. -/
structure HeaderFits (program : Program) (header : Function) : Prop where
  noBody : header.body = none
  result : header.returnType.index < program.types.size
  own : ∀ argument ∈ header.arguments, (program.var argument).kind.isArgument = true
  used : ∀ attr ∈ header.attributes, attr.used = true
  binds : program.Binds header header.arguments

theorem HeaderFits.grows
    (fits : HeaderFits before header) (sane : before.Sane) (grows : before.Grows after) :
    HeaderFits after header where
  noBody := fits.noBody
  result := fits.result.trans_le grows.types.size
  own argument found := grows.isArgument (fits.own argument found)
  used := fits.used
  binds := fits.binds.keep fun argument found => by
    have has := Program.has_of_isArgument (fits.own argument found)
    exact ⟨grows.marks argument has, (grows.var argument has).2.1, grows.type (sane.vars argument has).known⟩

theorem HeaderFits.functionFits {body : Option StmtId} {span : Span}
    (fits : HeaderFits program header)
    (hasBody : ∀ id, body = some id → program.HasBody { header with body, span } id) :
    program.FunctionFits { header with body, span } where
  result := fits.result
  arguments argument found := Program.has_of_isArgument (fits.own argument found)
  body := hasBody
  used := fits.used
  binds := ⟨fits.binds.input, fits.binds.role, fits.binds.bare, fits.binds.vulkan, fits.binds.metal,
    fits.binds.used⟩

theorem functionHeader_gives (functionAttributes : List Attribute)
    (start' : Nat) (name : Token) (top : start.AtTop ∅) (plain : start.program.NoPointer starred.base) :
    Gives (functionHeader starred functionAttributes start' name) start fun header after =>
      after.AtTop {var | var ∈ header.arguments} ∧ HeaderFits after.program header := by
  refine advance_reads.gives_bind top.sane fun _ first extendedFirst _ => ?_
  refine Gives.bind (argumentDeclarations_gives (extendedFirst.atTop top)) ?_
  rintro arguments second ⟨topSecond, growsSecond, nodup, fresh⟩
  refine attributes_reads.gives_bind topSecond.sane fun found third extendedThird _ => ?_
  have front := (extendedFirst.grows.trans growsSecond).trans extendedThird.grows
  refine (finishType_reads found (plain.grows front)).gives_bind extendedThird.sane
    fun type fourth extendedFourth isType => ?_
  refine gives_accept_bind fun _ _ => gives_accept_bind fun kind _ => ?_
  refine gives_get_bind (gives_get_bind (gives_accept_bind fun _ _ => ?_))
  have behind := extendedThird.trans extendedFourth
  have freshFourth (argument : VarId) (inside : argument ∈ arguments) :
      FreshArgument fourth.program argument :=
    (fresh argument inside).grows behind.grows (behind.vars.var (fresh argument inside).has)
  refine Gives.bind (bindArguments_gives (behind.atTop topSecond) nodup freshFourth
    (Program.binds_nil rfl rfl rfl)) ?_
  rintro bound last ⟨topLast, growsLast, agrees, binds⟩
  refine gives_accept_bind fun _ used => ?_
  have isArguments : bound.arguments = arguments := agrees.arguments
  refine gives_pure ⟨by rw [isArguments]; exact topLast, agrees.body, ?_, ?_, ?_, ?_⟩
  · rw [agrees.returnType]
    exact isType.1.trans_le growsLast.types.size
  · rw [isArguments]
    exact fun argument inside => growsLast.isArgument (freshFourth argument inside).isArgument
  · rw [agrees.attributes]
    exact checkUsed_eq_ok used
  · rw [isArguments]
    exact binds

theorem declareArguments_gives {arguments : List VarId} (sane : start.Sane)
    (inner : start.scopes.blocks ≠ [])
    (has : ∀ argument ∈ arguments, argument.index < start.program.vars.size) :
    Gives (declareArguments arguments) start fun _ after =>
      after.program = start.program ∧ Declares start after {var | var ∈ arguments} := by
  induction arguments generalizing start with
  | nil =>
    refine gives_pure ⟨rfl, ?_⟩
    simpa using (Extends.refl sane).declares inner
  | cons argument rest ih =>
    rw [declareArguments]
    refine gives_get_bind ?_
    refine Gives.bind (declareLocal_gives sane inner (has argument List.mem_cons_self)) ?_
    rintro - named ⟨same, declares⟩
    have hasRest (other : VarId) (found : other ∈ rest) : other.index < named.program.vars.size := by
      rw [same]
      exact has other (List.mem_cons_of_mem _ found)
    refine (ih declares.sane declares.inner hasRest).mono ?_
    rintro - after ⟨sameAfter, others⟩
    refine ⟨sameAfter.trans same, ?_⟩
    have whole := declares.trans others
    simpa [Set.insert_def, Set.union_def] using whole

theorem functionBody_reads
    (has : ∀ argument ∈ function.arguments, argument.index < start.program.vars.size) :
    Reads ∅ none (functionBody function) start fun program body =>
      program.Runnable (some function.returnType) {var | var ∈ function.arguments} body := by
  unfold functionBody
  refine inScope_reads fun pushed sane same inner outside noFunction => ?_
  refine Gives.bind (declareArguments_gives sane inner (by rwa [same])) ?_
  rintro - named ⟨-, declares⟩
  have locals : named.scopes.locals = {var | var ∈ function.arguments} := by
    rw [declares.locals, outside, Set.empty_union]
  -- only the type of the result is noted around the body
  refine gives_modify_bind ?_
  have inside := declares.sane.inFunction (some function.returnType)
  refine Gives.bind (block_reads inside locals rfl) ?_
  rintro body read ⟨extended, runnable⟩
  refine gives_modify_bind (gives_pure ⟨⟨{var | var ∈ function.arguments}, ?_⟩, runnable⟩)
  have scopes : read.scopes = named.scopes := extended.scopes
  exact {
    started := sane
    sane := extended.sane.inFunction none
    grows := declares.grows.trans extended.grows
    globals := by rw [scopes, declares.globals]
    outer := by rw [scopes, declares.outer]
    inner := by rw [scopes]; exact declares.inner
    locals := by rw [scopes, declares.locals]
    result := noFunction.symm
    declarations := extended.declarations.trans declares.declarations
    vars := declares.vars.trans extended.vars declares.grows.vars }

theorem leaves_of_checkReturns {body : StmtId}
    (checked : checkReturns program function body = .ok ()) :
    function.returnType = .void ∨ program.Leaves body := by
  unfold checkReturns at checked
  dsimp only at checked
  split_ifs at checked with returns
  simp only [Bool.or_eq_true, beq_iff_eq] at returns
  refine returns.imp_right fun isReturn => ?_
  have isReturn_of {kind : StmtKind} {value : Option ExprId} (same : kind = .returnStmt value) :
      kind.isReturn = true := by
    rw [same]
    rfl
  unfold Program.Leaves
  split at isReturn
  · rename_i value last
    obtain ⟨stmt, isLast, isKind⟩ := Option.map_eq_some_iff.1 last
    split at isLast
    · rename_i stmts isBlock
      obtain ⟨front, split⟩ := List.getLast?_eq_some_iff.1 isLast
      refine .inr ⟨front, stmt, ?_, isReturn_of isKind⟩
      rw [isBlock]
      exact split
    · cases isLast
      exact .inl (isReturn_of isKind)
  · cases isReturn

theorem functionDefinition_reads {position : Nat} {token : Token}
    (fits : HeaderFits start.program header) :
    Reads ∅ none (functionDefinition header position token) start fun program function =>
      program.FunctionFits function ∧ function.arguments = header.arguments := by
  refine reads_intro fun sane _ => reads_nextIs_bind fun isBody => ?_
  split_ifs
  · refine Reads.bind (functionBody_reads fun argument found => ?_) fun body after extended runnable => ?_
    · exact Program.has_of_isArgument (fits.own argument found)
    · refine reads_program_bind (reads_accept_bind fun _ checked => reads_pure ?_)
      have fitsAfter := fits.grows sane.program extended.grows
      refine ⟨fitsAfter.functionFits ?_, rfl⟩
      rintro _ ⟨⟩
      exact ⟨runnable.has, fitsAfter.own, runnable.within, leaves_of_checkReturns checked, runnable.returns⟩
  · exact reads_throw

theorem functionDeclaration_gives {functionAttributes : List Attribute}
    {position : Nat} {name : Token} (top : start.AtTop ∅)
    (plain : start.program.NoPointer starred.base) :
    Gives (functionDeclaration starred functionAttributes position name) start fun function after =>
      after.AtTop ∅ ∧ function.index < after.program.functions.size ∧
        ∀ other, .function other ∈ after.program.declarations → other.index < function.index := by
  refine Gives.bind (functionHeader_gives functionAttributes position name top plain) ?_
  rintro header first ⟨topFirst, fits⟩
  refine gives_peek_bind fun token => ?_
  extract_lets ends
  have adds (function : Function) (now : ParserState)
      (topNow : now.AtTop {var | var ∈ function.arguments}) (fits : now.program.FunctionFits function) :
      Gives (ends function) now fun id after =>
        after.AtTop ∅ ∧ id.index < after.program.functions.size ∧
          ∀ other, .function other ∈ after.program.declarations → other.index < id.index := by
    have topAdded : AtTop { now with program := now.program.addFunction function } ∅ := by
      have grows := now.program.grows_addFunction function
      refine ⟨topNow.sane.grows (topNow.sane.program.addFunction fits) grows rfl, topNow.closed,
        topNow.outside, topNow.declares.grows grows rfl, fun var isArgument => .inr ?_⟩
      -- the arguments that were left over are those of the new function
      have old : now.program.Owned {var | var ∈ function.arguments} := topNow.owned
      rcases old.grows grows.functions subset_rfl (fun _ => .inl) var isArgument with isOwn | isOther
      · refine ⟨now.program.functions.next, ?_⟩
        rw [Program.function, Program.addFunction, Arena.get, Arena.get?_append_next]
        exact isOwn
      · exact isOther
    have makes : Gives (makeFunction function) now fun id after =>
        id = now.program.functions.next ∧ after = { now with program := now.program.addFunction function } :=
      gives_get_bind (gives_modify_bind (gives_pure ⟨rfl, rfl⟩))
    refine Gives.bind makes ?_
    rintro _ _ ⟨rfl, rfl⟩
    refine Gives.bind (declareGlobal_gives topAdded ?_ ?_) ?_
    · simp [Program.Knows, Arena.next, Program.addFunction]
    · rintro _ ⟨⟩
    · rintro - after ⟨topAfter, same⟩
      refine gives_pure ⟨topAfter, ?_, fun other found => ?_⟩
      · rw [same]
        simp [Arena.next, Program.addFunction]
      · rw [same] at found
        exact topNow.declares.known other found
  refine (eat_reads ";").gives_bind topFirst.sane fun isDeclared second extendedSecond _ => ?_
  have topSecond := extendedSecond.atTop topFirst
  have fitsSecond := fits.grows topFirst.sane.program extendedSecond.grows
  split_ifs
  · refine adds _ second topSecond (fitsSecond.functionFits fun body found => ?_)
    rw [fits.noBody] at found
    cases found
  · have defines : Reads second.scopes.locals second.returnType
        (functionDefinition header position token) second fun program function =>
          program.FunctionFits function ∧ function.arguments = header.arguments := by
      rw [topSecond.locals, topSecond.outside]
      exact functionDefinition_reads fitsSecond
    refine defines.gives_bind topSecond.sane ?_
    rintro function last extendedLast ⟨fitsLast, arguments⟩
    refine adds function last ?_ fitsLast
    rw [arguments]
    exact extendedLast.atTop topSecond

/-! ## Programs -/

theorem addDeclaration_gives {node : Declaration} (top : start.AtTop ∅)
    (new : ∀ function, node = .function function → function.index < start.program.functions.size ∧
        ∀ other, .function other ∈ start.program.declarations → other.index < function.index) :
    Gives (addDeclaration node) start fun _ after => after.AtTop ∅ := by
  have declares : Program.DeclaresOnce
      { start.program with declarations := start.program.declarations ++ [node] } := by
    refine ⟨fun function found => ?_, List.pairwise_append.2 ⟨top.declares.once, List.pairwise_singleton _ _,
      fun first isFirst second isSecond older newer isOlder isNewer => ?_⟩⟩
    · rcases List.mem_append.1 found with old | isNew
      · exact top.declares.known function old
      · exact (new function (List.mem_singleton.1 isNew).symm).1
    · rw [List.mem_singleton.1 isSecond] at isNewer
      exact (new newer isNewer).2 older (isOlder ▸ isFirst)
  have grows : start.program.Grows
      { start.program with declarations := start.program.declarations ++ [node] } :=
    ⟨.refl, .refl, .refl, .refl, le_rfl, fun _ _ => ⟨rfl, rfl, rfl⟩, fun _ _ => .refl⟩
  have sane := top.sane.program.of_same_nodes grows rfl rfl rfl rfl rfl rfl
  exact gives_modify ⟨top.sane.grows sane grows rfl, top.closed, top.outside, declares, top.owned⟩

theorem declaration_gives (top : start.AtTop ∅) : Gives declaration start fun _ after => after.AtTop ∅ := by
  refine (eat_reads ";").gives_bind top.sane fun isEmpty first extendedFirst _ => ?_
  have topFirst := extendedFirst.atTop top
  split_ifs
  · exact gives_pure topFirst
  · refine attributes_reads.gives_bind topFirst.sane fun found second extendedSecond _ => ?_
    have topSecond := extendedSecond.atTop topFirst
    refine gives_peek_bind fun token => ?_
    split_ifs
    · refine advance_reads.gives_bind topSecond.sane fun _ third extendedThird _ => ?_
      refine Gives.bind (structDeclaration_gives (extendedThird.atTop topSecond)) ?_
      intro type last topLast
      exact Gives.bind (gives_accept fun _ _ => topLast) fun _ _ top => addDeclaration_gives top nofun
    · refine typeName_reads.gives_bind topSecond.sane fun starred third extendedThird plain => ?_
      refine expectIdentifier_reads.gives_bind extendedThird.sane fun name fourth extendedFourth _ => ?_
      have topFourth := extendedFourth.atTop (extendedThird.atTop topSecond)
      have plainFourth := plain.grows extendedFourth.grows
      refine gives_peek_bind fun next => ?_
      split_ifs
      · refine Gives.bind (functionDeclaration_gives topFourth plainFourth) ?_
        rintro function last ⟨topLast, known, isNew⟩
        refine addDeclaration_gives topLast ?_
        rintro _ ⟨⟩
        exact ⟨known, isNew⟩
      · refine Gives.bind (globalDeclaration_gives topFourth plainFourth) ?_
        intro stmt last topLast
        exact Gives.bind (gives_accept fun _ _ => topLast) fun _ _ top => addDeclaration_gives top nofun
      · exact gives_throw

theorem declarations_gives (top : start.AtTop ∅) : Gives declarations start fun _ after => after.AtTop ∅ := by
  refine gives_repeatFrom (fun _ now => now.AtTop ∅) top fun _ now topNow => gives_peek_bind fun token => ?_
  split_ifs
  · exact gives_pure topNow
  · exact Gives.bind (declaration_gives topNow) fun _ _ topAfter => gives_pure topAfter

end Parser

/-! ## The empty program -/

/-- A built-in type is made of older ones without initial values or attributes, and is no pointer. -/
def builtinFits (index : Nat) : TypeKind → Bool
  | .primitive _ => true
  | .struct members width =>
    members.all (fun member => member.type.index < index && member.init.isNone && member.attributes = []) &&
      width.all fun width => members.map Member.type = List.replicate width .f32
  | .pointer _ _ => false

theorem builtinFits_initial :
    ∀ index < builtinTypes.length, builtinFits index (Program.initial.type ⟨index⟩).kind = true := by
  decide

theorem Program.noPointer_initial (type pointee : TypeId) (storage : StorageClass) :
    (Program.initial.type type).kind ≠ .pointer pointee storage := by
  intro isPointer
  have has : type.index < Program.initial.types.size := has_of_kind_ne (by simp [isPointer])
  have fits := builtinFits_initial type.index has
  rw [show (⟨type.index⟩ : TypeId) = type from rfl, isPointer] at fits
  cases fits

theorem Program.typeFits_initial (type : TypeId) (has : type.index < Program.initial.types.size) :
    Program.initial.TypeFits type (Program.initial.type type) := by
  have fits := builtinFits_initial type.index has
  rw [show (⟨type.index⟩ : TypeId) = type from rfl] at fits
  refine ⟨?_, ?_, ?_, fun pointee storage isPointer => absurd isPointer (noPointer_initial _ _ _)⟩
  · intro members width isStruct member found
    rw [isStruct] at fits
    simp only [builtinFits, Bool.and_eq_true, List.all_eq_true, decide_eq_true_eq] at fits
    obtain ⟨⟨older, noInit⟩, -⟩ := fits.1 member found
    rw [Option.isNone_iff_eq_none] at noInit
    exact ⟨older, by simp [HasInit, noInit]⟩
  · intro members width isStruct member found
    rw [isStruct] at fits
    simp only [builtinFits, Bool.and_eq_true, List.all_eq_true, decide_eq_true_eq] at fits
    simp [(fits.1 member found).2]
  · intro members width isStruct
    rw [isStruct] at fits
    simp only [builtinFits, Bool.and_eq_true, Option.all_some, decide_eq_true_eq] at fits
    exact fits.2

theorem Program.sane_initial : Program.initial.Sane := by
  refine ⟨ordered_of_known ?_ ?_, ?_, ?_, .refl, typeFits_initial, ⟨?_, ?_⟩, ?_, ?_, ?_⟩
  · exact fun id known => absurd known (Nat.not_lt_zero _)
  · exact fun id known => absurd known (Nat.not_lt_zero _)
  · exact fun id known => absurd known (Nat.not_lt_zero _)
  · exact fun id known => absurd known (Nat.not_lt_zero _)
  · exact fun type pointee storage isPointer => absurd isPointer (noPointer_initial _ _ _)
  · exact fun type pointee storage found => nomatch found
  · exact fun id known => absurd known (Nat.not_lt_zero _)
  · exact fun id known => absurd known (Nat.not_lt_zero _)
  · exact fun id known => absurd known (Nat.not_lt_zero _)

theorem Program.Sane.noPointer_builtin (sane : program.Sane) {type : TypeId}
    (isBuiltin : type.index < builtinTypes.length) : program.NoPointer type := by
  refine ⟨sane.has_builtin isBuiltin, ?_⟩
  have same : program.type type = Program.initial.type type := sane.builtin.get isBuiltin
  rw [isPointer, same]
  split
  · rename_i isPointer
    exact absurd isPointer (noPointer_initial _ _ _)
  · rfl

theorem Program.Sane.addArguments (sane : program.Sane) (vars : List Variable)
    (types : ∀ var ∈ vars, var.type.index < builtinTypes.length) (noInit : ∀ var ∈ vars, var.init = none)
    (arguments : ∀ var ∈ vars, var.kind.isArgument = true) :
    (vars.foldl Program.addVariable program).Sane ∧
      (vars.foldl Program.addVariable program).vars.size = program.vars.size + vars.length ∧
      ∀ index < vars.length, (vars.foldl Program.addVariable program).var ⟨program.vars.size + index⟩ ∈ vars := by
  induction vars using List.reverseRecOn with
  | nil => exact ⟨sane, rfl, fun index inRange => absurd inRange (Nat.not_lt_zero _)⟩
  | append_singleton vars var ih =>
    rw [List.foldl_append]
    obtain ⟨saneFront, size, each⟩ := ih (fun other found => types other (by simp [found]))
      (fun other found => noInit other (by simp [found])) fun other found => arguments other (by simp [found])
    refine ⟨saneFront.addVariable ⟨saneFront.has_builtin (types var (by simp)), ?_, fun isPlain => ?_⟩, ?_,
      fun index inRange => ?_⟩
    · simp [HasInit, noInit var (by simp)]
    · rw [arguments var (by simp)] at isPlain
      cases isPlain
    · simp [Program.addVariable, size, Nat.add_assoc]
    · rw [List.foldl_cons, List.foldl_nil, Program.var, Program.addVariable, Arena.get, Arena.get?_append]
      rw [List.length_append, List.length_singleton] at inRange
      split_ifs with isLast
      · exact List.mem_append_right _ List.mem_cons_self
      · refine List.mem_append_left _ (each index (lt_of_le_of_ne (Nat.le_of_lt_succ inRange) fun same => ?_))
        refine isLast (Handle.ext_index ?_)
        rw [same]
        exact size.symm

theorem Program.Sane.addIntrinsic (sane : program.Sane)
    {signature : IntrinsicSignature} (result : signature.returnType.index < builtinTypes.length)
    (arguments : ∀ type ∈ signature.arguments, type.index < builtinTypes.length) :
    (program.addIntrinsic signature).Sane := by
  unfold Program.addIntrinsic
  extract_lets first vars handles
  have isVar (var : Variable) (found : var ∈ vars) : var.type.index < builtinTypes.length ∧
      var.init = none ∧ var.kind.isArgument = true ∧ var.attributes = [] := by
    obtain ⟨⟨type, position⟩, inside, rfl⟩ := List.mem_map.1 found
    exact ⟨arguments type (List.fst_mem_of_mem_zipIdx inside), rfl, rfl, rfl⟩
  obtain ⟨saneVars, size, each⟩ := sane.addArguments vars (fun var found => (isVar var found).1)
    (fun var found => (isVar var found).2.1) fun var found => (isVar var found).2.2.1
  have isHandle (argument : VarId) (found : argument ∈ handles) :
      argument.index < (vars.foldl Program.addVariable program).vars.size ∧
        (vars.foldl Program.addVariable program).var argument ∈ vars := by
    obtain ⟨index, inRange, rfl⟩ := List.mem_map.1 found
    rw [size]
    exact ⟨Nat.add_lt_add_left (List.mem_range.1 inRange) first, each index (List.mem_range.1 inRange)⟩
  refine saneVars.addFunction ⟨saneVars.has_builtin result, fun argument found => (isHandle argument found).1,
    fun body found => (nomatch found), fun attr found => (nomatch found),
    binds_of_bare rfl rfl rfl rfl fun argument found => ?_⟩
  obtain ⟨isBuiltin, -, -, unmarked⟩ := isVar _ (isHandle argument found).2
  exact ⟨unmarked, (saneVars.noPointer_builtin isBuiltin).noPointer⟩

theorem Program.sane_withIntrinsics : Program.withIntrinsics.Sane := by
  have builtin : ∀ signature ∈ intrinsicSignatures, signature.returnType.index < builtinTypes.length ∧
      ∀ type ∈ signature.arguments, type.index < builtinTypes.length := by decide
  unfold withIntrinsics
  revert builtin
  induction intrinsicSignatures using List.reverseRecOn with
  | nil => exact fun _ => sane_initial
  | append_singleton signatures signature ih =>
    intro builtin
    rw [List.foldl_append]
    obtain ⟨result, arguments⟩ := builtin signature (by simp)
    exact (ih fun other found => builtin other (by simp [found])).addIntrinsic result arguments

theorem Scopes.mem_of_binds_foldl {names : List (String × Symbol)} {symbol : Symbol}
    (bound : (names.foldl (fun scopes (name, symbol) => scopes.bindGlobal name ⟨symbol, none⟩)
      ({} : Scopes)).Binds symbol) : symbol ∈ names.map Prod.snd := by
  induction names using List.reverseRecOn with
  | nil => simp [Scopes.Binds, Table.find?] at bound
  | append_singleton names entry ih =>
    rw [List.foldl_append] at bound
    rcases Scopes.binds_bindGlobal bound with rfl | old
    · simp
    · simp only [List.map_append, List.mem_append]
      exact .inl (ih old)

theorem Scopes.knows_initial {symbol : Symbol} (bound : Scopes.initial.Binds symbol) :
    Program.withIntrinsics.Knows symbol ∧ ∀ var, symbol ≠ .var var := by
  have inNames := Scopes.mem_of_binds_foldl bound
  rw [List.map_append, List.mem_append, List.map_map, List.map_map, List.mem_map, List.mem_map] at inNames
  rcases inNames with ⟨⟨node, index⟩, found, rfl⟩ | ⟨⟨signature, index⟩, found, rfl⟩
  · have below := List.snd_lt_of_mem_zipIdx found
    refine ⟨?_, fun var isVar => nomatch isVar⟩
    exact Program.sane_withIntrinsics.noPointer_builtin (by simpa using below)
  · have below := List.snd_lt_of_mem_zipIdx found
    have size : Program.withIntrinsics.functions.size = intrinsicSignatures.length := by decide +kernel
    refine ⟨?_, fun var isVar => nomatch isVar⟩
    show index < Program.withIntrinsics.functions.size
    rw [size]
    simpa using below

theorem Scopes.blocks_initial : Scopes.initial.blocks = [] := by
  have binds (names : List (String × Symbol)) (scopes : Scopes) :
      (names.foldl (fun scopes (name, symbol) => scopes.bindGlobal name ⟨symbol, none⟩) scopes).blocks =
        scopes.blocks := by
    induction names generalizing scopes with
    | nil => rfl
    | cons entry rest ih => exact ih _
  exact binds _ {}

theorem Program.owned_withIntrinsics : Program.withIntrinsics.Owned ∅ := by
  have each : ∀ index < Program.withIntrinsics.vars.size, ∃ function < Program.withIntrinsics.functions.size,
      ⟨index⟩ ∈ (Program.withIntrinsics.function ⟨function⟩).arguments := by decide +kernel
  intro var isArgument
  have has : var.index < Program.withIntrinsics.vars.size := by
    refine Arena.has_of_get_ne fun missing => ?_
    rw [show Program.withIntrinsics.var var = default from missing] at isArgument
    cases isArgument
  obtain ⟨function, -, found⟩ := each var.index has
  exact .inr ⟨⟨function⟩, found⟩

theorem ParserState.atTop_ofSource (source : String) : (ParserState.ofSource source).AtTop ∅ := by
  have declares : Program.withIntrinsics.DeclaresOnce := by
    have none : Program.withIntrinsics.declarations = [] := by decide +kernel
    refine ⟨fun function found => ?_, by rw [none]; exact .nil⟩
    rw [none] at found
    exact absurd found List.not_mem_nil
  refine ⟨⟨Program.sane_withIntrinsics, fun symbol bound => (Scopes.knows_initial bound).1,
    fun var found => ?_⟩, Scopes.blocks_initial, rfl, declares, Program.owned_withIntrinsics⟩
  exact absurd rfl ((Scopes.knows_initial (.inr found)).2 var)

theorem parse_eq_of_isNone {source : String} (accepted : (parsePartial source).2.isNone = true) :
    parse source = .ok (parsePartial source).1 := by
  unfold parse
  split
  · rename_i found
    rw [found]
  · rename_i found
    rw [found] at accepted
    cases accepted

section Parsed

variable {program : Program} {source : String} (parsed : parse source = .ok program)

include parsed

theorem atTop_of_parse : ∃ state : ParserState, state.AtTop ∅ ∧ state.program = program := by
  unfold parse parsePartial at parsed
  cases runs : Parser.declarations.run (.ofSource source) with
  | ok result state =>
    rw [runs] at parsed
    cases parsed
    exact ⟨state, Parser.declarations_gives (ParserState.atTop_ofSource source) result state runs, rfl⟩
  | error diagnostic state =>
    rw [runs] at parsed
    cases parsed

theorem sane_of_parse : program.Sane := by
  obtain ⟨state, top, rfl⟩ := atTop_of_parse parsed
  exact top.sane.program

theorem sorted_definedFunctions : program.definedFunctions.Pairwise (·.index < ·.index) := by
  obtain ⟨state, top, rfl⟩ := atTop_of_parse parsed
  exact top.declares.sorted

theorem nodup_definedFunctions : program.definedFunctions.Nodup :=
  (sorted_definedFunctions parsed).imp fun older => ne_of_apply_ne Handle.index older.ne

end Parsed

end Shader
