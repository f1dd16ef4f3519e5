import Shader.Proofs.Build.Permanence
import Shader.Proofs.Graph.Step

/-! # Addresses and their accesses

The address of a part is made for one access only: the load or store that comes behind it in its block. -/

namespace Shader

open Relation (ReflTransGen)

namespace Opcode

variable {opcode : Opcode}

/-- Whether a value with this opcode has a result that others can use. -/
def hasResult (opcode : Opcode) : Bool :=
  !opcode.isEnding && opcode != .store

/-- Whether values of all kinds can use a value with this opcode; the address of a part is for one access
only. -/
def isOperand (opcode : Opcode) : Bool :=
  opcode.hasResult && opcode != .elementPtr

theorem hasResult_of_isOperand (isOperand : opcode.isOperand = true) : opcode.hasResult = true :=
  (Bool.and_eq_true_iff.1 isOperand).1

theorem ne_elementPtr_of_isOperand (isOperand : opcode.isOperand = true) : opcode ≠ .elementPtr := by
  rintro rfl
  cases isOperand

/-- Whether a value with this opcode is an argument, or stands for something that its payload names. -/
def isNamed : Opcode → Bool
  | .functionArg | .const | .globalVar => true
  | _ => false

end Opcode

/-- An argument is where arguments are made; a constant has a literal, and a global variable says which one
it is. -/
structure Operation.Proper (isEntry : Prop) (operation : Operation) : Prop where
  argument : operation.opcode = .functionArg → isEntry
  const : operation.opcode = .const → ∃ literal, operation.payload = .literal literal
  globalVar : operation.opcode = .globalVar → ∃ var, operation.payload = .var var

theorem Operation.Proper.of_plain {isEntry : Prop} {operation : Operation}
    (plain : operation.opcode.isNamed = false) : operation.Proper isEntry := by
  constructor <;>
  · intro isNamed
    rw [isNamed] at plain
    cases plain

theorem Operation.Proper.mono {isEntry weaker : Prop} {operation : Operation}
    (proper : operation.Proper isEntry) (implies : isEntry → weaker) : operation.Proper weaker :=
  ⟨fun isArgument => implies (proper.argument isArgument), proper.const, proper.globalVar⟩

namespace Graph

variable {graph middle after : Graph} {block : BlockId} {var : VarId} {operation : Operation}
  {value user phi old new pointer : ValueId}

/-! ## The order of values -/

/-- The plain values of every block stand in the order they were made in. -/
def Ordered (graph : Graph) : Prop :=
  ∀ block, (graph.bodyOf block).Pairwise fun earlier later => earlier.index < later.index

end Graph

variable {guard : Guard} {before after : Draft}

theorem Lookup.body_next (step : Lookup guard before after) (sound : before.Sound)
    (block : BlockId) : after.graph.bodyOf block = before.graph.bodyOf block ∨
      after.graph.bodyOf block = before.graph.bodyOf block ++ [before.graph.values.next] := by
  cases step with
  | @insert graph after pending sealing home operation left right inserts fits notEnding =>
    by_cases isHome : block = home
    · subst isHome
      by_cases isPhi : operation.opcode = .phi
      · exact .inl (inserts.bodyOf_same sound.consistent sound.laidOut fits (.inl isPhi))
      · exact .inr (inserts.bodyOf_plain sound.consistent sound.laidOut fits isPhi notEnding)
    · exact .inl (inserts.bodyOf_of_ne sound.consistent isHome)
  | fill liveArg filling =>
    obtain ⟨live, -⟩ := Graph.Fills.pending sound.fills _ filling
    refine .inl ?_
    rw [Graph.bodyOf, Graph.bodyOf, Graph.isPlain_addArg live liveArg]
    rfl
  | settle => exact .inl rfl
  | note => exact .inl (Graph.retains_bind.bodyOf block)
  | defer => exact .inl (Graph.retains_defer.bodyOf block)
  | retire retires => exact .inl (retires.bodyOf block)

theorem Step.body_next (step : Step guard before after) (sound : before.Sound)
    (block : BlockId) : after.graph.bodyOf block = before.graph.bodyOf block ∨
      after.graph.bodyOf block = before.graph.bodyOf block ++ [before.graph.values.next] := by
  cases step with
  | lookup step => exact step.body_next sound block
  | write | release | close | setMerge =>
    refine .inl (Graph.Keeps.bodyOf (Graph.Retains.toKeeps (Graph.retains_modifyBlock fun _ => ?_)) block)
    exact ⟨rfl, rfl, rfl, rfl⟩
  | newBlock name => exact .inl ((Graph.retains_newBlock name).bodyOf block)
  | setCurrent | setConstruct | setSlot => exact .inl rfl
  | @ends graph source operation ends =>
    refine .inl ?_
    change (graph.endBlock source operation).bodyOf block = graph.bodyOf block
    rw [← ends.joins.keeps.bodyOf]
    by_cases isSource : block = source
    · subst isSource
      exact ends.inserts.bodyOf_same (ends.joins.consistent sound) (ends.joins.laidOut sound)
        (ends.fits sound.laidOut) (.inr ends.isEnding)
    · exact ends.inserts.bodyOf_of_ne (ends.joins.consistent sound) isSource

theorem Steps.ordered (steps : Steps guard before after) (sound : before.Sound)
    (ordered : before.graph.Ordered) : after.graph.Ordered := by
  induction steps with
  | refl => exact ordered
  | tail earlier step ih =>
    have soundThen := Steps.sound earlier sound
    intro block
    rcases step.body_next soundThen block with same | more
    · rw [same]
      exact ih block
    · rw [more, List.pairwise_append]
      refine ⟨ih block, List.pairwise_singleton _ _, fun earlier found later isNext => ?_⟩
      rw [List.mem_singleton.1 isNext]
      exact (soundThen.consistent.listed block earlier (List.mem_filter.1 found).1).1

namespace Graph

variable {graph middle after : Graph} {block : BlockId} {var : VarId} {operation : Operation}
  {value user phi old new pointer : ValueId}

/-! ## Whole values -/

/-- A value that is not the address of a part, and that has a result or a type. -/
def Whole (graph : Graph) (value : ValueId) : Prop :=
  graph.HasValue value ∧ (graph.value value).opcode ≠ .elementPtr ∧
    ((graph.value value).opcode.hasResult || (graph.value value).type.isSome) = true

@[grind →]
theorem Whole.grows (whole : graph.Whole value) (grows : graph.Grows after) : after.Whole value := by
  refine ⟨grows.hasValue value whole.1, ?_⟩
  rw [grows.opcode whole.1, grows.sameType whole.1]
  exact whole.2

theorem whole_of_opcode {opcode : Opcode} (isOpcode : (graph.value value).opcode = opcode)
    (isOperand : opcode.isOperand = true) (isMade : opcode ≠ .undef) : graph.Whole value := by
  refine ⟨hasValue_of_opcode (by rwa [isOpcode]), ?_, ?_⟩
  · rw [isOpcode]
    exact Opcode.ne_elementPtr_of_isOperand isOperand
  · rw [isOpcode, Opcode.hasResult_of_isOperand isOperand]
    rfl

theorem Carries.whole {type : TypeId} (carries : graph.Carries value type) : graph.Whole value := by
  refine ⟨carries.hasValue, fun isPart => ?_, by rw [carries.1]; simp⟩
  have noAddress := carries.2
  rw [isPart] at noAddress
  cases noAddress

theorem whole_of_isPhi (isPhi : (graph.value phi).opcode = .phi) : graph.Whole phi :=
  whole_of_opcode isPhi rfl (by decide)

/-- A value only reads or changes memory at the address of a part, which was made before it in the same
block. -/
structure Accesses (graph : Graph) (user pointer : ValueId) : Prop where
  isPart : (graph.value pointer).opcode = .elementPtr
  home : (graph.value pointer).block = (graph.value user).block
  earlier : pointer.index < user.index
  access : (graph.value user).opcode = .load ∧ (graph.value user).args = [pointer] ∨
    (graph.value user).opcode = .store ∧ ∃ content, (graph.value user).args = [pointer, content] ∧
      graph.Whole content

/-- A value is used as a whole, or it is the address of a part and used by its access. -/
def MayUse (graph : Graph) (user arg : ValueId) : Prop :=
  graph.Whole arg ∨ graph.Accesses user arg

theorem MayUse.hasValue (uses : graph.MayUse user value) : graph.HasValue value :=
  uses.elim (fun whole => whole.1) fun accesses =>
    hasValue_of_opcode (by rw [accesses.isPart]; decide)

theorem MayUse.grows (uses : graph.MayUse user value) (hasUser : graph.HasValue user)
    (grows : graph.Grows after) (args : (after.value user).args = (graph.value user).args) :
    after.MayUse user value := by
  have has := uses.hasValue
  refine uses.imp (fun whole => whole.grows grows) fun ⟨isPart, home, earlier, access⟩ => ?_
  have homes (other : ValueId) (has : graph.HasValue other) :
      (after.value other).block = (graph.value other).block :=
    Value.block_of_nature (grows.nature other has)
  refine ⟨(grows.opcode has).trans isPart, ?_, earlier, ?_⟩
  · rw [homes _ has, homes _ hasUser, home]
  · rw [grows.opcode hasUser, args]
    refine access.imp_right fun ⟨isStore, content, isArgs, whole⟩ => ?_
    exact ⟨isStore, content, isArgs, whole.grows grows⟩

/-- Addresses of parts are used only by their accesses, and what has a type has a result. -/
structure Paired (graph : Graph) : Prop where
  users : ∀ user, ∀ arg ∈ (graph.value user).args, graph.MayUse user arg
  results : ∀ value, ((graph.value value).opcode.hasResult || (graph.value value).type.isNone) = true
  entry : graph.entry = ⟨0⟩
  /-- Arguments are made in the entry, and values have the payloads that they need. -/
  proper : ∀ value, (graph.value value).Proper ((graph.value value).block = graph.entry)

/-- What a value that is made in a block may use: whole values, or the address of a part if it is the
access to it. It has a result if it has a type. -/
structure Takes (graph : Graph) (block : BlockId) (operation : Operation) : Prop where
  uses : (∀ arg ∈ operation.args, graph.Whole arg) ∨
    ∃ pointer, graph.HasValue pointer ∧ (graph.value pointer).opcode = .elementPtr ∧
      (graph.value pointer).block = block ∧
      (operation.opcode = .load ∧ operation.args = [pointer] ∨
        operation.opcode = .store ∧ ∃ content, operation.args = [pointer, content] ∧ graph.Whole content)
  result : (operation.opcode.hasResult || operation.type.isNone) = true
  proper : operation.Proper (block = graph.entry)

theorem Takes.hasValue (takes : graph.Takes block operation) :
    ∀ arg ∈ operation.args, graph.HasValue arg := by
  rcases takes.uses with whole | ⟨pointer, has, -, -, access⟩
  · exact fun arg used => (whole arg used).1
  · rcases access with ⟨-, args⟩ | ⟨-, content, args, whole⟩
    · simpa [args] using has
    · simpa [args] using ⟨has, whole.1⟩

namespace Paired

variable (paired : graph.Paired)

include paired

theorem isOperand (whole : graph.Whole value) : (graph.value value).opcode.isOperand = true := by
  obtain ⟨-, noPart, known⟩ := whole
  have result := paired.results value
  refine Bool.and_eq_true_iff.2 ⟨?_, bne_iff_ne.2 noPart⟩
  cases hasType : (graph.value value).type <;> simp_all

theorem mayUse (grows : graph.Grows after) (args : (after.value user).args = (graph.value user).args)
    (used : value ∈ (after.value user).args) : after.MayUse user value := by
  rw [args] at used
  exact (paired.users user value used).grows (hasValue_of_mem_args used) grows args

theorem grows (grows : graph.Grows after) (entry : after.entry = graph.entry)
    (users : ∀ user, ∀ arg ∈ (after.value user).args, after.MayUse user arg)
    (new : ∀ value, ¬ graph.HasValue value → after.HasValue value →
      ((after.value value).opcode.hasResult || (after.value value).type.isNone) = true ∧
        (after.value value).Proper ((after.value value).block = graph.entry)) : after.Paired := by
  have each (value : ValueId) :
      ((after.value value).opcode.hasResult || (after.value value).type.isNone) = true ∧
        (after.value value).Proper ((after.value value).block = graph.entry) := by
    by_cases has : graph.HasValue value
    · have proper := paired.proper value
      have nature := grows.nature value has
      rw [Value.block_of_nature nature, Value.type_of_nature nature]
      refine ⟨?_, ?_, ?_, ?_⟩
      · rw [Value.opcode_of_nature nature]
        exact paired.results value
      · rw [Value.opcode_of_nature nature]
        exact proper.argument
      · rw [Value.opcode_of_nature nature, Value.payload_of_nature nature]
        exact proper.const
      · rw [Value.opcode_of_nature nature, Value.payload_of_nature nature]
        exact proper.globalVar
    · by_cases hasNow : after.HasValue value
      · exact new value has hasNow
      · rw [value_of_not_hasValue hasNow]
        exact ⟨rfl, Operation.Proper.of_plain rfl⟩
  refine ⟨users, fun value => (each value).1, entry.trans paired.entry, fun value => ?_⟩
  rw [entry]
  exact (each value).2

theorem rewrites {change : ValueId → List ValueId → List ValueId → Prop}
    (rewrites : Rewrites change graph after) (function : after.function = graph.function)
    (entry : after.entry = graph.entry)
    (users : ∀ user, ∀ arg ∈ (after.value user).args, after.MayUse user arg) : after.Paired :=
  paired.grows ⟨function, fun value has => (rewrites.hasValue value).2 has,
    fun value _ => rewrites.nature value⟩ entry users
    fun value missing has => absurd ((rewrites.hasValue value).1 has) missing

theorem of_values (function : after.function = graph.function)
    (values : after.values = graph.values) (entry : after.entry = graph.entry) : after.Paired := by
  have same (value : ValueId) : after.value value = graph.value value := by
    rw [Graph.value, Graph.value, values]
  have grows : graph.Grows after := grows_of_values function values
  refine paired.grows grows entry (fun user arg => paired.mayUse grows (by rw [same]))
    fun value missing has => ?_
  rw [HasValue, values] at has
  exact absurd has missing

theorem adds (adds : graph.Adds block operation after)
    (takes : graph.Takes block operation) : after.Paired := by
  have grows := adds.grows
  refine paired.grows grows adds.entry (fun user arg used => ?_) fun value missing has => ?_
  · by_cases isNew : user = graph.values.next
    · subst isNew
      rw [adds.new] at used
      rcases takes.uses with whole | ⟨pointer, has, isPart, home, access⟩
      · exact .inl ((whole arg used).grows grows)
      · have others : arg = pointer ∨ graph.Whole arg := by
          rcases access with ⟨-, args⟩ | ⟨-, content, args, whole⟩
          · exact .inl (by simpa [args] using used)
          · have used : arg = pointer ∨ arg = content := by simpa [args] using used
            exact used.imp_right fun isContent => by rwa [isContent]
        rcases others with rfl | whole
        · refine .inr ⟨(grows.opcode has).trans isPart, ?_, has, ?_⟩
          · rw [Value.block_of_nature (grows.nature arg has), adds.new, home]
          · rw [adds.new]
            exact access.imp_right fun ⟨isStore, content, args, whole⟩ =>
              ⟨isStore, content, args, whole.grows grows⟩
        · exact .inl (whole.grows grows)
    · exact paired.mayUse grows (Value.args_of_core (adds.core user isNew)) used
  · obtain rfl := ((adds.hasValue value).1 has).resolve_left missing
    rw [adds.new]
    exact ⟨takes.result, takes.proper⟩

theorem whole_of_phi (isPhi : (graph.value phi).opcode = .phi)
    (used : value ∈ (graph.value phi).args) : graph.Whole value := by
  refine (paired.users phi value used).resolve_right fun accesses => ?_
  rcases accesses.access with ⟨isLoad, -⟩ | ⟨isStore, -⟩
  · exact absurd (isPhi.symm.trans isLoad) (by decide)
  · exact absurd (isPhi.symm.trans isStore) (by decide)

theorem addArg (isPhi : (graph.value phi).opcode = .phi)
    (whole : graph.Whole value) : (graph.addArg phi value).Paired := by
  have reads := value_addArg (whole_of_isPhi isPhi).1 whole.1
  have grows : graph.Grows (graph.addArg phi value) := grows_addArg phi value
  refine paired.grows grows rfl (fun user arg used => ?_) fun other missing has =>
    absurd (hasValue_addArg.1 has) missing
  by_cases isUser : user = phi
  · subst isUser
    refine .inl (Whole.grows ?_ grows)
    rw [reads] at used
    simp only [↓reduceIte, List.mem_append, List.mem_singleton] at used
    rcases used with used | rfl
    · exact paired.whole_of_phi isPhi used
    · exact whole
  · refine paired.mayUse grows ?_ used
    rw [reads]
    simp [isUser]

theorem exchange (grows : graph.Grows after) (whole : graph.Whole new)
    (isPhi : (graph.value old).opcode = .phi)
    (exchanged : Exchanged old new (graph.value user).args (after.value user).args)
    (used : value ∈ (after.value user).args) : after.MayUse user value := by
  obtain ⟨arg, usedBefore, related⟩ := exchanged.exists_mem used
  have hasUser := hasValue_of_mem_args usedBefore
  rcases paired.users user arg usedBefore with isWhole | accesses
  · rcases related with rfl | ⟨-, rfl⟩
    · exact .inl (isWhole.grows grows)
    · exact .inl (whole.grows grows)
  -- the address is not the phi, so that it stays what it is
  have differs : arg ≠ old := by
    rintro rfl
    exact absurd (isPhi.symm.trans accesses.isPart) (by decide)
  obtain rfl : value = arg := related.resolve_right fun isOld => differs isOld.1
  obtain ⟨isPart, home, earlier, access⟩ := accesses
  have has : graph.HasValue value := hasValue_of_opcode (by rw [isPart]; decide)
  refine .inr ⟨(grows.opcode has).trans isPart, ?_, earlier, ?_⟩
  · rw [Value.block_of_nature (grows.nature value has),
      Value.block_of_nature (grows.nature user hasUser), home]
  · rw [grows.opcode hasUser]
    rcases access with ⟨isLoad, args⟩ | ⟨isStore, content, args, isWhole⟩
    · rw [args] at exchanged
      obtain ⟨first, rest, same, none, isArgs⟩ := List.forall₂_cons_left_iff.1 exchanged
      cases none
      obtain rfl : first = value := same.resolve_right fun isOld => differs isOld.1
      exact .inl ⟨isLoad, isArgs⟩
    · rw [args] at exchanged
      obtain ⟨first, rest, same, others, isArgs⟩ := List.forall₂_cons_left_iff.1 exchanged
      obtain ⟨second, rest, kept, none, rfl⟩ := List.forall₂_cons_left_iff.1 others
      cases none
      obtain rfl : first = value := same.resolve_right fun isOld => differs isOld.1
      refine .inr ⟨isStore, second, isArgs, ?_⟩
      rcases kept with rfl | ⟨-, rfl⟩
      · exact isWhole.grows grows
      · exact whole.grows grows

theorem replaceUses (isPhi : (graph.value old).opcode = .phi)
    (whole : graph.Whole new) : (graph.replaceUses old new).Paired := by
  have rewrites := @rewrites_replaceUses graph old new
  have grows : graph.Grows (graph.replaceUses old new) := grows_replaceUses old new
  refine paired.rewrites rewrites grows.function (by rw [replaceUses_eq]) fun user arg used => ?_
  exact paired.exchange grows whole isPhi (rewrites.args user) used

theorem removeValue : (graph.removeValue phi).Paired := by
  have rewrites := @rewrites_removeValue graph phi
  have grows : graph.Grows (graph.removeValue phi) := grows_removeValue phi
  refine paired.rewrites rewrites grows.function (by rw [removeValue_eq]) fun user arg used => ?_
  rcases rewrites.args user with args | ⟨rfl, none⟩
  · exact paired.mayUse grows args used
  · rw [none] at used
    exact absurd used List.not_mem_nil

theorem noteReplaced :
    (graph.modifyValue old fun value => { value with replacedBy := some new }).Paired := by
  have reads := value_modifyValue_or graph old fun value => { value with replacedBy := some new }
  have grows : graph.Grows
      (graph.modifyValue old fun value => { value with replacedBy := some new }) :=
    grows_modifyValue old fun _ => rfl
  refine paired.grows grows rfl (fun user arg used => ?_) fun value missing has =>
    absurd (hasValue_modifyValue.1 has) missing
  refine paired.mayUse grows ?_ used
  rcases reads user with same | ⟨-, same⟩ <;> rw [same]

end Paired

end Graph

end Shader
