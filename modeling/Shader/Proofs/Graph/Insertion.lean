import Shader.Proofs.Graph.Sound

/-! # Inserting values

A value is made with all its operands and gets its place in a block at once. -/

namespace Shader

namespace Graph

variable {graph after : Graph} {pending : Set ValueId} {sealing : Set BlockId} {block : BlockId}
  {operation : Operation} {left right : List ValueId}

/-- A graph is another one with a value between two parts of the values of a block. -/
structure Inserts (graph : Graph) (block : BlockId) (operation : Operation)
    (left right : List ValueId) (after : Graph) : Prop where
  eq : after = graph.insertValue block operation left right
  has : graph.HasBlock block
  live : ∀ arg ∈ operation.args, graph.IsLive arg
  split : left ++ right = (graph.block block).values

theorem not_hasValue_next : ¬ graph.HasValue graph.values.next := Nat.lt_irrefl _

theorem IsLive.ne_next {value : ValueId} (live : graph.IsLive value) : value ≠ graph.values.next :=
  live.1.ne_next

theorem Consistent.count_next (before : graph.Consistent) (user : ValueId) :
    (graph.value user).args.count graph.values.next = 0 ∧
      (graph.value user).uses.count graph.values.next = 0 := by
  have blank : graph.value graph.values.next = default := value_of_not_hasValue not_hasValue_next
  have forward := before.edges user graph.values.next
  have backward := before.edges graph.values.next user
  rw [blank] at forward backward
  exact ⟨forward, backward.symm⟩

namespace Inserts

variable (inserts : Inserts graph block operation left right after)

include inserts

/-! ## The inserted value and the others -/

theorem value_eq (value : ValueId) : after.value value =
      if value = graph.values.next then { operation with block }
      else
        { graph.value value with
          uses := (graph.value value).uses ++
            List.replicate (operation.args.count value) graph.values.next } := by
  rw [inserts.eq]
  exact value_insertValue (fun arg found => (inserts.live arg found).1) value

theorem value_new : after.value graph.values.next = { operation with block } := by
  rw [inserts.value_eq, if_pos rfl]

section Old

variable {value : ValueId} (differs : value ≠ graph.values.next)

include differs

theorem core_old : (after.value value).core = (graph.value value).core := by
  rw [inserts.value_eq, if_neg differs]
  rfl

theorem args_old : (after.value value).args = (graph.value value).args := by
  rw [inserts.value_eq, if_neg differs]

theorem opcode_old : (after.value value).opcode = (graph.value value).opcode := by
  rw [inserts.value_eq, if_neg differs]

theorem payload_old : (after.value value).payload = (graph.value value).payload := by
  rw [inserts.value_eq, if_neg differs]

theorem blockOf_old : (after.value value).block = (graph.value value).block := by
  rw [inserts.value_eq, if_neg differs]

end Old

theorem hasValue (value : ValueId) :
    after.HasValue value ↔ graph.HasValue value ∨ value = graph.values.next := by
  rw [inserts.eq, hasValue_insertValue]

theorem removed (value : ValueId) : (after.value value).removed = (graph.value value).removed := by
  rw [inserts.value_eq]
  split_ifs with isNew
  · rw [isNew, value_of_not_hasValue not_hasValue_next]
    rfl
  · rfl

theorem replacedBy (value : ValueId) : (after.value value).replacedBy = (graph.value value).replacedBy := by
  rw [inserts.value_eq]
  split_ifs with isNew
  · rw [isNew, value_of_not_hasValue not_hasValue_next]
    rfl
  · rfl

theorem isLive (value : ValueId) : after.IsLive value ↔ graph.IsLive value ∨ value = graph.values.next := by
  rw [IsLive, IsLive, inserts.hasValue, inserts.removed]
  constructor
  · rintro ⟨has | isNew, kept⟩
    · exact .inl ⟨has, kept⟩
    · exact .inr isNew
  · rintro (⟨has, kept⟩ | isNew)
    · exact ⟨.inl has, kept⟩
    · refine ⟨.inr isNew, ?_⟩
      rw [isNew, value_of_not_hasValue not_hasValue_next]
      rfl

theorem live_old {value : ValueId} (live : graph.IsLive value) : after.IsLive value :=
  (inserts.isLive value).2 (.inl live)

theorem live_new : after.IsLive graph.values.next := (inserts.isLive _).2 (.inr rfl)

/-! ## The block and the others -/

theorem block_eq (other : BlockId) : after.block other =
      if other = block then
        { graph.block other with
          values := left ++ graph.values.next :: right
          ending :=
            if operation.opcode.isEnding then some graph.values.next
            else (graph.block other).ending }
      else graph.block other := by
  rw [inserts.eq]
  exact block_insertValue inserts.has other

theorem places (other : BlockId) : (after.block other).values =
      if other = block then left ++ graph.values.next :: right
      else (graph.block other).values := by
  rw [inserts.block_eq]
  split_ifs <;> rfl

theorem same {α : Type} (field : Block → α) (ignores : ∀ (node : Block) values ending,
      field { node with values := values, ending := ending } = field node) (other : BlockId) :
    field (after.block other) = field (graph.block other) := by
  rw [inserts.block_eq]
  by_cases home : other = block
  · rw [if_pos home]
    exact ignores _ _ _
  · rw [if_neg home]

theorem preds (other : BlockId) : (after.block other).preds = (graph.block other).preds :=
  inserts.same Block.preds (fun _ _ _ => rfl) other

theorem incomplete (other : BlockId) : (after.block other).incomplete = (graph.block other).incomplete :=
  inserts.same Block.incomplete (fun _ _ _ => rfl) other

theorem isSealed (other : BlockId) : (after.block other).isSealed = (graph.block other).isSealed :=
  inserts.same Block.isSealed (fun _ _ _ => rfl) other

theorem binding (other : BlockId) (var : VarId) : after.binding other var = graph.binding other var :=
  inserts.same (fun node => node.bindings.find? var) (fun _ _ _ => rfl) other

theorem frame : after = { graph with values := after.values, blocks := after.blocks } := by
  rw [inserts.eq]
  exact insertValue_eq

theorem entry : after.entry = graph.entry := by
  rw [inserts.frame]

theorem slots : after.slots = graph.slots := by
  rw [inserts.frame]

theorem current : after.current = graph.current := by
  rw [inserts.frame]

theorem size_blocks : after.blocks.size = graph.blocks.size := by
  rw [inserts.eq, size_blocks_insertValue]

theorem hasBlock (other : BlockId) : after.HasBlock other ↔ graph.HasBlock other := by
  rw [HasBlock, HasBlock, inserts.size_blocks]

theorem reaches (other : BlockId) : after.Reaches other ↔ graph.Reaches other :=
  reaches_congr inserts.entry inserts.preds

theorem dominates (other target : BlockId) : after.Dominates other target ↔ graph.Dominates other target :=
  dominates_congr inserts.entry inserts.preds

/-! ## What an insertion keeps -/

theorem consistent (before : graph.Consistent) : after.Consistent where
  edges user value := by
    have agree := before.edges user value
    obtain ⟨unused, -⟩ := before.count_next user
    obtain ⟨-, fresh⟩ := before.count_next value
    rw [inserts.value_eq, inserts.value_eq]
    by_cases isUser : user = graph.values.next
    · by_cases isValue : value = graph.values.next
      · have absent : graph.values.next ∉ operation.args := fun found =>
          (inserts.live _ found).ne_next rfl
        simp [isUser, isValue, List.count_eq_zero.2 absent]
      · simp [isUser, isValue, fresh]
    · by_cases isValue : value = graph.values.next
      · simp [isUser, isValue, unused]
      · simp [isUser, isValue, agree, List.count_replicate, Ne.symm isUser]
  removed_args value gone := by
    rw [inserts.removed] at gone
    have differs : value ≠ graph.values.next := by
      rintro rfl
      rw [value_of_not_hasValue not_hasValue_next] at gone
      exact Bool.false_ne_true gone
    rw [inserts.args_old differs]
    exact before.removed_args value gone
  removed_uses value gone := by
    rw [inserts.removed] at gone
    have differs : value ≠ graph.values.next := by
      rintro rfl
      rw [value_of_not_hasValue not_hasValue_next] at gone
      exact Bool.false_ne_true gone
    have absent : value ∉ operation.args := fun found => by
      have kept := (inserts.live value found).2
      rw [gone] at kept
      exact Bool.false_ne_true kept.symm
    rw [inserts.value_eq, if_neg differs]
    simp [before.removed_uses value gone, List.count_eq_zero.2 absent]
  placed value other live := by
    rw [inserts.places]
    by_cases isNew : value = graph.values.next
    · have absent (target : BlockId) : (graph.block target).values.count value = 0 :=
        List.count_eq_zero.2 fun found => (before.listed target value found).ne_next isNew
      have parts := absent block
      rw [← inserts.split, List.count_append] at parts
      rw [isNew, inserts.value_new, ← isNew]
      split_ifs
      · rw [List.count_append, List.count_cons_self]
        omega
      · exact absent other
    · have known := before.placed value other (((inserts.isLive value).1 live).resolve_right isNew)
      rw [inserts.blockOf_old isNew, ← known]
      split_ifs with home
      · rw [home, ← inserts.split, List.count_append, List.count_append,
          List.count_cons_of_ne (Ne.symm isNew)]
      · rfl
  listed other value found := by
    rw [inserts.places] at found
    split_ifs at found with home
    · have parts : value ∈ left ++ right ∨ value = graph.values.next := by
        simp only [List.mem_append, List.mem_cons] at found ⊢
        tauto
      rw [inserts.split] at parts
      exact (inserts.isLive value).2 (parts.imp_left (before.listed block value))
    · exact inserts.live_old (before.listed other value found)
  bound other var value found := by
    rw [inserts.binding] at found
    exact inserts.live_old (before.bound other var value found)
  slots var value found := by
    rw [inserts.slots] at found
    exact inserts.live_old (before.slots var value found)
  waiting other var value found := by
    rw [inserts.incomplete] at found
    exact inserts.live_old (before.waiting other var value found)

theorem removedCount : after.removedCount = graph.removedCount := by
  have gone : (graph.value ⟨graph.values.size⟩).removed = false :=
    congrArg Value.removed (value_of_not_hasValue not_hasValue_next)
  have size : after.values.size = graph.values.size + 1 := by
    rw [inserts.eq, size_values_insertValue]
  simp only [Graph.removedCount, size, inserts.removed]
  rw [Finset.range_add_one, Finset.filter_insert, gone, if_neg Bool.false_ne_true]

theorem resolveWithin (steps : Nat) (value : ValueId) :
    after.resolveWithin steps value = graph.resolveWithin steps value := by
  induction steps generalizing value with
  | zero => rfl
  | succ steps ih => simp only [Graph.resolveWithin, inserts.replacedBy, ih]

theorem replaces (before : graph.Replaces) : after.Replaces where
  kept value live := by
    rw [inserts.replacedBy]
    rcases (inserts.isLive value).1 live with live | isNew
    · exact before.kept value live
    · rw [isNew, value_of_not_hasValue not_hasValue_next]
      rfl
  survivor value has := by
    rcases (inserts.hasValue value).1 has with has | isNew
    · obtain ⟨steps, few, live⟩ := before.survivor value has
      refine ⟨steps, inserts.removedCount ▸ few, ?_⟩
      rw [inserts.resolveWithin]
      exact inserts.live_old live
    · exact ⟨0, Nat.zero_le _, isNew ▸ inserts.live_new⟩

theorem isPhi_new : after.isPhi graph.values.next = (operation.opcode == .phi) := by
  rw [isPhi, inserts.value_new]

theorem isPlain_new : after.isPlain graph.values.next =
      (!(operation.opcode == .phi) && !operation.opcode.isEnding) := by
  rw [isPlain, inserts.isPhi_new, inserts.value_new]

theorem filter_isPhi {values : List ValueId} (old : ∀ value ∈ values, graph.IsLive value) :
    values.filter after.isPhi = values.filter graph.isPhi :=
  List.filter_congr fun value found => by
    rw [isPhi, isPhi, inserts.opcode_old (old value found).ne_next]

theorem filter_isPlain {values : List ValueId} (old : ∀ value ∈ values, graph.IsLive value) :
    values.filter after.isPlain = values.filter graph.isPlain :=
  List.filter_congr fun value found => by
    rw [isPlain, isPlain, isPhi, isPhi, inserts.opcode_old (old value found).ne_next]

theorem phisOf_of_ne (before : graph.Consistent) {other : BlockId} (away : other ≠ block) :
    after.phisOf other = graph.phisOf other := by
  rw [phisOf, inserts.places, if_neg away, inserts.filter_isPhi (before.listed other), phisOf]

theorem bodyOf_of_ne (before : graph.Consistent) {other : BlockId} (away : other ≠ block) :
    after.bodyOf other = graph.bodyOf other := by
  rw [bodyOf, inserts.places, if_neg away, inserts.filter_isPlain (before.listed other), bodyOf]

theorem live_parts (before : graph.Consistent) :
    (∀ value ∈ left, graph.IsLive value) ∧ ∀ value ∈ right, graph.IsLive value := by
  have listed := before.listed block
  rw [← inserts.split] at listed
  exact ⟨fun value found => listed value (List.mem_append_left _ found),
    fun value found => listed value (List.mem_append_right _ found)⟩

theorem phisOf_self (before : graph.Consistent) : after.phisOf block = left.filter graph.isPhi ++
        ((if operation.opcode = .phi then [graph.values.next] else []) ++ right.filter graph.isPhi) := by
  obtain ⟨liveLeft, liveRight⟩ := inserts.live_parts before
  rw [phisOf, inserts.places, if_pos rfl, List.filter_append, inserts.filter_isPhi liveLeft,
    List.filter_cons, inserts.isPhi_new, inserts.filter_isPhi liveRight]
  split_ifs with first second second <;> simp_all

theorem bodyOf_self (before : graph.Consistent) : after.bodyOf block = left.filter graph.isPlain ++
        ((if operation.opcode ≠ .phi ∧ operation.opcode.isEnding = false then [graph.values.next]
          else []) ++ right.filter graph.isPlain) := by
  obtain ⟨liveLeft, liveRight⟩ := inserts.live_parts before
  rw [bodyOf, inserts.places, if_pos rfl, List.filter_append, inserts.filter_isPlain liveLeft,
    List.filter_cons, inserts.isPlain_new, inserts.filter_isPlain liveRight]
  split_ifs with first second second <;> simp_all

end Inserts

/-! ## The place of a value -/

/-- The two parts of the values of a block that a value with an opcode stands between. -/
inductive Fits (graph : Graph) (block : BlockId) : Opcode → List ValueId → List ValueId → Prop where
  | phi {opcode : Opcode} : opcode = .phi → graph.Fits block opcode (graph.phisOf block)
      (graph.bodyOf block ++ (graph.block block).ending.toList)
  | plain {opcode : Opcode} : opcode ≠ .phi → opcode.isEnding = false →
      graph.Fits block opcode (graph.phisOf block ++ graph.bodyOf block) (graph.block block).ending.toList
  | ending {opcode : Opcode} : opcode.isEnding = true → (graph.block block).ending = none →
      graph.Fits block opcode (graph.phisOf block ++ graph.bodyOf block) []

theorem Fits.split (fits : graph.Fits block operation.opcode left right)
    (before : graph.LaidOut) : left ++ right = (graph.block block).values := by
  cases fits with
  | phi => rw [before.parts, List.append_assoc]
  | plain => rw [before.parts]
  | ending _ isOpen => rw [before.parts, isOpen, Option.toList_none]

theorem filter_isPhi_phisOf : (graph.phisOf block).filter graph.isPhi = graph.phisOf block := by
  simp [phisOf, List.filter_filter]

theorem filter_isPlain_phisOf : (graph.phisOf block).filter graph.isPlain = [] := by
  refine List.filter_eq_nil_iff.2 fun value found => ?_
  have isPhi : graph.isPhi value = true := (List.mem_filter.1 found).2
  simp [isPlain, isPhi]

theorem filter_isPhi_bodyOf : (graph.bodyOf block).filter graph.isPhi = [] := by
  refine List.filter_eq_nil_iff.2 fun value found => ?_
  have plain : graph.isPlain value = true := (List.mem_filter.1 found).2
  simp only [isPlain, Bool.and_eq_true, Bool.not_eq_true'] at plain
  simp [plain.1]

theorem filter_isPlain_bodyOf : (graph.bodyOf block).filter graph.isPlain = graph.bodyOf block := by
  simp [bodyOf, List.filter_filter]

theorem LaidOut.isPhi_ending (before : graph.LaidOut) {value : ValueId}
    (found : (graph.block block).ending = some value) : graph.isPhi value = false := by
  have isEnding := before.ending block value found
  rw [isPhi, beq_eq_false_iff_ne]
  intro isPhi
  rw [isPhi] at isEnding
  exact absurd isEnding Bool.false_ne_true

theorem LaidOut.filter_isPhi_ending (before : graph.LaidOut) :
    (graph.block block).ending.toList.filter graph.isPhi = [] := by
  cases found : (graph.block block).ending with
  | none => rfl
  | some value => simp [before.isPhi_ending found]

theorem LaidOut.filter_isPlain_ending (before : graph.LaidOut) :
    (graph.block block).ending.toList.filter graph.isPlain = [] := by
  cases found : (graph.block block).ending with
  | none => rfl
  | some value => simp [isPlain, before.ending block value found]

namespace Inserts

variable (inserts : Inserts graph block operation left right after)

include inserts

theorem ending_eq (other : BlockId) : (after.block other).ending =
      if other = block ∧ operation.opcode.isEnding = true then some graph.values.next
      else (graph.block other).ending := by
  rw [inserts.block_eq]
  by_cases home : other = block
  · by_cases isEnding : operation.opcode.isEnding = true <;> simp [home, isEnding]
  · simp [home]

section Parts

variable (before : graph.Consistent) (laidOut : graph.LaidOut)
  (fits : graph.Fits block operation.opcode left right)

include before laidOut fits

theorem bodyOf_plain (notPhi : operation.opcode ≠ .phi)
    (notEnding : operation.opcode.isEnding = false) :
    after.bodyOf block = graph.bodyOf block ++ [graph.values.next] := by
  rw [inserts.bodyOf_self before, if_pos ⟨notPhi, notEnding⟩]
  cases fits with
  | phi isPhi => exact absurd isPhi notPhi
  | plain =>
    rw [List.filter_append, filter_isPlain_phisOf, filter_isPlain_bodyOf, laidOut.filter_isPlain_ending]
    simp
  | ending isEnding => exact absurd isEnding (by simp [notEnding])

theorem bodyOf_same (notPlain : operation.opcode = .phi ∨ operation.opcode.isEnding = true) :
    after.bodyOf block = graph.bodyOf block := by
  rw [inserts.bodyOf_self before, if_neg (by simp only [not_and]; grind)]
  cases fits with
  | phi =>
    rw [List.filter_append, filter_isPlain_phisOf, filter_isPlain_bodyOf, laidOut.filter_isPlain_ending]
    simp
  | plain notPhi notEnding =>
    exact absurd notPlain (by simp [notPhi, notEnding])
  | ending =>
    rw [List.filter_append, filter_isPlain_phisOf, filter_isPlain_bodyOf]
    simp

theorem phisOf_phi (isPhi : operation.opcode = .phi) :
    after.phisOf block = graph.phisOf block ++ [graph.values.next] := by
  rw [inserts.phisOf_self before, if_pos isPhi]
  cases fits with
  | phi =>
    rw [filter_isPhi_phisOf, List.filter_append, filter_isPhi_bodyOf, laidOut.filter_isPhi_ending]
    simp
  | plain notPhi => exact absurd isPhi notPhi
  | ending isEnding => exact absurd isEnding (by rw [isPhi]; exact Bool.false_ne_true)

theorem phisOf_same (notPhi : operation.opcode ≠ .phi) : after.phisOf block = graph.phisOf block := by
  rw [inserts.phisOf_self before, if_neg notPhi]
  cases fits with
  | phi isPhi => exact absurd isPhi notPhi
  | plain =>
    rw [List.filter_append, filter_isPhi_phisOf, filter_isPhi_bodyOf, laidOut.filter_isPhi_ending]
    simp
  | ending =>
    rw [List.filter_append, filter_isPhi_phisOf, filter_isPhi_bodyOf]
    simp

end Parts

theorem laidOut (consistent : graph.Consistent) (before : graph.LaidOut)
    (fits : graph.Fits block operation.opcode left right) : after.LaidOut where
  parts other := by
    rw [inserts.places, inserts.ending_eq]
    by_cases home : other = block
    · subst home
      cases fits with
      | phi isPhi =>
        rw [inserts.phisOf_phi consistent before (.phi isPhi) isPhi,
          inserts.bodyOf_same consistent before (.phi isPhi) (.inl isPhi)]
        simp [isPhi, Opcode.isEnding]
      | plain notPhi notEnding =>
        rw [inserts.phisOf_same consistent before (.plain notPhi notEnding) notPhi,
          inserts.bodyOf_plain consistent before (.plain notPhi notEnding) notPhi notEnding]
        simp [notEnding]
      | ending isEnding isOpen =>
        have notPhi : operation.opcode ≠ .phi := fun isPhi => by
          rw [isPhi] at isEnding
          exact Bool.false_ne_true isEnding
        rw [inserts.phisOf_same consistent before (.ending isEnding isOpen) notPhi,
          inserts.bodyOf_same consistent before (.ending isEnding isOpen) (.inr isEnding)]
        simp [isEnding]
    · rw [inserts.phisOf_of_ne consistent home, inserts.bodyOf_of_ne consistent home, if_neg home,
        if_neg (by simp [home])]
      exact before.parts other
  ending other value found := by
    rw [inserts.ending_eq] at found
    split_ifs at found with here
    · rw [← Option.some.inj found, inserts.value_new]
      exact here.2
    · have listed : value ∈ (graph.block other).values := by
        rw [before.parts, found]
        simp
      rw [inserts.opcode_old (consistent.listed other value listed).ne_next]
      exact before.ending other value found
  slot var value found := by
    rw [inserts.slots] at found
    rw [inserts.opcode_old (consistent.slots var value found).ne_next]
    exact before.slot var value found

/-! ## Phis and dominance -/

theorem blockOf {value : ValueId} (live : graph.IsLive value) :
    (after.value value).block = (graph.value value).block :=
  inserts.blockOf_old live.ne_next

theorem fills (consistent : graph.Consistent) (before : graph.Fills pending sealing)
    (notEntry : operation.opcode = .phi → block ≠ graph.entry) :
    after.Fills (pending ∪ {value | value = graph.values.next ∧ operation.opcode = .phi}) sealing where
  arity phi live isPhi := by
    rcases (inserts.isLive phi).1 live with live | isNew
    · rw [inserts.opcode_old live.ne_next] at isPhi
      have known := before.arity phi live isPhi
      simp only [Waits, IsFilled, inserts.blockOf live, inserts.args_old live.ne_next,
        inserts.incomplete, inserts.isSealed, inserts.preds]
      exact known.imp_left .inl
    · subst isNew
      rw [inserts.value_new] at isPhi
      exact .inl (.inr ⟨rfl, isPhi⟩)
  waits other var phi found := by
    rw [inserts.incomplete] at found
    have live := consistent.waiting other var phi found
    rw [inserts.opcode_old live.ne_next, inserts.blockOf live, inserts.args_old live.ne_next,
      inserts.isSealed, inserts.binding, inserts.payload_old live.ne_next]
    exact before.waits other var phi found
  waits_nodup other := by
    rw [inserts.incomplete]
    exact before.waits_nodup other
  pending phi found := by
    rcases found with found | ⟨rfl, isPhi⟩
    · obtain ⟨live, isPhi, free⟩ := before.pending phi found
      refine ⟨inserts.live_old live, ?_, ?_⟩
      · rwa [inserts.opcode_old live.ne_next]
      · rwa [Waits, inserts.blockOf live, inserts.incomplete]
    · refine ⟨inserts.live_new, ?_, ?_⟩
      · rwa [inserts.value_new]
      · rintro ⟨var, found⟩
        rw [inserts.incomplete] at found
        exact (consistent.waiting _ var _ found).ne_next rfl
  notEntry phi live isPhi := by
    rw [inserts.entry]
    rcases (inserts.isLive phi).1 live with live | isNew
    · rw [inserts.opcode_old live.ne_next] at isPhi
      rw [inserts.blockOf live]
      exact before.notEntry phi live isPhi
    · subst isNew
      rw [inserts.value_new] at isPhi ⊢
      exact notEntry isPhi

theorem strict (consistent : graph.Consistent) (before : graph.Strict)
    (operands : operation.opcode ≠ .phi → ∀ arg ∈ operation.args,
      graph.Dominates (graph.value arg).block block ∧
        (graph.Reaches block → (graph.value arg).block = block → arg ∈ left))
    (choices : operation.opcode = .phi → ∀ (position : Nat) arg pred, operation.args[position]? = some arg →
      (graph.block block).preds[position]? = some pred →
        graph.Dominates (graph.value arg).block pred) : after.Strict where
  operand user arg plain used := by
    by_cases isNew : user = graph.values.next
    · subst isNew
      rw [inserts.value_new] at plain used
      obtain ⟨dominates, inOrder⟩ := operands plain arg used
      rw [inserts.value_new, inserts.blockOf (inserts.live arg used), inserts.dominates,
        inserts.reaches, inserts.places, if_pos rfl]
      refine ⟨dominates, fun reached home => ?_⟩
      have first : [arg].Sublist left := List.singleton_sublist.2 (inOrder reached home)
      have second : [graph.values.next].Sublist (graph.values.next :: right) :=
        List.singleton_sublist.2 List.mem_cons_self
      exact first.append second
    · rw [inserts.opcode_old isNew] at plain
      rw [inserts.args_old isNew] at used
      obtain ⟨dominates, inOrder⟩ := before.operand user arg plain used
      rw [inserts.blockOf_old isNew, inserts.blockOf (consistent.live_arg used), inserts.dominates,
        inserts.reaches, inserts.places]
      refine ⟨dominates, fun reached home => ?_⟩
      have known := inOrder reached home
      split_ifs with here
      · rw [here, ← inserts.split] at known
        exact known.trans ((List.Sublist.refl left).append (List.sublist_cons_self _ _))
      · exact known
  choice phi isPhi position arg pred found source := by
    rw [inserts.preds] at source
    rw [inserts.dominates]
    by_cases isNew : phi = graph.values.next
    · subst isNew
      rw [inserts.value_new] at isPhi found source
      rw [inserts.blockOf (inserts.live arg (List.mem_of_getElem? found))]
      exact choices isPhi position arg pred found source
    · rw [inserts.opcode_old isNew] at isPhi
      rw [inserts.args_old isNew] at found
      rw [inserts.blockOf_old isNew] at source
      rw [inserts.blockOf (consistent.live_arg (List.mem_of_getElem? found))]
      exact before.choice phi isPhi position arg pred found source
  bound other var value found := by
    rw [inserts.binding] at found
    rw [inserts.dominates, inserts.blockOf (consistent.bound other var value found)]
    exact before.bound other var value found

theorem ranks (before : ∃ rank, graph.Ranks rank) : ∃ rank, after.Ranks rank := by
  obtain ⟨rank, ranks⟩ := before
  have count : after.sealedCount = graph.sealedCount := by
    simp only [sealedCount, inserts.size_blocks, inserts.isSealed]
  refine ⟨rank, fun other => count ▸ ranks.le other, fun other pred closed only => ?_⟩
  rw [inserts.isSealed] at closed
  rw [inserts.preds] at only
  exact ranks.lt other pred closed only

theorem flows (before : graph.Flows) (targets : ∀ other, after.targetsOf other = graph.targetsOf other) :
    after.Flows where
  hasEntry := by
    rw [inserts.hasBlock, inserts.entry]
    exact before.hasEntry
  hasCurrent := by
    rw [inserts.hasBlock, inserts.current]
    exact before.hasCurrent
  entry_sealed := by
    rw [inserts.isSealed, inserts.entry]
    exact before.entry_sealed
  entry_preds := by
    rw [inserts.preds, inserts.entry]
    exact before.entry_preds
  edges source target := by
    rw [inserts.same Block.succs (fun _ _ _ => rfl), inserts.preds]
    exact before.edges source target
  preds_nodup other := by
    rw [inserts.preds]
    exact before.preds_nodup other
  succs_nodup other := by
    rw [inserts.same Block.succs (fun _ _ _ => rfl)]
    exact before.succs_nodup other
  succs other := by
    rw [inserts.same Block.succs (fun _ _ _ => rfl), targets]
    exact before.succs other
  ranks := inserts.ranks before.ranks

theorem targetsOf (consistent : graph.Consistent) (laidOut : graph.LaidOut) {other : BlockId}
    (notEnding : other ≠ block ∨ operation.opcode.isEnding = false) :
    after.targetsOf other = graph.targetsOf other := by
  have ending : (after.block other).ending = (graph.block other).ending := by
    rw [inserts.ending_eq, if_neg (by grind)]
  rw [Graph.targetsOf, Graph.targetsOf, ending]
  cases found : (graph.block other).ending with
  | none => rfl
  | some value =>
    have listed : value ∈ (graph.block other).values := by
      rw [laidOut.parts, found]
      simp
    exact congrArg Payload.blocks (inserts.payload_old (consistent.listed other value listed).ne_next)

end Inserts

theorem Sound.inserts (sound : graph.Sound pending sealing)
    (inserts : Inserts graph block operation left right after)
    (fits : graph.Fits block operation.opcode left right)
    (notEnding : operation.opcode.isEnding = false)
    (notEntry : operation.opcode = .phi → block ≠ graph.entry)
    (operands : operation.opcode ≠ .phi → ∀ arg ∈ operation.args,
      graph.Dominates (graph.value arg).block block ∧
        (graph.Reaches block → (graph.value arg).block = block → arg ∈ left))
    (choices : operation.opcode = .phi → ∀ (position : Nat) arg pred, operation.args[position]? = some arg →
      (graph.block block).preds[position]? = some pred → graph.Dominates (graph.value arg).block pred) :
    after.Sound (pending ∪ {value | value = graph.values.next ∧ operation.opcode = .phi}) sealing where
  idle := by
    rw [inserts.frame]
    exact sound.idle
  consistent := inserts.consistent sound.consistent
  replaces := inserts.replaces sound.replaces
  laidOut := inserts.laidOut sound.consistent sound.laidOut fits
  flows := inserts.flows sound.flows fun _ =>
    inserts.targetsOf sound.consistent sound.laidOut (.inr notEnding)
  fills := inserts.fills sound.consistent sound.fills notEntry
  strict := inserts.strict sound.consistent sound.strict operands choices

end Graph

end Shader
