import Mathlib
import Shader.Graph.Variables

/-! # Graphs after a change

What the values and blocks of a graph are after each of the changes that building is made of.

Users are only ever described by counting: how often a value is used by another. -/

namespace Shader

/-! ## What a value keeps -/

def Value.shell (value : Value) : Value :=
  { value with args := [], uses := [] }

def Value.core (value : Value) : Value :=
  { value with uses := [] }

theorem Value.core_eq (value : Value) : value.core = { value.shell with args := value.args } := rfl

theorem Value.block_eq_of_shell {left right : Value} (same : left.shell = right.shell) :
    left.block = right.block := by
  have kept := congrArg Value.block same
  exact kept

namespace Graph

variable {value user arg : ValueId} {block : BlockId}

variable {graph : Graph}

def HasValue (graph : Graph) (value : ValueId) : Prop :=
  value.index < graph.values.size

def HasBlock (graph : Graph) (block : BlockId) : Prop :=
  block.index < graph.blocks.size

theorem value_of_not_hasValue (missing : ¬ graph.HasValue value) : graph.value value = default :=
  Arena.get_of_size_le (Nat.le_of_not_lt missing)

theorem hasValue_of_opcode (differs : (graph.value value).opcode ≠ .undef) : graph.HasValue value := by
  by_contra missing
  rw [value_of_not_hasValue missing] at differs
  exact differs rfl

theorem block_of_not_hasBlock (missing : ¬ graph.HasBlock block) : graph.block block = default :=
  Arena.get_of_size_le (Nat.le_of_not_lt missing)

theorem value_modifyValue {changed : ValueId} (has : graph.HasValue changed)
    (change : Value → Value) (value : ValueId) :
    (graph.modifyValue changed change).value value =
      if value = changed then change (graph.value value) else graph.value value :=
  Arena.get_modify has change value

theorem block_modifyBlock {changed : BlockId} (has : graph.HasBlock changed)
    (change : Block → Block) (block : BlockId) :
    (graph.modifyBlock changed change).block block =
      if block = changed then change (graph.block block) else graph.block block :=
  Arena.get_modify has change block

@[simp] theorem hasValue_modifyValue {changed : ValueId} {change : Value → Value} :
    (graph.modifyValue changed change).HasValue value ↔ graph.HasValue value := by
  simp [HasValue, modifyValue]

@[simp] theorem hasBlock_modifyBlock {changed : BlockId} {change : Block → Block} :
    (graph.modifyBlock changed change).HasBlock block ↔ graph.HasBlock block := by
  simp [HasBlock, modifyBlock]

@[simp] theorem hasValue_modifyBlock {change : Block → Block} :
    (graph.modifyBlock block change).HasValue value ↔ graph.HasValue value := Iff.rfl

theorem field_modifyBlock {α : Type} (field : Block → α) {change : Block → Block}
    (changed block : BlockId)
    (same : ∀ node, field (change node) = field node := by exact fun _ => rfl) :
    field ((graph.modifyBlock changed change).block block) = field (graph.block block) := by
  rcases graph.blocks.get_modify_or changed change block with kept | ⟨-, changed⟩
  · exact congrArg field kept
  · exact (congrArg field changed).trans (same _)

theorem HasValue.ne_next (has : graph.HasValue value) : value ≠ graph.values.next := by
  intro same
  rw [same] at has
  exact Nat.lt_irrefl _ has

/-! ## One more operand -/

theorem value_addArg (hasUser : graph.HasValue user)
    (hasArg : graph.HasValue arg) (value : ValueId) : (graph.addArg user arg).value value =
      { graph.value value with
        args := (graph.value value).args ++ if value = user then [arg] else []
        uses := (graph.value value).uses ++ if value = arg then [user] else [] } := by
  rw [addArg, value_modifyValue (by simpa using hasArg), value_modifyValue hasUser]
  split_ifs <;> simp

@[simp] theorem block_addArg (block : BlockId) : (graph.addArg user arg).block block = graph.block block := rfl

@[simp] theorem hasValue_addArg : (graph.addArg user arg).HasValue value ↔ graph.HasValue value := by
  simp [addArg]

theorem size_values_addArg : (graph.addArg user arg).values.size = graph.values.size := by
  simp [addArg, modifyValue]

/-! ## One more value -/

theorem foldl_eq_values (step : Graph → ValueId → Graph)
    (keeps : ∀ graph id, step graph id = { graph with values := (step graph id).values })
    (ids : List ValueId) (graph : Graph) :
    ids.foldl step graph = { graph with values := (ids.foldl step graph).values } := by
  induction ids generalizing graph with
  | nil => rfl
  | cons id rest ih => rw [List.foldl_cons, ih, keeps]

theorem hasValue_foldl_addArg (args : List ValueId) (graph : Graph) :
    (args.foldl (fun graph arg => graph.addArg user arg) graph).HasValue value ↔ graph.HasValue value := by
  induction args generalizing graph with
  | nil => rfl
  | cons arg rest ih =>
    rw [List.foldl_cons, ih, hasValue_addArg]

theorem value_foldl_addArg (args : List ValueId) (graph : Graph)
    (hasUser : graph.HasValue user) (hasArgs : ∀ arg ∈ args, graph.HasValue arg)
    (fresh : user ∉ args) (value : ValueId) :
    (args.foldl (fun graph arg => graph.addArg user arg) graph).value value =
      { graph.value value with
        args := (graph.value value).args ++ if value = user then args else []
        uses := (graph.value value).uses ++ List.replicate (args.count value) user } := by
  induction args generalizing graph with
  | nil => simp
  | cons arg rest ih =>
    have hasArg := hasArgs arg List.mem_cons_self
    have others : ∀ other ∈ rest, (graph.addArg user arg).HasValue other := fun other found =>
      hasValue_addArg.2 (hasArgs other (List.mem_cons_of_mem _ found))
    rw [List.foldl_cons, ih _ (hasValue_addArg.2 hasUser) others
      fun found => fresh (List.mem_cons_of_mem _ found), value_addArg hasUser hasArg]
    by_cases isArg : value = arg
    · subst isArg
      by_cases isUser : value = user
      · exact absurd List.mem_cons_self (isUser ▸ fresh)
      · simp [isUser, List.replicate_succ]
    · have differs : arg ≠ value := Ne.symm isArg
      by_cases isUser : value = user
      · subst isUser
        simp [isArg, differs]
      · simp [isUser, isArg, differs]

/-- The graph with one more value, which stands between two parts of the values of a block. -/
def insertValue (graph : Graph) (block : BlockId) (operation : Operation)
    (left right : List ValueId) : Graph :=
  (graph.allocate block operation).2.modifyBlock block fun node =>
    { node with
      values := left ++ graph.values.next :: right
      ending := if operation.opcode.isEnding then some graph.values.next else node.ending }

theorem allocate_eq (block : BlockId) (operation : Operation) : (graph.allocate block operation).2 =
      { graph with values := (graph.allocate block operation).2.values } := by
  simp only [allocate]
  rw [foldl_eq_values _ fun _ _ => rfl]

theorem value_append (value : Value) (id : ValueId) :
    ({ graph with values := graph.values.append value } : Graph).value id =
      if id = graph.values.next then value else graph.value id :=
  graph.values.get_append value id

theorem hasValue_append (value : Value) (id : ValueId) :
    ({ graph with values := graph.values.append value } : Graph).HasValue id ↔
      graph.HasValue id ∨ id = graph.values.next :=
  Arena.lt_size_append

theorem hasValue_allocate (block : BlockId) (operation : Operation) (id : ValueId) :
    (graph.allocate block operation).2.HasValue id ↔ graph.HasValue id ∨ id = graph.values.next := by
  rw [allocate, hasValue_foldl_addArg, hasValue_append]

theorem value_allocate (block : BlockId) (operation : Operation)
    (hasArgs : ∀ arg ∈ operation.args, graph.HasValue arg) (id : ValueId) :
    (graph.allocate block operation).2.value id =
      if id = graph.values.next then { operation with block }
      else
        { graph.value id with
          uses := (graph.value id).uses ++ List.replicate (operation.args.count id) graph.values.next } := by
  have fresh : graph.values.next ∉ operation.args := fun found =>
    (hasArgs _ found).ne_next rfl
  rw [allocate, value_foldl_addArg _ _ ((hasValue_append _ _).2 (.inr rfl))
    (fun arg found => (hasValue_append _ _).2 (.inl (hasArgs arg found))) fresh, value_append]
  by_cases isNew : id = graph.values.next
  · subst isNew
    simp [List.count_eq_zero_of_not_mem fresh]
  · simp [isNew]

section InsertValue

variable {block : BlockId} {operation : Operation} {left right : List ValueId}

theorem hasValue_insertValue {id : ValueId} : (graph.insertValue block operation left right).HasValue id ↔
      graph.HasValue id ∨ id = graph.values.next := by
  rw [insertValue, hasValue_modifyBlock, hasValue_allocate]

theorem value_insertValue (hasArgs : ∀ arg ∈ operation.args, graph.HasValue arg) (id : ValueId) :
    (graph.insertValue block operation left right).value id =
      if id = graph.values.next then { operation with block }
      else
        { graph.value id with
          uses := (graph.value id).uses ++ List.replicate (operation.args.count id) graph.values.next } := by
  rw [insertValue, value_modifyBlock, value_allocate _ _ hasArgs]

theorem block_insertValue (has : graph.HasBlock block) (id : BlockId) :
    (graph.insertValue block operation left right).block id =
      if id = block then
        { graph.block id with
          values := left ++ graph.values.next :: right
          ending :=
            if operation.opcode.isEnding then some graph.values.next
            else (graph.block id).ending }
      else graph.block id := by
  rw [insertValue, allocate_eq]
  exact block_modifyBlock has _ _

theorem insertValue_eq : graph.insertValue block operation left right =
      { graph with
        values := (graph.insertValue block operation left right).values
        blocks := (graph.insertValue block operation left right).blocks } := by
  rw [insertValue, allocate_eq]
  rfl

@[simp] theorem size_blocks_insertValue :
    (graph.insertValue block operation left right).blocks.size = graph.blocks.size := by
  rw [insertValue, allocate_eq]
  simp [modifyBlock]

@[simp] theorem size_values_insertValue :
    (graph.insertValue block operation left right).values.size = graph.values.size + 1 := by
  have old := @hasValue_insertValue graph block operation left right ⟨graph.values.size⟩
  have new := @hasValue_insertValue graph block operation left right ⟨graph.values.size + 1⟩
  simp [HasValue, Arena.next] at old new
  omega

end InsertValue

/-! ## Replacing a value -/

section Replace

variable {user value : ValueId}

variable {old new : ValueId}

def exchange (old new value : ValueId) : ValueId :=
  if value = old then new else value

theorem count_map_exchange_old (differs : old ≠ new) (args : List ValueId) :
    (args.map (exchange old new)).count old = 0 := by
  rw [List.count_eq_zero, List.mem_map]
  rintro ⟨arg, -, renamed⟩
  unfold exchange at renamed
  split_ifs at renamed with same
  · exact differs renamed.symm
  · exact same renamed

theorem count_map_exchange_new (differs : old ≠ new) (args : List ValueId) :
    (args.map (exchange old new)).count new = args.count new + args.count old := by
  induction args with
  | nil => rfl
  | cons arg rest ih =>
    simp only [List.map_cons, List.count_cons, ih, exchange]
    by_cases isOld : arg = old
    · subst isOld
      simp [differs]
      omega
    · simp [isOld]
      omega

theorem count_map_exchange_other {other : ValueId} (isOld : other ≠ old) (isNew : other ≠ new)
    (args : List ValueId) : (args.map (exchange old new)).count other = args.count other := by
  induction args with
  | nil => rfl
  | cons arg rest ih =>
    simp only [List.map_cons, List.count_cons, ih, exchange]
    by_cases same : arg = old
    · subst same
      simp [Ne.symm isOld, Ne.symm isNew]
    · simp [same]

theorem map_exchange_of_not_mem {args : List ValueId} (absent : old ∉ args) :
    args.map (exchange old new) = args := by
  conv_rhs => rw [← List.map_id args]
  refine List.map_congr_left fun arg found => if_neg ?_
  rintro rfl
  exact absent found

theorem hasValue_moveUses : (graph.moveUses old new user).HasValue value ↔ graph.HasValue value := by
  simp [moveUses]

theorem value_moveUses (hasUser : graph.HasValue user)
    (hasNew : graph.HasValue new) (value : ValueId) : (graph.moveUses old new user).value value =
      { graph.value value with
        args :=
          if value = user then (graph.value value).args.map (exchange old new)
          else (graph.value value).args
        uses := (graph.value value).uses ++
          if value = new then List.replicate ((graph.value user).args.count old) user
          else [] } := by
  rw [moveUses, value_modifyValue (by simpa using hasNew), value_modifyValue hasUser]
  split_ifs <;> simp [exchange]

theorem foldl_moveUses (old new : ValueId) (users : List ValueId) (graph : Graph) (distinct : users.Nodup)
    (hasUsers : ∀ user ∈ users, graph.HasValue user) (hasNew : graph.HasValue new) :
    let moved := users.foldl (fun graph user => graph.moveUses old new user) graph
    (∀ value, moved.HasValue value ↔ graph.HasValue value) ∧
      (∀ value, (moved.value value).shell = (graph.value value).shell) ∧
      (∀ value, (moved.value value).args =
        if value ∈ users then (graph.value value).args.map (exchange old new)
        else (graph.value value).args) ∧
      ∀ user value, (moved.value value).uses.count user = (graph.value value).uses.count user +
          if value = new ∧ user ∈ users then (graph.value user).args.count old else 0 := by
  induction users generalizing graph with
  | nil => simp
  | cons first rest ih =>
    obtain ⟨notAgain, distinct⟩ := List.nodup_cons.1 distinct
    have hasFirst := hasUsers first List.mem_cons_self
    obtain ⟨has, shell, args, uses⟩ := ih (graph.moveUses old new first) distinct
      (fun user found => hasValue_moveUses.2 (hasUsers user (List.mem_cons_of_mem _ found)))
      (hasValue_moveUses.2 hasNew)
    refine ⟨fun value => ?_, fun value => ?_, fun value => ?_, fun user value => ?_⟩
    · rw [List.foldl_cons, has, hasValue_moveUses]
    · rw [List.foldl_cons, shell, value_moveUses hasFirst hasNew]
      rfl
    · rw [List.foldl_cons, args, value_moveUses hasFirst hasNew]
      by_cases isFirst : value = first
      · subst isFirst
        simp [notAgain]
      · simp [isFirst]
    · rw [List.foldl_cons, uses, value_moveUses hasFirst hasNew]
      by_cases isNew : value = new
      · by_cases isFirst : user = first
        · subst isFirst
          simp [isNew, notAgain]
        · simp [isNew, isFirst, value_moveUses hasFirst hasNew, List.count_replicate, Ne.symm isFirst]
      · simp [isNew]

/-- Operands and uses are two views of the same edges, each counted as often as it is there. -/
def EdgesAgree (graph : Graph) : Prop :=
  ∀ user value, (graph.value user).args.count value = (graph.value value).uses.count user

theorem EdgesAgree.mem_uses_iff (agree : graph.EdgesAgree) :
    user ∈ (graph.value value).uses ↔ value ∈ (graph.value user).args := by
  rw [← List.count_pos_iff, ← List.count_pos_iff, agree]

theorem hasValue_of_mem_args (used : value ∈ (graph.value user).args) : graph.HasValue user := by
  by_contra missing
  rw [value_of_not_hasValue missing] at used
  exact List.not_mem_nil used

theorem hasValue_of_mem_uses (used : user ∈ (graph.value value).uses) : graph.HasValue value := by
  by_contra missing
  rw [value_of_not_hasValue missing] at used
  exact List.not_mem_nil used

theorem mem_otherUsers (agree : graph.EdgesAgree) :
    user ∈ graph.otherUsers value ↔ value ∈ (graph.value user).args ∧ user ≠ value := by
  simp [otherUsers, List.mem_eraseDups, agree.mem_uses_iff]

theorem nodup_eraseDups (items : List ValueId) : items.eraseDups.Nodup := by
  induction size : items.length using Nat.strong_induction_on generalizing items with
  | _ bound ih =>
    cases items with
    | nil => exact List.nodup_nil
    | cons item rest =>
      rw [List.eraseDups_cons, List.nodup_cons]
      have shorter : (rest.filter fun other => !other == item).length < bound := by
        have := rest.length_filter_le fun other => !other == item
        simp only [List.length_cons] at size
        omega
      exact ⟨by simp [List.mem_eraseDups], ih _ shorter _ rfl⟩

theorem replaceUses_spec (agree : graph.EdgesAgree) (hasOld : graph.HasValue old)
    (hasNew : graph.HasValue new) (differs : old ≠ new) :
    (∀ value, (graph.replaceUses old new).HasValue value ↔ graph.HasValue value) ∧
      (∀ value, ((graph.replaceUses old new).value value).shell = (graph.value value).shell) ∧
      (∀ value, ((graph.replaceUses old new).value value).args =
        if value = old then (graph.value value).args
        else (graph.value value).args.map (exchange old new)) ∧
      (∀ user ∈ ((graph.replaceUses old new).value old).uses, user = old) ∧
      (graph.replaceUses old new).EdgesAgree := by
  have users : ∀ user ∈ graph.otherUsers old, graph.HasValue user := fun user found =>
    hasValue_of_mem_args ((mem_otherUsers agree).1 found).1
  obtain ⟨has, shell, args, uses⟩ := foldl_moveUses old new (graph.otherUsers old) graph
    (nodup_eraseDups _) users hasNew
  generalize moving : (graph.otherUsers old).foldl
    (fun graph user => graph.moveUses old new user) graph = moved at has shell args uses
  have reads (value : ValueId) : (graph.replaceUses old new).value value =
      if value = old then
        { moved.value value with uses := (moved.value value).uses.filter (· == old) }
      else moved.value value := by
    rw [replaceUses, moving]
    exact value_modifyValue ((has old).2 hasOld) _ _
  -- a user other than `old` is moved exactly if it has `old` as an operand
  have renamed (value : ValueId) : ((graph.replaceUses old new).value value).args =
      if value = old then (graph.value value).args
      else (graph.value value).args.map (exchange old new) := by
    rw [reads]
    by_cases isOld : value = old
    · simp [isOld, args, mem_otherUsers agree]
    · by_cases used : old ∈ (graph.value value).args
      · simp [isOld, args, mem_otherUsers agree, used]
      · simp [isOld, args, mem_otherUsers agree, used, map_exchange_of_not_mem used]
  refine ⟨fun value => ?_, fun value => ?_, renamed, fun user => ?_, fun user value => ?_⟩
  · rw [← has, replaceUses, moving]
    exact hasValue_modifyValue
  · rw [reads, ← shell]
    split_ifs <;> rfl
  · rw [reads, if_pos rfl]
    simp
  · rw [renamed, reads]
    have counted := uses user value
    have before := agree user value
    have beforeOld := agree user old
    simp only [mem_otherUsers agree] at counted
    by_cases userOld : user = old
    · subst userOld
      by_cases valueOld : value = user
      · subst valueOld
        simp_all [List.count_filter]
      · simp_all
    · rw [if_neg userOld]
      by_cases valueOld : value = old
      · subst valueOld
        rw [count_map_exchange_old differs, if_pos rfl]
        refine (List.count_eq_zero.2 ?_).symm
        simp [userOld]
      · rw [if_neg valueOld]
        by_cases valueNew : value = new
        · subst valueNew
          rw [count_map_exchange_new differs, counted]
          by_cases used : old ∈ (graph.value user).args
          · simp [used, userOld, before]
          · simp [used, before, List.count_eq_zero.2 used]
        · rw [count_map_exchange_other valueOld valueNew, counted]
          simp [valueNew, before]

theorem replaceUses_eq : graph.replaceUses old new =
      { graph with
        values := (graph.replaceUses old new).values
        blocks := graph.blocks.map fun block =>
          { block with bindings := block.bindings.mapValues (exchange old new) }
        slots := graph.slots.mapValues (exchange old new) } := by
  rw [replaceUses, foldl_eq_values _ fun _ _ => rfl]
  rfl

end Replace

theorem block_mapBindings (change : ValueId → ValueId) (block : BlockId) :
    ({ graph with
      blocks := graph.blocks.map fun block =>
        { block with bindings := block.bindings.mapValues change } } : Graph).block block =
      { graph.block block with
        bindings := (graph.block block).bindings.mapValues change } := by
  simp only [Graph.block, Arena.get, Arena.get?, Arena.map, Array.getElem?_map]
  cases graph.blocks.items[block.index]? <;> rfl

/-! ## Removing a value -/

section Remove

variable {removed : ValueId}

def releaseUses (graph : Graph) (removed : ValueId) (args : List ValueId) : Graph :=
  args.foldl (fun graph arg =>
    graph.modifyValue arg fun node => { node with uses := node.uses.erase removed }) graph

theorem releaseUses_spec (removed : ValueId) (args : List ValueId) (graph : Graph)
    (hasArgs : ∀ arg ∈ args, graph.HasValue arg) :
    let released := graph.releaseUses removed args
    (∀ value, released.HasValue value ↔ graph.HasValue value) ∧
      (∀ value, (released.value value).core = (graph.value value).core) ∧
      ∀ user value, (released.value value).uses.count user =
        (graph.value value).uses.count user - if user = removed then args.count value else 0 := by
  induction args generalizing graph with
  | nil => simp [releaseUses]
  | cons arg rest ih =>
    have hasArg := hasArgs arg List.mem_cons_self
    obtain ⟨has, core, uses⟩ := ih
      (graph.modifyValue arg fun node => { node with uses := node.uses.erase removed })
      fun other found => hasValue_modifyValue.2 (hasArgs other (List.mem_cons_of_mem _ found))
    refine ⟨fun value => (has value).trans hasValue_modifyValue, fun value => ?_, fun user value => ?_⟩
    · refine (core value).trans ?_
      rw [value_modifyValue hasArg]
      split_ifs <;> rfl
    · refine (uses user value).trans ?_
      rw [value_modifyValue hasArg]
      by_cases isArg : value = arg
      · subst isArg
        by_cases isRemoved : user = removed
        · subst isRemoved
          simp only [↓reduceIte, List.count_erase_self, List.count_cons_self]
          omega
        · simp [isRemoved, List.count_erase_of_ne isRemoved]
      · simp [isArg, Ne.symm isArg]

theorem removeValue_unfold : graph.removeValue removed =
      (((graph.modifyValue removed fun node => { node with args := [] }).releaseUses removed
        (graph.value removed).args).modifyValue removed fun node =>
          { node with uses := [], removed := true }).modifyBlock (graph.value removed).block fun block =>
              { block with
                values := block.values.filter (· != removed)
                ending := if block.ending = some removed then none else block.ending } := rfl

theorem removeValue_spec (agree : graph.EdgesAgree) (has : graph.HasValue removed)
    (unused : ∀ user ∈ (graph.value removed).uses, user = removed) :
    (∀ value, (graph.removeValue removed).HasValue value ↔ graph.HasValue value) ∧ (∀ value, value ≠ removed →
        ((graph.removeValue removed).value value).core = (graph.value value).core) ∧
      (graph.removeValue removed).value removed =
        { (graph.value removed).shell with removed := true } ∧
      (graph.removeValue removed).EdgesAgree := by
  have hasArgs : ∀ arg ∈ (graph.value removed).args,
      (graph.modifyValue removed fun node => { node with args := [] }).HasValue arg :=
    fun arg found => hasValue_modifyValue.2 (hasValue_of_mem_uses (agree.mem_uses_iff.2 found))
  obtain ⟨released, core, uses⟩ := releaseUses_spec removed _ _ hasArgs
  generalize releasing : (graph.modifyValue removed fun node =>
    { node with args := [] }).releaseUses removed (graph.value removed).args = between
    at released core uses
  have reads (value : ValueId) : (graph.removeValue removed).value value =
      if value = removed then { between.value value with uses := [], removed := true }
      else between.value value := by
    rw [removeValue_unfold, releasing, value_modifyBlock]
    exact value_modifyValue ((released _).2 (hasValue_modifyValue.2 has)) _ _
  have others (value : ValueId) (differs : value ≠ removed) :
      ((graph.removeValue removed).value value).core = (graph.value value).core := by
    rw [reads, if_neg differs, core, value_modifyValue has, if_neg differs]
  have itself : (graph.removeValue removed).value removed =
      { (graph.value removed).shell with removed := true } := by
    have kept := core removed
    rw [value_modifyValue has, if_pos rfl] at kept
    rw [reads, if_pos rfl]
    simp only [Value.core, Value.shell, Value.mk.injEq] at kept ⊢
    simp [kept]
  refine ⟨fun value => ?_, others, itself, fun user value => ?_⟩
  · refine Iff.trans ?_ ((released value).trans hasValue_modifyValue)
    rw [← releasing]
    exact hasValue_modifyBlock.trans hasValue_modifyValue
  · have counted := uses user value
    rw [value_modifyValue has] at counted
    have before := agree user value
    by_cases isUser : user = removed
    · subst isUser
      rw [itself, reads]
      by_cases isValue : value = user
      · simp [isValue, Value.shell]
      · simp only [isValue, ↓reduceIte] at counted ⊢
        rw [counted, ← before]
        simp [Value.shell]
    · have sameArgs : ((graph.removeValue removed).value user).args = (graph.value user).args :=
        congrArg (fun value => value.args) (others user isUser)
      rw [sameArgs, before, reads]
      by_cases isValue : value = removed
      · subst isValue
        rw [if_pos rfl]
        exact List.count_eq_zero.2 fun found => isUser (unused user found)
      · simp [isValue, isUser] at counted ⊢
        exact counted.symm

theorem removeValue_eq : graph.removeValue removed =
      { graph with
        values := (graph.removeValue removed).values
        blocks := graph.blocks.modify (graph.value removed).block fun block =>
          { block with
            values := block.values.filter (· != removed)
            ending := if block.ending = some removed then none else block.ending } } := by
  rw [removeValue_unfold, releaseUses, foldl_eq_values _ fun _ _ => rfl]
  rfl

end Remove

/-! ## Giving a phi up -/

section Retire

variable {phi same : ValueId}

/-- The graph in which a phi is given up for a value: its users and variables get the value, and then
it is removed. -/
def retire (graph : Graph) (phi same : ValueId) : Graph :=
  ({ (({ graph with isEditing := true } : Graph).replaceUses phi same).removeValue phi with
    isEditing := false } : Graph).modifyValue phi fun value =>
      { value with replacedBy := some same }

variable (agree : graph.EdgesAgree) (hasPhi : graph.HasValue phi) (hasSame : graph.HasValue same)
  (differs : phi ≠ same)

include agree hasPhi hasSame differs

theorem retire_spec : (∀ value, (graph.retire phi same).HasValue value ↔ graph.HasValue value) ∧
      (∀ value, value ≠ phi → ((graph.retire phi same).value value).core =
        { (graph.value value).core with
          args := (graph.value value).args.map (exchange phi same) }) ∧
      (graph.retire phi same).value phi =
        { (graph.value phi).shell with removed := true, replacedBy := some same } ∧
      (graph.retire phi same).EdgesAgree := by
  have opened : ({ graph with isEditing := true } : Graph).EdgesAgree := agree
  obtain ⟨hasReplaced, shell, args, unused, agreeReplaced⟩ := replaceUses_spec opened hasPhi hasSame differs
  unfold retire
  generalize ({ graph with isEditing := true } : Graph).replaceUses phi same = replaced
    at hasReplaced shell args unused agreeReplaced ⊢
  obtain ⟨hasRemoved, core, gone, agreeRemoved⟩ :=
    removeValue_spec agreeReplaced ((hasReplaced phi).2 hasPhi) unused
  generalize replaced.removeValue phi = removed at hasRemoved core gone agreeRemoved ⊢
  have hasGone : ({ removed with isEditing := false } : Graph).HasValue phi :=
    (hasRemoved phi).2 ((hasReplaced phi).2 hasPhi)
  refine ⟨fun value => ?_, fun value differs => ?_, ?_, fun user value => ?_⟩
  · exact (hasValue_modifyValue.trans (hasRemoved value)).trans (hasReplaced value)
  · rw [value_modifyValue hasGone, if_neg differs]
    have sameShell : (replaced.value value).shell = (graph.value value).shell := shell value
    have sameArgs : (replaced.value value).args =
        (graph.value value).args.map (exchange phi same) := (args value).trans (if_neg differs)
    refine (core value differs).trans ?_
    rw [Value.core_eq, sameShell, sameArgs]
    rfl
  · rw [value_modifyValue hasGone, if_pos rfl]
    have sameShell : (replaced.value phi).shell = (graph.value phi).shell := shell phi
    have erased : ({ removed with isEditing := false } : Graph).value phi =
        { (replaced.value phi).shell with removed := true } := gone
    rw [erased, sameShell]
  · have counted : (removed.value user).args.count value = (removed.value value).uses.count user :=
      agreeRemoved user value
    rw [value_modifyValue hasGone, value_modifyValue hasGone]
    split_ifs <;> exact counted

theorem retire_eq : graph.retire phi same =
      { graph with
        values := (graph.retire phi same).values
        blocks := (graph.blocks.map fun block =>
          { block with bindings := block.bindings.mapValues (exchange phi same) }).modify
            (graph.value phi).block fun block =>
              { block with
                values := block.values.filter (· != phi)
                ending := if block.ending = some phi then none else block.ending }
        slots := graph.slots.mapValues (exchange phi same)
        isEditing := false } := by
  have opened : ({ graph with isEditing := true } : Graph).EdgesAgree := agree
  obtain ⟨-, shell, -⟩ := replaceUses_spec opened hasPhi hasSame differs
  have sameBlock : ((({ graph with isEditing := true } : Graph).replaceUses phi same).value
      phi).block = (graph.value phi).block := Value.block_eq_of_shell (shell phi)
  rw [retire, removeValue_eq, sameBlock, replaceUses_eq]
  rfl

theorem block_retire (hasBlock : graph.HasBlock (graph.value phi).block)
    (elsewhere : ∀ block, phi ∈ (graph.block block).values → block = (graph.value phi).block)
    (notEnding : ∀ block, (graph.block block).ending ≠ some phi) (block : BlockId) :
    (graph.retire phi same).block block =
      { graph.block block with
        values := (graph.block block).values.filter (· != phi)
        bindings := (graph.block block).bindings.mapValues (exchange phi same) } := by
  have hasMapped : ({ graph with
      blocks := graph.blocks.map fun block =>
        { block with bindings := block.bindings.mapValues (exchange phi same) } } :
      Graph).HasBlock (graph.value phi).block := by
    simpa [HasBlock, Arena.map, Arena.size] using hasBlock
  have reads := block_modifyBlock hasMapped (fun node =>
    { node with
      values := node.values.filter (· != phi)
      ending := if node.ending = some phi then none else node.ending }) block
  rw [block_mapBindings] at reads
  have blocks := congrArg Graph.blocks (retire_eq agree hasPhi hasSame differs)
  rw [Graph.block, blocks]
  refine Eq.trans reads ?_
  by_cases home : block = (graph.value phi).block
  · simp [home, notEnding]
  · rw [if_neg home, List.filter_eq_self.2]
    intro value found
    simp only [bne_iff_ne]
    rintro rfl
    exact home (elsewhere block found)

end Retire

end Graph

end Shader
