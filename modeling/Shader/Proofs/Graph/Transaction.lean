import Shader.Graph.Consistency
import Shader.Proofs.Typing.Variables

/-! # Edits keep graphs tidy

What an edit leaves behind, whatever is done in it and in whatever order.

* `Graph.Tidy` says that operands and users agree, that values which were given up have neither, and
  that every other value stands once in its block.
* `Edit.Reaches` are the states of an edit, with a log of what was done in it.
* `Edit.Prepared` is what holds while the edit is open: values are made and users are changed, but
  nothing is placed or given up.
* `Graph.tidy_of_finishEdit` says what holds when it is finished. -/

namespace Shader

/-! ## Placing before an anchor -/

section Placing

variable {α : Type} {anchor other item : α} {items placed : List α}

theorem perm_insertBefore [DecidableEq α] : (insertBefore anchor item items).Perm (item :: items) := by
  conv_rhs => rw [← List.takeWhile_append_dropWhile (p := (· != anchor)) (l := items)]
  exact List.perm_middle

theorem mem_insertBefore [DecidableEq α] :
    other ∈ insertBefore anchor item items ↔ other = item ∨ other ∈ items :=
  perm_insertBefore.mem_iff.trans List.mem_cons

theorem sublist_insertBefore [DecidableEq α] (anchor item : α) (items : List α) :
    items.Sublist (insertBefore anchor item items) := by
  conv_lhs => rw [← List.takeWhile_append_dropWhile (p := (· != anchor)) (l := items)]
  exact (List.Sublist.refl _).append (List.sublist_cons_self _ _)

theorem insertBefore_append_of_notMem [DecidableEq α] {front : List α} (missing : anchor ∉ front)
    (back : List α) : insertBefore anchor item (front ++ back) = front ++ insertBefore anchor item back := by
  have differs : ∀ other ∈ front, (other != anchor) = true := fun other found => by
    rw [bne_iff_ne]
    rintro rfl
    exact missing found
  rw [insertBefore, List.takeWhile_append_of_pos differs, List.dropWhile_append_of_pos differs,
    List.append_assoc, insertBefore]

theorem insertBefore_append_of_mem [DecidableEq α] {front : List α} (found : anchor ∈ front)
    (back : List α) : insertBefore anchor item (front ++ back) = insertBefore anchor item front ++ back := by
  obtain ⟨first, last, rfl, missing⟩ := List.eq_append_cons_of_mem found
  rw [List.append_assoc, insertBefore_append_of_notMem missing, insertBefore_append_of_notMem missing]
  simp [insertBefore]

/-- Some items stand in front of the first occurrence of an anchor, if there are any. -/
def Leads (placed : List α) (anchor : α) (items : List α) : Prop :=
  placed = [] ∨ ∃ front back, items = front ++ anchor :: back ∧ anchor ∉ front ∧ placed.Sublist front

theorem Leads.sublist (leads : Leads placed anchor items) (some : placed ≠ []) :
    (placed ++ [anchor]).Sublist items := by
  obtain ⟨front, back, rfl, -, inside⟩ := leads.resolve_left some
  exact inside.append (List.singleton_sublist.2 List.mem_cons_self)

theorem Leads.insertBefore_self [DecidableEq α] (leads : Leads placed anchor items)
    (found : anchor ∈ items) (new : item ∉ items) : Leads (placed ++ [item]) anchor (insertBefore anchor item items) := by
  have parts : ∃ front back, items = front ++ anchor :: back ∧ anchor ∉ front ∧ placed.Sublist front := by
    rcases leads with rfl | parts
    · obtain ⟨front, back, split, missing⟩ := List.eq_append_cons_of_mem found
      exact ⟨front, back, split, missing, List.nil_sublist _⟩
    · exact parts
  obtain ⟨front, back, rfl, missing, inside⟩ := parts
  refine .inr ⟨front ++ [item], back, ?_, ?_, inside.append (.refl _)⟩
  · rw [insertBefore_append_of_notMem missing]
    simp [insertBefore]
  · rw [List.mem_append, List.mem_singleton]
    rintro (inFront | rfl)
    · exact missing inFront
    · exact new (by simp)

theorem Leads.insertBefore_other [DecidableEq α] (leads : Leads placed anchor items)
    (differs : other ≠ anchor) (new : item ∉ items) : Leads placed anchor (insertBefore other item items) := by
  refine leads.imp_right ?_
  rintro ⟨front, back, rfl, missing, inside⟩
  by_cases inFront : other ∈ front
  · refine ⟨insertBefore other item front, back, insertBefore_append_of_mem inFront _, ?_,
      inside.trans (sublist_insertBefore _ _ _)⟩
    rw [mem_insertBefore]
    rintro (rfl | found)
    · exact new (by simp)
    · exact missing found
  · have apart : other ∉ front ++ [anchor] := by simp [inFront, differs]
    refine ⟨front, insertBefore other item back, ?_, missing, inside⟩
    rw [List.append_cons, insertBefore_append_of_notMem apart, ← List.append_cons]

end Placing

namespace Graph

variable {graph after : Graph} {value removed : ValueId}

/-! ## Tidy graphs -/

/-- Edges agree, values that were given up have none, and all others stand once in their blocks. -/
structure Tidy (graph : Graph) : Prop where
  edges : graph.EdgesAgree
  gone : ∀ value, (graph.value value).removed = true →
    (graph.value value).args = [] ∧ (graph.value value).uses = []
  made : ∀ block, ∀ value ∈ (graph.block block).values, graph.HasValue value
  once : ∀ value, graph.IsLive value → (graph.block (graph.value value).block).values.count value = 1

theorem EdgesAgree.uses_eq_nil (agree : graph.EdgesAgree)
    (unused : ∀ user, value ∉ (graph.value user).args) : (graph.value value).uses = [] :=
  List.eq_nil_iff_forall_not_mem.2 fun user found => unused user (agree.mem_uses_iff.1 found)

theorem Tidy.removed_eq_false (tidy : graph.Tidy) {user : ValueId}
    (used : value ∈ (graph.value user).args) :
    (graph.value value).removed = false ∧ (graph.value user).removed = false := by
  rw [← Bool.not_eq_true, ← Bool.not_eq_true]
  refine ⟨fun gone => ?_, fun gone => ?_⟩
  · have uses := tidy.edges.mem_uses_iff.2 used
    rw [(tidy.gone value gone).2] at uses
    exact List.not_mem_nil uses
  · rw [(tidy.gone user gone).1] at used
    exact List.not_mem_nil used

theorem Consistent.tidy (consistent : graph.Consistent) : graph.Tidy where
  edges := consistent.edges
  gone value removed := ⟨consistent.removed_args value removed, consistent.removed_uses value removed⟩
  made block value found := (consistent.listed block value found).1
  once value live := by rw [consistent.placed value _ live, if_pos rfl]

theorem Tidy.inconsistency?_eq_none (tidy : graph.Tidy) : graph.inconsistency? = none := by
  refine List.findSome?_eq_none_iff.2 fun value _ => Option.or_eq_none_iff.2 ⟨?_, ?_⟩
  · refine List.findSome?_eq_none_iff.2 fun operand used => ?_
    simp [operandInconsistency?, (tidy.removed_eq_false used).1, tidy.edges value operand]
  · refine List.findSome?_eq_none_iff.2 fun user uses => ?_
    have used := tidy.edges.mem_uses_iff.1 uses
    simp [userInconsistency?, (tidy.removed_eq_false used).2, used]

/-! ## Carrying an edit out -/

/-- The values that some insertions place in front of an anchor of a block, in their order. -/
def insertedAt (inserts : List PendingInsert) (block : BlockId) (anchor : ValueId) : List ValueId :=
  (inserts.filter fun pending => pending.block = block ∧ pending.before = anchor).map PendingInsert.value

theorem block_insert {pending : PendingInsert} (inserts : graph.insert pending = .ok after)
    (block : BlockId) :
    pending.before ∈ (graph.block pending.block).values ∧ after.block block =
      if block = pending.block then
        { graph.block block with
          values := insertBefore pending.before pending.value (graph.block block).values }
      else graph.block block := by
  obtain ⟨anchored, rfl⟩ := insert_eq_ok inserts
  have present : graph.HasBlock pending.block := by
    by_contra missing
    rw [block_of_not_hasBlock missing] at anchored
    exact List.not_mem_nil anchored
  exact ⟨anchored, block_modifyBlock present _ block⟩

theorem foldlM_insert {inserts : List PendingInsert} (placed : BlockId → ValueId → List ValueId)
    (distinct : (inserts.map PendingInsert.value).Nodup)
    (new : ∀ pending ∈ inserts, ∀ block, pending.value ∉ (graph.block block).values)
    (leads : ∀ block anchor, Leads (placed block anchor) anchor (graph.block block).values)
    (runs : inserts.foldlM Graph.insert graph = .ok after) :
    after.values = graph.values ∧ ∀ block,
      (after.block block).values.Perm ((inserts.filter (·.block = block)).map PendingInsert.value ++
        (graph.block block).values) ∧
      (graph.block block).values.Sublist (after.block block).values ∧
      ∀ anchor, Leads (placed block anchor ++ insertedAt inserts block anchor) anchor
        (after.block block).values := by
  induction inserts generalizing graph placed with
  | nil =>
    cases runs
    refine ⟨rfl, fun block => ⟨.refl _, .refl _, fun anchor => ?_⟩⟩
    simpa [insertedAt] using leads block anchor
  | cons pending rest ih =>
    obtain ⟨middle, inserts, runs⟩ := foldlM_cons_eq_ok runs
    have reads (block : BlockId) : (middle.block block).values = if block = pending.block then
        insertBefore pending.before pending.value (graph.block block).values
        else (graph.block block).values := by
      rw [(block_insert inserts block).2]
      split_ifs <;> rfl
    have anchored := (block_insert inserts pending.block).1
    rw [List.map_cons, List.nodup_cons] at distinct
    have unplaced := new pending List.mem_cons_self
    have later (other : PendingInsert) (found : other ∈ rest) (block : BlockId) :
        other.value ∉ (middle.block block).values := by
      have before := new other (List.mem_cons_of_mem _ found) block
      rw [reads]
      split_ifs
      · rw [mem_insertBefore]
        rintro (same | found)
        · exact distinct.1 (same ▸ List.mem_map_of_mem found)
        · exact before found
      · exact before
    have leadsOn (block : BlockId) (anchor : ValueId) :
        Leads (placed block anchor ++ insertedAt [pending] block anchor) anchor
          (middle.block block).values := by
      rw [reads]
      by_cases isBlock : pending.block = block
      · subst isBlock
        rw [if_pos rfl]
        by_cases isAnchor : pending.before = anchor
        · subst isAnchor
          simpa [insertedAt] using (leads _ _).insertBefore_self anchored (unplaced _)
        · simpa [insertedAt, isAnchor] using (leads _ _).insertBefore_other isAnchor (unplaced _)
      · simpa [insertedAt, isBlock, Ne.symm isBlock] using leads block anchor
    obtain ⟨sameValues, blocks⟩ := ih
      (fun block anchor => placed block anchor ++ insertedAt [pending] block anchor)
      distinct.2 later leadsOn runs
    refine ⟨sameValues.trans (by rw [(insert_eq_ok inserts).2]; rfl), fun block => ?_⟩
    obtain ⟨perm, sublist, leads⟩ := blocks block
    refine ⟨perm.trans ?_, List.Sublist.trans ?_ sublist, fun anchor => ?_⟩
    · rw [reads]
      by_cases isBlock : pending.block = block
      · simpa [isBlock] using (perm_insertBefore.append_left _).trans List.perm_middle
      · simp [isBlock, Ne.symm isBlock]
    · rw [reads]
      split_ifs
      · exact sublist_insertBefore _ _ _
      · exact .refl _
    · have joined : insertedAt (pending :: rest) block anchor =
          insertedAt [pending] block anchor ++ insertedAt rest block anchor := by
        rw [insertedAt, ← List.singleton_append, List.filter_append, List.map_append]
        rfl
      rw [joined, ← List.append_assoc]
      exact leads anchor

theorem block_removeValue (block : BlockId) : ((graph.removeValue removed).block block).values =
        (if block = (graph.value removed).block then (graph.block block).values.filter (· != removed)
        else (graph.block block).values) ∧
      ((graph.block block).ending ≠ some removed →
        ((graph.removeValue removed).block block).ending = (graph.block block).ending) := by
  rw [removeValue_eq]
  simp only [Graph.block, Arena.get, Arena.get?_modify]
  split_ifs
  · cases graph.blocks.get? block with
    | none => exact ⟨rfl, fun _ => rfl⟩
    | some node => exact ⟨rfl, fun differs => if_neg differs⟩
  · exact ⟨rfl, fun _ => rfl⟩

/-- Some values were given up, and that takes nothing away from the others. -/
structure GivesUp (removals : List ValueId) (graph after : Graph) : Prop where
  tidy : after.Tidy
  hasValue : ∀ value, after.HasValue value ↔ graph.HasValue value
  removed : ∀ value, (after.value value).removed = true ↔
    (graph.value value).removed = true ∨ value ∈ removals
  core : ∀ value, value ∉ removals → (after.value value).core = (graph.value value).core
  home : ∀ value, (after.value value).block = (graph.value value).block
  fewer : ∀ block, (after.block block).values.Sublist (graph.block block).values
  kept : ∀ block (values : List ValueId), (∀ value ∈ values, value ∉ removals) →
    values.Sublist (graph.block block).values → values.Sublist (after.block block).values

theorem Tidy.removeUnused (tidy : graph.Tidy) (has : graph.HasValue removed)
    (removes : graph.removeUnused removed = .ok after) : GivesUp [removed] graph after := by
  obtain ⟨unused, rfl⟩ := removeUnused_eq_ok removes
  obtain ⟨sameValues, cores, gone, agree⟩ := removeValue_spec tidy.edges has unused
  have reads (block : BlockId) := (@block_removeValue graph removed block).1
  generalize graph.removeValue removed = after at *
  have fewer (block : BlockId) : (after.block block).values.Sublist (graph.block block).values := by
    rw [reads]
    split_ifs
    · exact List.filter_sublist
    · exact .refl _
  have kept (block : BlockId) (values : List ValueId) (others : ∀ value ∈ values, value ∉ [removed])
      (inside : values.Sublist (graph.block block).values) :
      values.Sublist (after.block block).values := by
    rw [reads]
    split_ifs
    · have whole : values.filter (· != removed) = values := List.filter_eq_self.2 fun value found =>
        bne_iff_ne.2 fun same => others value found (List.mem_singleton.2 same)
      rw [← whole]
      exact inside.filter _
    · exact inside
  have flag (value : ValueId) (differs : value ≠ removed) :
      (after.value value).removed = (graph.value value).removed :=
    congrArg (fun value => value.removed) (cores value differs)
  have home (value : ValueId) : (after.value value).block = (graph.value value).block := by
    by_cases same : value = removed
    · rw [same, gone]
      rfl
    · exact congrArg (fun value => value.block) (cores value same)
  refine ⟨⟨agree, fun value isGone => ?_, fun block value found => ?_, fun value live => ?_⟩,
    sameValues, fun value => ?_, fun value differs => ?_, home, fewer, kept⟩
  · by_cases same : value = removed
    · rw [same, gone]
      exact ⟨rfl, rfl⟩
    · rw [flag value same] at isGone
      have noArgs : (after.value value).args = [] :=
        (congrArg (fun value => value.args) (cores value same)).trans (tidy.gone value isGone).1
      refine ⟨noArgs, agree.uses_eq_nil fun user used => ?_⟩
      have isUser : user ≠ removed := by
        rintro rfl
        rw [gone] at used
        exact List.not_mem_nil used
      have before : (after.value user).args = (graph.value user).args :=
        congrArg (fun value => value.args) (cores user isUser)
      rw [before] at used
      exact Bool.false_ne_true ((tidy.removed_eq_false used).1.symm.trans isGone)
  · exact (sameValues value).2 (tidy.made block value ((fewer block).subset found))
  · have differs : value ≠ removed := by
      rintro rfl
      have isLive := live.2
      rw [gone] at isLive
      cases isLive
    have once := tidy.once value ⟨(sameValues value).1 live.1, (flag value differs).symm.trans live.2⟩
    rw [home]
    refine le_antisymm (once ▸ (fewer _).count_le value) (List.one_le_count_iff.2 ?_)
    refine List.singleton_sublist.1 (kept _ [value] (by simpa using differs) ?_)
    exact List.singleton_sublist.2 (List.count_pos_iff.1 (by omega))
  · rw [List.mem_singleton]
    by_cases same : value = removed
    · simp [same, gone]
    · simp [same, flag value same]
  · exact cores value (by simpa using differs)

theorem foldlM_removeUnused {removals : List ValueId} (tidy : graph.Tidy)
    (present : ∀ value ∈ removals, graph.HasValue value)
    (runs : removals.foldlM Graph.removeUnused graph = .ok after) : GivesUp removals graph after := by
  induction removals generalizing graph with
  | nil =>
    cases runs
    exact ⟨tidy, fun _ => Iff.rfl, by simp, fun _ _ => rfl, fun _ => rfl, fun _ => .refl _,
      fun _ _ _ inside => inside⟩
  | cons removed rest ih =>
    obtain ⟨middle, removes, runs⟩ := foldlM_cons_eq_ok runs
    have first := tidy.removeUnused (present removed List.mem_cons_self) removes
    have last := ih first.tidy (fun value found =>
      (first.hasValue value).2 (present value (List.mem_cons_of_mem _ found))) runs
    refine ⟨last.tidy, fun value => (last.hasValue value).trans (first.hasValue value), fun value => ?_,
      fun value kept => ?_, fun value => (last.home value).trans (first.home value),
      fun block => (last.fewer block).trans (first.fewer block), fun block values kept inside => ?_⟩
    · rw [last.removed, first.removed, List.mem_singleton, List.mem_cons, or_assoc]
    · rw [List.mem_cons, not_or] at kept
      exact (last.core value kept.2).trans (first.core value (by simpa using kept.1))
    · refine last.kept block values (fun value found again => ?_)
        (first.kept block values (fun value found same => ?_) inside)
      · exact kept value found (List.mem_cons_of_mem _ again)
      · exact kept value found (List.mem_singleton.1 same ▸ List.mem_cons_self)

structure Frames (graph after : Graph) : Prop where
  entry : after.entry = graph.entry
  hasBlock : ∀ block, after.HasBlock block ↔ graph.HasBlock block
  values : ∀ block, (after.block block).values = (graph.block block).values
  ending : ∀ block, (after.block block).ending = (graph.block block).ending

theorem Frames.trans {middle : Graph} (first : graph.Frames middle) (second : middle.Frames after) :
    graph.Frames after where
  entry := second.entry.trans first.entry
  hasBlock block := (second.hasBlock block).trans (first.hasBlock block)
  values block := (second.values block).trans (first.values block)
  ending block := (second.ending block).trans (first.ending block)

theorem frames_allocate (block : BlockId) (operation : Operation) :
    graph.Frames (graph.allocate block operation).2 := by
  rw [allocate_eq]
  exact ⟨rfl, fun _ => Iff.rfl, fun _ => rfl, fun _ => rfl⟩

theorem frames_replaceUses (old new : ValueId) : graph.Frames (graph.replaceUses old new) := by
  have reads (block : BlockId) := @block_mapBindings graph (exchange old new) block
  rw [replaceUses_eq]
  refine ⟨rfl, fun block => ?_, fun block => ?_, fun block => ?_⟩
  · simp [HasBlock, Arena.size, Arena.map]
  · exact congrArg (fun block => block.values) (reads block)
  · exact congrArg (fun block => block.ending) (reads block)

theorem EdgesAgree.allocate {operation : Operation} (agree : graph.EdgesAgree)
    (has : ∀ arg ∈ operation.args, graph.HasValue arg) (block : BlockId) :
    (graph.allocate block operation).2.EdgesAgree := by
  intro user value
  have noArgs : (graph.value graph.values.next).args = [] := by
    rw [value_of_not_hasValue fun has => has.ne_next rfl]
    rfl
  have noUses : (graph.value graph.values.next).uses = [] := by
    rw [value_of_not_hasValue fun has => has.ne_next rfl]
    rfl
  have before := agree user value
  rw [value_allocate _ _ has, value_allocate _ _ has]
  by_cases isUser : user = graph.values.next
  · subst isUser
    rw [noArgs] at before
    by_cases isValue : value = graph.values.next
    · subst isValue
      simpa using List.count_eq_zero.2 fun found => (has _ found).ne_next rfl
    · simp only [isValue, ↓reduceIte, List.count_append, List.count_replicate_self]
      simp only [List.count_nil] at before
      omega
  · by_cases isValue : value = graph.values.next
    · subst isValue
      rw [noUses] at before
      simpa [isUser] using before
    · simp [isUser, isValue, List.count_replicate, Ne.symm isUser, before]

end Graph

/-! ## The states of an edit -/

namespace Edit

open Shader.Graph

def waiting (edit : Edit) : List ValueId :=
  edit.inserts.map PendingInsert.value

/-- What is done in an edit. -/
inductive Entry where
  | inserted (value : ValueId) (block : BlockId) (operation : Operation) (before : ValueId)
  | replaced (old new : ValueId)
  | removed (value : ValueId)

def Entry.pending? : Entry → Option PendingInsert
  | .inserted value block _ before => some ⟨value, block, before⟩
  | _ => none

/-- The states of an edit of a graph, with what was done in it. What is used was not given up. -/
inductive Reaches (start : Graph) : List Entry → Graph → Edit → Prop
  | opened {graph : Graph} {edit : Edit}
      (runs : Build.startEdit.under .quiet start = .ok edit graph) : Reaches start [] graph edit
  | inserted {log : List Entry} {graph after : Graph} {edit next : Edit} {block : BlockId}
      {operation : Operation} {before value : ValueId} (reaches : Reaches start log graph edit)
      (live : ∀ arg ∈ operation.args, graph.IsLive arg)
      (runs : (Build.insertBefore edit block operation before).under .quiet graph = .ok (value, next) after) :
      Reaches start (log ++ [.inserted value block operation before]) after next
  | replaced {log : List Entry} {graph after : Graph} {edit : Edit} {old new : ValueId}
      (reaches : Reaches start log graph edit) (differs : old ≠ new) (liveOld : graph.IsLive old)
      (liveNew : graph.IsLive new)
      (runs : (Build.replaceUses old new).under .quiet graph = .ok () after) :
      Reaches start (log ++ [.replaced old new]) after edit
  | removed {log : List Entry} {graph after : Graph} {edit next : Edit} {value : ValueId}
      (reaches : Reaches start log graph edit) (has : graph.HasValue value)
      (runs : (Build.queueRemoval edit value).under .quiet graph = .ok next after) :
      Reaches start (log ++ [.removed value]) after next

/-- A value computed something when the edit was opened, or was made in it to do so. -/
def Stems (start : Graph) (log : List Entry) (value : ValueId) (operation : Operation) : Prop :=
  start.HasValue value ∧ (start.value value).toOperation = operation ∨
    ∃ block before, .inserted value block operation before ∈ log

def Untouched (log : List Entry) (operation : Operation) : Prop :=
  ∀ old new, .replaced old new ∈ log → old ∉ operation.args

/-- What holds while an edit is open. Nothing is placed or given up yet. -/
structure Prepared (start : Graph) (log : List Entry) (graph : Graph) (edit : Edit) : Prop where
  edges : graph.EdgesAgree
  gone : ∀ value, (graph.value value).removed = true →
    (graph.value value).args = [] ∧ (graph.value value).uses = []
  frame : start.Frames graph
  shells : ∀ value, start.HasValue value →
    graph.HasValue value ∧ (graph.value value).shell = (start.value value).shell
  fresh : ∀ value, graph.HasValue value → start.HasValue value ∨ value ∈ edit.waiting
  waits : ∀ pending ∈ edit.inserts, graph.IsLive pending.value ∧ ¬ start.HasValue pending.value ∧
    (graph.value pending.value).block = pending.block
  distinct : edit.waiting.Nodup
  queue : edit.inserts = log.filterMap Entry.pending?
  removals : ∀ value, value ∈ edit.removals ↔ .removed value ∈ log
  present : ∀ value ∈ edit.removals, graph.HasValue value
  kept : ∀ value operation, Stems start log value operation → Untouched log operation →
    (graph.value value).toOperation = operation

namespace Prepared

variable {start graph after : Graph} {log : List Entry} {edit next : Edit} {block : BlockId}
  {operation : Operation} {before value old new : ValueId}

theorem opened (tidy : start.Tidy) (runs : Build.startEdit.under .quiet start = .ok edit graph) :
    Prepared start [] graph edit := by
  obtain ⟨rfl, rfl⟩ := (Build.gives_startEdit _ _ runs).2
  exact {
    edges := tidy.edges
    gone := tidy.gone
    frame := ⟨rfl, fun _ => Iff.rfl, fun _ => rfl, fun _ => rfl⟩
    shells := fun _ has => ⟨has, rfl⟩
    fresh := fun _ has => .inl has
    waits := by simp
    distinct := List.nodup_nil
    queue := rfl
    removals := by simp
    present := by simp
    kept := by
      rintro value operation (⟨-, same⟩ | ⟨_, _, found⟩) -
      · exact same
      · exact absurd found List.not_mem_nil }

theorem hasValue_of_stems (prepared : Prepared start log graph edit)
    (stems : Stems start log value operation) : graph.HasValue value := by
  rcases stems with ⟨has, -⟩ | ⟨block, before, found⟩
  · exact (prepared.shells value has).1
  · have waits : (⟨value, block, before⟩ : PendingInsert) ∈ edit.inserts := by
      rw [prepared.queue]
      exact List.mem_filterMap.2 ⟨_, found, rfl⟩
    exact (prepared.waits _ waits).1.1

theorem inserted (prepared : Prepared start log graph edit)
    (live : ∀ arg ∈ operation.args, graph.IsLive arg)
    (runs : (Build.insertBefore edit block operation before).under .quiet graph = .ok (value, next) after) :
    Prepared start (log ++ [.inserted value block operation before]) after next := by
  obtain ⟨⟨⟩, rfl⟩ := (Build.gives_insertBefore _ _ runs).2
  have has : ∀ arg ∈ operation.args, graph.HasValue arg := fun arg used => (live arg used).1
  have reads := value_allocate block operation has
  have present := @hasValue_allocate graph block operation
  have edges := prepared.edges.allocate has block
  have frame := prepared.frame.trans (frames_allocate block operation)
  generalize (graph.allocate block operation).2 = after at *
  have isOld {other : ValueId} (found : graph.HasValue other) : after.value other =
      { graph.value other with
        uses := (graph.value other).uses ++
          List.replicate (operation.args.count other) graph.values.next } := by
    rw [reads, if_neg found.ne_next]
  have isNew : after.value graph.values.next = { operation with block } := by rw [reads, if_pos rfl]
  refine ⟨edges, fun other gone => ?_, frame, fun other found => ?_, fun other found => ?_,
    fun pending waits => ?_, ?_, ?_, ?_, fun other queued => ?_, ?_⟩
  · have differs : other ≠ graph.values.next := by
      rintro rfl
      rw [isNew] at gone
      cases gone
    rw [reads, if_neg differs] at gone ⊢
    obtain ⟨noArgs, noUses⟩ := prepared.gone other gone
    have unused : other ∉ operation.args := fun used => by
      rw [(live other used).2] at gone
      cases gone
    exact ⟨noArgs, by simp [noUses, List.count_eq_zero.2 unused]⟩
  · obtain ⟨stays, shell⟩ := prepared.shells other found
    refine ⟨(present other).2 (.inl stays), ?_⟩
    rw [isOld stays, ← shell]
    rfl
  · rcases (present other).1 found with found | rfl
    · refine (prepared.fresh other found).imp_right fun waits => ?_
      rw [Edit.waiting, List.map_append]
      exact List.mem_append_left _ waits
    · exact .inr (by simp [Edit.waiting])
  · rcases List.mem_append.1 waits with waits | waits
    · obtain ⟨⟨stays, isLive⟩, new, home⟩ := prepared.waits pending waits
      rw [IsLive, isOld stays]
      exact ⟨⟨(present _).2 (.inl stays), isLive⟩, new, home⟩
    · rw [List.mem_singleton.1 waits, IsLive, isNew]
      refine ⟨⟨(present _).2 (.inr rfl), rfl⟩, fun found => ?_, rfl⟩
      exact (prepared.shells _ found).1.ne_next rfl
  · rw [Edit.waiting, List.map_append]
    refine List.nodup_append.2 ⟨prepared.distinct, List.nodup_singleton _, ?_⟩
    rintro _ waits _ (_ | ⟨_, ⟨⟩⟩)
    obtain ⟨pending, inside, rfl⟩ := List.mem_map.1 waits
    exact (prepared.waits pending inside).1.1.ne_next
  · rw [List.filterMap_append, ← prepared.queue]
    rfl
  · simpa using prepared.removals
  · exact (present other).2 (.inl (prepared.present other queued))
  · intro other computes stems untouched
    have before : Untouched log computes := fun old new found =>
      untouched old new (List.mem_append_left _ found)
    by_cases earlier : Stems start log other computes
    · rw [isOld (prepared.hasValue_of_stems earlier)]
      exact prepared.kept other computes earlier before
    · rcases stems with old | ⟨home, anchor, found⟩
      · exact absurd (.inl old) earlier
      · rcases List.mem_append.1 found with found | found
        · exact absurd (.inr ⟨home, anchor, found⟩) earlier
        · obtain ⟨⟩ := List.mem_singleton.1 found
          rw [isNew]

theorem replaced (prepared : Prepared start log graph edit) (differs : old ≠ new)
    (liveOld : graph.IsLive old) (liveNew : graph.IsLive new)
    (runs : (Build.replaceUses old new).under .quiet graph = .ok () after) :
    Prepared start (log ++ [.replaced old new]) after edit := by
  obtain rfl := (Build.gives_replaceUses _ _ runs).2
  obtain ⟨has, shells, args, -, edges⟩ := replaceUses_spec prepared.edges liveOld.1 liveNew.1 differs
  have frame := prepared.frame.trans (frames_replaceUses old new)
  generalize graph.replaceUses old new = after at *
  have flag (value : ValueId) : (after.value value).removed = (graph.value value).removed :=
    congrArg (fun value => value.removed) (shells value)
  have home (value : ValueId) : (after.value value).block = (graph.value value).block :=
    Value.block_eq_of_shell (shells value)
  refine ⟨edges, fun value gone => ?_, frame, fun value found => ?_, fun value found => prepared.fresh value ((has value).1 found),
    fun pending waits => ?_, prepared.distinct, ?_, ?_,
    fun value queued => (has value).2 (prepared.present value queued), ?_⟩
  · rw [flag] at gone
    obtain ⟨noArgs, noUses⟩ := prepared.gone value gone
    have isNew : value ≠ new := by
      rintro rfl
      rw [liveNew.2] at gone
      cases gone
    have unused (user : ValueId) : value ∉ (graph.value user).args := fun used => by
      have uses := prepared.edges.mem_uses_iff.2 used
      rw [noUses] at uses
      exact List.not_mem_nil uses
    refine ⟨by simp [args, noArgs], edges.uses_eq_nil fun user used => ?_⟩
    rw [args] at used
    split_ifs at used
    · exact unused user used
    · obtain ⟨arg, isArg, rfl⟩ := List.mem_map.1 used
      unfold exchange at isNew unused
      split_ifs at isNew unused
      · exact isNew rfl
      · exact unused user isArg
  · obtain ⟨stays, shell⟩ := prepared.shells value found
    exact ⟨(has value).2 stays, (shells value).trans shell⟩
  · obtain ⟨⟨stays, isLive⟩, new, isHome⟩ := prepared.waits pending waits
    exact ⟨⟨(has _).2 stays, (flag _).trans isLive⟩, new, (home _).trans isHome⟩
  · rw [List.filterMap_append, ← prepared.queue]
    simp [Entry.pending?]
  · simpa using prepared.removals
  · intro value computes stems untouched
    have earlier : Stems start log value computes := by
      refine stems.imp_right ?_
      rintro ⟨block, before, found⟩
      exact ⟨block, before, by simpa using found⟩
    have same := prepared.kept value computes earlier fun old new found =>
      untouched old new (List.mem_append_left _ found)
    have sameArgs : (after.value value).args = (graph.value value).args := by
      rw [args]
      split_ifs
      · rfl
      · refine map_exchange_of_not_mem ?_
        rw [same]
        exact untouched old new (by simp)
    rw [← same]
    have rebuilt (value : Value) :
        value.toOperation = { value.shell.toOperation with args := value.args } := rfl
    rw [rebuilt, rebuilt (graph.value value), shells, sameArgs]

theorem removed (prepared : Prepared start log graph edit) (has : graph.HasValue value)
    (runs : (Build.queueRemoval edit value).under .quiet graph = .ok next after) :
    Prepared start (log ++ [.removed value]) after next := by
  have queued : Build.Gives (Build.queueRemoval edit value) graph fun next after =>
      after = graph ∧ next.inserts = edit.inserts ∧
        ∀ other, other ∈ next.removals ↔ other ∈ edit.removals ∨ other = value := by
    refine Build.gives_get_bind (Build.gives_require_bind fun _ => ?_)
    split_ifs with again
    · exact Build.gives_pure ⟨rfl, rfl, fun other => by grind⟩
    · exact Build.gives_pure ⟨rfl, rfl, fun other => by simp⟩
  obtain ⟨rfl, inserts, removals⟩ := (queued _ _ runs).2
  have waiting : next.waiting = edit.waiting := by rw [Edit.waiting, inserts, Edit.waiting]
  refine ⟨prepared.edges, prepared.gone, prepared.frame, prepared.shells, ?_, ?_, ?_, ?_, ?_, ?_, ?_⟩
  · rw [waiting]
    exact prepared.fresh
  · rw [inserts]
    exact prepared.waits
  · rw [waiting]
    exact prepared.distinct
  · rw [inserts, prepared.queue, List.filterMap_append]
    simp [Entry.pending?]
  · intro other
    rw [removals, prepared.removals]
    simp
  · intro other found
    rcases (removals other).1 found with found | rfl
    · exact prepared.present other found
    · exact has
  · intro other computes stems untouched
    refine prepared.kept other computes (stems.imp_right ?_) fun old new found =>
      untouched old new (List.mem_append_left _ found)
    rintro ⟨block, before, found⟩
    exact ⟨block, before, by simpa using found⟩

theorem of_reaches (tidy : start.Tidy) (reaches : Reaches start log graph edit) :
    Prepared start log graph edit := by
  induction reaches with
  | opened runs => exact .opened tidy runs
  | inserted _ live runs prepared => exact prepared.inserted live runs
  | replaced _ differs liveOld liveNew runs prepared =>
    exact prepared.replaced differs liveOld liveNew runs
  | removed _ has runs prepared => exact prepared.removed has runs

theorem removed_eq (prepared : Prepared start log graph edit) (value : ValueId) :
    (graph.value value).removed = (start.value value).removed := by
  by_cases isOld : start.HasValue value
  · exact congrArg (fun value => value.removed) (prepared.shells value isOld).2
  · rw [value_of_not_hasValue isOld]
    by_cases has : graph.HasValue value
    · obtain ⟨pending, waits, rfl⟩ := List.mem_map.1 ((prepared.fresh value has).resolve_left isOld)
      exact (prepared.waits pending waits).1.2
    · rw [value_of_not_hasValue has]

theorem notMem_args_of_replaced (tidy : start.Tidy)
    (reaches : Reaches start (log ++ [.replaced old new]) graph edit) (differs : value ≠ old) :
    old ∉ (graph.value value).args := by
  generalize whole : log ++ [.replaced old new] = entries at reaches
  cases reaches with
  | opened => simp at whole
  | inserted => simp at whole
  | removed => simp at whole
  | replaced reaches distinct liveOld liveNew runs =>
    obtain ⟨rfl, ⟨⟩⟩ := List.append_inj' whole rfl
    have prepared := of_reaches tidy reaches
    obtain rfl := (Build.gives_replaceUses _ _ runs).2
    obtain ⟨-, -, args, -⟩ := replaceUses_spec prepared.edges liveOld.1 liveNew.1 distinct
    rw [args, if_neg differs]
    exact List.count_eq_zero.1 (count_map_exchange_old distinct _)

theorem tidy_of_placed (prepared : Prepared start log graph edit) (tidy : start.Tidy)
    (values : after.values = graph.values)
    (perm : ∀ block, (after.block block).values.Perm
      ((edit.inserts.filter (·.block = block)).map PendingInsert.value ++
        (graph.block block).values)) : after.Tidy := by
  have reads (value : ValueId) : after.value value = graph.value value := by
    rw [Graph.value, values, Graph.value]
  have has (value : ValueId) : after.HasValue value ↔ graph.HasValue value := by
    rw [HasValue, values, HasValue]
  refine ⟨fun user value => ?_, fun value gone => ?_, fun block value found => ?_, fun value live => ?_⟩
  · rw [reads, reads]
    exact prepared.edges user value
  · rw [reads] at gone ⊢
    exact prepared.gone value gone
  · rw [has]
    rcases List.mem_append.1 ((perm block).subset found) with found | found
    · obtain ⟨pending, waits, rfl⟩ := List.mem_map.1 found
      exact (prepared.waits pending (List.mem_of_mem_filter waits)).1.1
    · rw [prepared.frame.values] at found
      exact (prepared.shells value (tidy.made block value found)).1
  · rw [IsLive, has, reads] at live
    rw [(perm _).count_eq, List.count_append, prepared.frame.values, reads]
    by_cases isOld : start.HasValue value
    · have shell := (prepared.shells value isOld).2
      have home : (graph.value value).block = (start.value value).block := Value.block_eq_of_shell shell
      have flag : (graph.value value).removed = (start.value value).removed :=
        congrArg (fun value => value.removed) shell
      rw [home, tidy.once value ⟨isOld, flag.symm.trans live.2⟩, List.count_eq_zero.2]
      intro found
      obtain ⟨pending, waits, rfl⟩ := List.mem_map.1 found
      exact (prepared.waits pending (List.mem_of_mem_filter waits)).2.1 isOld
    · have unplaced : value ∉ (start.block (graph.value value).block).values := fun found =>
        isOld (tidy.made _ value found)
      obtain ⟨pending, waits, rfl⟩ := List.mem_map.1 ((prepared.fresh value live.1).resolve_left isOld)
      have distinct : ((edit.inserts.filter (·.block = pending.block)).map PendingInsert.value).Nodup :=
        prepared.distinct.sublist (List.filter_sublist.map _)
      rw [List.count_eq_zero.2 unplaced, (prepared.waits pending waits).2.2,
        List.count_eq_one_of_mem distinct]
      exact List.mem_map_of_mem (List.mem_filter.2 ⟨waits, by simp⟩)

end Prepared

structure Applied (graph : Graph) (edit : Edit) (after : Graph) : Prop where
  tidy : after.Tidy
  removed : ∀ value, (after.value value).removed = true ↔
    (graph.value value).removed = true ∨ value ∈ edit.removals
  core : ∀ value, value ∉ edit.removals → (after.value value).core = (graph.value value).core
  home : ∀ value, (after.value value).block = (graph.value value).block
  /-- Blocks have no other values than those they had and those that waited. -/
  within : ∀ block, ∃ placed : List ValueId, (after.block block).values.Sublist placed ∧
    placed.Perm ((edit.inserts.filter (·.block = block)).map PendingInsert.value ++
      (graph.block block).values)
  kept : ∀ block (values : List ValueId), (∀ value ∈ values, value ∉ edit.removals) →
    values.Sublist (graph.block block).values → values.Sublist (after.block block).values
  leads : ∀ block anchor, insertedAt edit.inserts block anchor ≠ [] →
    ∀ values : List ValueId, (∀ value ∈ values, value ∉ edit.removals) →
      values.Sublist (insertedAt edit.inserts block anchor ++ [anchor]) →
        values.Sublist (after.block block).values

theorem Prepared.applied {start graph after : Graph} {log : List Entry} {edit : Edit}
    (prepared : Prepared start log graph edit) (tidy : start.Tidy)
    (runs : graph.applyEdit edit = .ok after) : edit.Applied graph after := by
  obtain ⟨placed, last, placing, removing, rfl⟩ := applyEdit_eq_ok runs
  have new (pending : PendingInsert) (waits : pending ∈ edit.inserts) (block : BlockId) :
      pending.value ∉ (graph.block block).values := fun found => by
    rw [prepared.frame.values] at found
    exact (prepared.waits pending waits).2.1 (tidy.made block _ found)
  obtain ⟨values, blocks⟩ := foldlM_insert (fun _ _ => []) prepared.distinct new (fun _ _ => .inl rfl) placing
  have reads (value : ValueId) : placed.value value = graph.value value := by
    rw [Graph.value, values, Graph.value]
  have isTidy := prepared.tidy_of_placed tidy values fun block => (blocks block).1
  have givesUp := foldlM_removeUnused isTidy
    (fun value queued => by rw [HasValue, values]; exact prepared.present value queued) removing
  refine ⟨⟨givesUp.tidy.edges, givesUp.tidy.gone, givesUp.tidy.made, givesUp.tidy.once⟩,
    fun value => ?_, fun value kept => ?_, fun value => ?_, fun block => ?_,
    fun block values kept inside => ?_, fun block anchor some values kept inside => ?_⟩
  · rw [← reads]
    exact givesUp.removed value
  · rw [← reads]
    exact givesUp.core value kept
  · rw [← reads]
    exact givesUp.home value
  · exact ⟨_, givesUp.fewer block, (blocks block).1⟩
  · exact givesUp.kept block values kept (inside.trans (blocks block).2.1)
  · exact givesUp.kept block values kept (inside.trans (((blocks block).2.2 anchor).sublist some))

end Edit

namespace Graph

open Edit

variable {start graph after : Graph} {log : List Entry} {edit : Edit}

/-- Whatever is done in an edit, it leaves a tidy graph when it can be finished. Just the values that
the edit gives up are given up; the others stand in their blocks in their order, with what was
inserted in front of them; and they compute what they did, unless an operand was replaced. -/
theorem tidy_of_finishEdit (tidy : start.Tidy) (reaches : Edit.Reaches start log graph edit)
    (runs : (Build.finishEdit edit).under .quiet graph = .ok () after) :
    after.Tidy ∧ after.inconsistency? = none ∧ (∀ value, (after.value value).removed = true ↔
        (start.value value).removed = true ∨ .removed value ∈ log) ∧
      (∀ block, ((start.block block).values.filter fun value => !(after.value value).removed).Sublist
        (after.block block).values) ∧
      (∀ block anchor, insertedAt (log.filterMap Entry.pending?) block anchor ≠ [] →
        ((insertedAt (log.filterMap Entry.pending?) block anchor ++ [anchor]).filter fun value =>
          !(after.value value).removed).Sublist (after.block block).values) ∧
      (∀ prior old new middle pending, Edit.Reaches start (prior ++ [.replaced old new]) middle pending →
          ∀ value, value ≠ old → old ∉ (middle.value value).args) ∧
      ∀ value operation, Edit.Stems start log value operation →
        (after.value value).removed = false → Edit.Untouched log operation →
          (after.value value).toOperation = operation := by
  have prepared := Prepared.of_reaches tidy reaches
  have applied := prepared.applied tidy (Build.gives_finishEdit _ _ runs).2
  have unqueued (value : ValueId) (kept : (after.value value).removed = false) :
      value ∉ edit.removals := fun queued =>
    Bool.false_ne_true (kept.symm.trans ((applied.removed value).2 (.inr queued)))
  have survives {values : List ValueId} (value : ValueId)
      (found : value ∈ values.filter fun value => !(after.value value).removed) :
      value ∉ edit.removals :=
    unqueued value (by simpa using (List.mem_filter.1 found).2)
  refine ⟨applied.tidy, applied.tidy.inconsistency?_eq_none, fun value => ?_, fun block => ?_,
    fun block anchor some => ?_, ?_, ?_⟩
  · rw [applied.removed, prepared.removed_eq, prepared.removals]
  · refine applied.kept block _ survives (List.filter_sublist.trans ?_)
    rw [prepared.frame.values]
  · rw [← prepared.queue] at some ⊢
    exact applied.leads block anchor some _ survives List.filter_sublist
  · intro prior old new middle pending reaches value differs
    exact Prepared.notMem_args_of_replaced tidy reaches differs
  · intro value operation stems kept untouched
    have same := congrArg (fun value => value.toOperation) (applied.core value (unqueued value kept))
    exact same.trans (prepared.kept value operation stems untouched)

def lone : Graph where
  function := ⟨0⟩
  values := Arena.empty.append { opcode := .returnVoid, block := ⟨0⟩ }
  blocks := Arena.empty.append { name := "entry", values := [⟨0⟩], ending := some ⟨0⟩ }

theorem tidy_lone : lone.Tidy := by
  have values (value : ValueId) : (lone.value value).args = [] ∧ (lone.value value).uses = [] := by
    by_cases has : lone.HasValue value
    · obtain rfl : value = ⟨0⟩ := Handle.ext_index (Nat.lt_one_iff.1 has)
      exact ⟨rfl, rfl⟩
    · rw [value_of_not_hasValue has]
      exact ⟨rfl, rfl⟩
  refine ⟨fun user value => ?_, fun value _ => values value, fun block value found => ?_,
    fun value live => ?_⟩
  · rw [(values user).1, (values value).2]
    rfl
  · by_cases has : lone.HasBlock block
    · obtain rfl : block = ⟨0⟩ := Handle.ext_index (Nat.lt_one_iff.1 has)
      obtain rfl := List.mem_singleton.1 found
      exact Nat.one_pos
    · rw [block_of_not_hasBlock has] at found
      exact absurd found List.not_mem_nil
  · obtain rfl : value = ⟨0⟩ := Handle.ext_index (Nat.lt_one_iff.1 live.1)
    rfl

/-- An edit in which a value gets the uses of its own operand, which is given up. -/
def loneEdit : Build Unit := do
  let edit ← Build.startEdit
  let (operand, edit) ← Build.insertBefore edit ⟨0⟩ { opcode := .zeroInit } ⟨0⟩
  let (user, edit) ← Build.insertBefore edit ⟨0⟩ { opcode := .negate, args := [operand] } ⟨0⟩
  Build.replaceUses operand user
  let edit ← Build.queueRemoval edit operand
  Build.finishEdit edit

def loneOutcome : Option (List ValueId × List ValueId) :=
  match loneEdit.under .quiet lone with
  | .ok _ after => some ((after.block ⟨0⟩).values, (after.value ⟨2⟩).args)
  | .error _ _ => none

theorem tidy_of_finishEdit_lone : ∃ log graph edit after, Edit.Reaches lone log graph edit ∧
      (Build.finishEdit edit).under .quiet graph = .ok () after ∧
      (after.block ⟨0⟩).values = [⟨2⟩, ⟨0⟩] ∧ (after.value ⟨2⟩).args = [⟨2⟩] ∧
      after.Tidy ∧ after.inconsistency? = none := by
  have opened : Edit.Reaches lone [] _ _ := .opened rfl
  have operand := @Edit.Reaches.inserted lone _ _ _ _ _ ⟨0⟩ { opcode := .zeroInit } ⟨0⟩ _ opened
    (fun _ => nofun) rfl
  have user := @Edit.Reaches.inserted lone _ _ _ _ _ ⟨0⟩ { opcode := .negate, args := [⟨1⟩] } ⟨0⟩ _
    operand (List.forall_mem_singleton.2 ⟨Nat.lt_add_one 1, rfl⟩) rfl
  have replaced := @Edit.Reaches.replaced lone _ _ _ _ ⟨1⟩ ⟨2⟩ user (by decide)
    ⟨Nat.lt_succ_of_lt (Nat.lt_add_one 1), rfl⟩ ⟨Nat.lt_add_one 2, rfl⟩ rfl
  have reaches := @Edit.Reaches.removed lone _ _ _ _ _ ⟨1⟩ replaced (Nat.lt_succ_of_lt (Nat.lt_add_one 1)) rfl
  have finishes : loneOutcome = some ([⟨2⟩, ⟨0⟩], [⟨2⟩]) := by cbv
  cases runs : loneEdit.under .quiet lone with
  | error failure after =>
    rw [loneOutcome, runs] at finishes
    cases finishes
  | ok _ after =>
    rw [loneOutcome, runs] at finishes
    obtain ⟨placed, args⟩ := Prod.mk.inj (Option.some.inj finishes)
    obtain ⟨tidy, consistent, -⟩ := tidy_of_finishEdit tidy_lone reaches runs
    exact ⟨_, _, _, after, reaches, runs, placed, args, tidy, consistent⟩

end Graph

end Shader
