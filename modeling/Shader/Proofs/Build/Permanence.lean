import Shader.Proofs.Build.Success
import Shader.Proofs.Typing.Change

/-! # What was made stays made

The changes of a graph let it grow: making a value, giving users of a value another one, and carrying an
edit out. -/

namespace Shader

/-! ## Changes of a graph -/

namespace Graph

variable {graph : Graph}

theorem grows_modifyValue (changed : ValueId) {change : Value → Value}
    (nature : ∀ value, (change value).nature = value.nature) :
    graph.Grows (graph.modifyValue changed change) := by
  refine ⟨rfl, fun value => hasValue_modifyValue.2, fun value _ => ?_⟩
  rcases value_modifyValue_or graph changed change value with same | ⟨-, same⟩
  · rw [same]
  · rw [same, nature]

theorem grows_addArg (user arg : ValueId) : graph.Grows (graph.addArg user arg) := by
  unfold addArg
  refine Grows.trans (grows_modifyValue user ?_) (grows_modifyValue arg ?_)
  · exact fun _ => rfl
  · exact fun _ => rfl

theorem grows_foldl {step : Graph → ValueId → Graph}
    (grows : ∀ graph item, Grows graph (step graph item)) (items : List ValueId) (graph : Graph) :
    graph.Grows (items.foldl step graph) := by
  induction items generalizing graph with
  | nil => exact .refl
  | cons item rest ih => exact (grows graph item).trans (ih _)

theorem grows_allocate (block : BlockId) (operation : Operation) :
    graph.Grows (graph.allocate block operation).2 := by
  have appended (value : Value) :
      graph.Grows { graph with values := graph.values.append value } := by
    refine ⟨rfl, fun id has => (hasValue_append _ id).2 (.inl has), fun id has => ?_⟩
    rw [value_append, if_neg has.ne_next]
  exact (appended _).trans (grows_foldl (fun _ arg => grows_addArg _ arg) _ _)

theorem grows_modifyBlock (block : BlockId) (change : Block → Block) :
    graph.Grows (graph.modifyBlock block change) :=
  grows_of_values rfl rfl

theorem grows_replaceUses (old new : ValueId) : graph.Grows (graph.replaceUses old new) :=
  (rewrites_replaceUses old new).grows (by rw [replaceUses_eq])

theorem grows_removeValue (removed : ValueId) : graph.Grows (graph.removeValue removed) :=
  (rewrites_removeValue removed).grows (by rw [removeValue_eq])

/-! ### Edits -/

section Edits

variable {after : Graph} {edit : Edit} {α : Type} {items : List α}
  {step : Graph → α → Except Fault Graph}

theorem foldlM_cons_eq_ok {item : α} (runs : (item :: items).foldlM step graph = .ok after) :
    ∃ middle, step graph item = .ok middle ∧ items.foldlM step middle = .ok after := by
  rw [List.foldlM_cons] at runs
  cases stepped : step graph item with
  | error fault =>
    rw [stepped] at runs
    cases runs
  | ok middle =>
    rw [stepped] at runs
    exact ⟨middle, rfl, runs⟩

theorem foldlM_keeps (keeps : Graph → Prop) (holds : keeps graph)
    (each : ∀ item ∈ items, ∀ graph changed, keeps graph → step graph item = .ok changed → keeps changed)
    (runs : items.foldlM step graph = .ok after) : keeps after := by
  induction items generalizing graph with
  | nil =>
    cases runs
    exact holds
  | cons item rest ih =>
    obtain ⟨middle, stepped, runs⟩ := foldlM_cons_eq_ok runs
    exact ih (each item List.mem_cons_self graph middle holds stepped)
      (fun other found => each other (List.mem_cons_of_mem _ found)) runs

theorem insert_eq_ok {pending : PendingInsert} (inserts : graph.insert pending = .ok after) :
    pending.before ∈ (graph.block pending.block).values ∧ after = graph.modifyBlock pending.block fun block =>
        { block with values := insertBefore pending.before pending.value block.values } := by
  unfold insert at inserts
  split_ifs at inserts with anchored
  cases inserts
  exact ⟨anchored, rfl⟩

theorem removeUnused_eq_ok {removed : ValueId} (removes : graph.removeUnused removed = .ok after) :
    (∀ user ∈ (graph.value removed).uses, user = removed) ∧ after = graph.removeValue removed := by
  unfold removeUnused at removes
  split_ifs at removes with isUsed
  cases removes
  exact ⟨by simpa [hasOtherUses] using isUsed, rfl⟩

theorem applyEdit_eq_ok (applied : graph.applyEdit edit = .ok after) :
    ∃ placed last, edit.inserts.foldlM insert graph = .ok placed ∧
      edit.removals.foldlM removeUnused placed = .ok last ∧ after = { last with isEditing := false } := by
  unfold applyEdit at applied
  cases placing : edit.inserts.foldlM insert graph with
  | error fault =>
    rw [placing] at applied
    cases applied
  | ok placed =>
    rw [placing] at applied
    change (edit.removals.foldlM removeUnused placed >>= _) = _ at applied
    cases removing : edit.removals.foldlM removeUnused placed with
    | error fault =>
      rw [removing] at applied
      cases applied
    | ok last =>
      rw [removing] at applied
      cases applied
      exact ⟨placed, last, rfl, removing, rfl⟩

theorem grows_applyEdit (applied : graph.applyEdit edit = .ok after) : graph.Grows after := by
  obtain ⟨placed, last, placing, removing, rfl⟩ := applyEdit_eq_ok applied
  have grows : graph.Grows placed := foldlM_keeps graph.Grows .refl
    (fun _ _ _ _ grows runs => grows.trans ((insert_eq_ok runs).2 ▸ grows_modifyBlock _ _)) placing
  have grows : graph.Grows last := foldlM_keeps graph.Grows grows
    (fun _ _ _ _ grows runs => grows.trans ((removeUnused_eq_ok runs).2 ▸ grows_removeValue _)) removing
  exact grows.trans (grows_of_values rfl rfl)

end Edits

end Graph

namespace Build

variable {graph : Graph} {block : BlockId} {operation : Operation}

theorem gives_makeValue (has : ∀ arg ∈ operation.args, graph.HasValue arg) :
    Gives (makeValue block operation) graph fun value after =>
      value = graph.values.next ∧ graph.Adds block operation after := by
  refine gives_watched (gives_get_bind (gives_require_bind fun _ => ?_))
  refine gives_modifyGet_bind (Graph.grows_allocate block operation) ?_
  have places : Gives (place block graph.values.next operation.opcode)
      (graph.allocate block operation).2 fun _ after => graph.Adds block operation after :=
    gives_get_bind (gives_accept_bind fun placed fits =>
      gives_modify (Graph.grows_modifyBlock _ _) (Graph.adds_place has fits))
  exact places.bind fun _ _ adds => gives_pure ⟨rfl, adds⟩

end Build

end Shader
