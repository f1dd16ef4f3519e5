import Shader.Proofs.Graph.Change

/-! # Dominance

A block dominates another if every way from the entry to the other leads through it. The ways that
matter are those that keep clear of a block, so they are what is defined: a block dominates another if
no way to the other keeps clear of it. Of a block that cannot be reached this holds for every block.

Ways are followed along predecessors, because those of a block do not change any more once it is
sealed. The last section says what adding edges does to them. -/

namespace Shader

namespace Graph

variable {graph after : Graph} {block other target : BlockId}

/-- There is a way from the entry to a block. -/
inductive Reaches (graph : Graph) : BlockId → Prop where
  | entry : graph.Reaches graph.entry
  | step {pred block : BlockId} :
    pred ∈ (graph.block block).preds → graph.Reaches pred → graph.Reaches block

/-- There is a way from the entry to a block that keeps clear of another. -/
inductive Avoids (graph : Graph) (other : BlockId) : BlockId → Prop where
  | entry : graph.entry ≠ other → graph.Avoids other graph.entry
  /-- A way goes on through any block but the one it keeps clear of. -/
  | step {pred block : BlockId} :
    pred ∈ (graph.block block).preds → graph.Avoids other pred → block ≠ other → graph.Avoids other block

def Dominates (graph : Graph) (other block : BlockId) : Prop :=
  ¬ graph.Avoids other block

/-! ## Laws of dominance -/

theorem Avoids.ne (avoids : graph.Avoids other block) : block ≠ other := by
  cases avoids with
  | entry differs => exact differs
  | step _ _ differs => exact differs

theorem Avoids.reaches (avoids : graph.Avoids other block) : graph.Reaches block := by
  induction avoids with
  | entry => exact .entry
  | step edge _ _ ih => exact .step edge ih

/-- A way that keeps clear of one block either keeps clear of a second one as well, or has a part that
leads to the second one. -/
theorem Avoids.split (middle : BlockId) (avoids : graph.Avoids other block) :
    graph.Avoids middle block ∨ graph.Avoids other middle := by
  induction avoids with
  | entry differs =>
    by_cases isMiddle : graph.entry = middle
    · exact .inr (isMiddle ▸ .entry differs)
    · exact .inl (.entry isMiddle)
  | @step pred block edge before differs ih =>
    rcases ih with clear | leads
    · by_cases isMiddle : block = middle
      · exact .inr (isMiddle ▸ .step edge before differs)
      · exact .inl (.step edge clear isMiddle)
    · exact .inr leads

@[simp] theorem dominates_self : graph.Dominates block block := fun avoids => avoids.ne rfl

theorem Dominates.trans {middle : BlockId} (first : graph.Dominates other middle)
    (second : graph.Dominates middle block) : graph.Dominates other block := fun avoids =>
  (avoids.split middle).elim second first

theorem dominates_of_preds (notEntry : block ≠ graph.entry)
    (preds : ∀ pred ∈ (graph.block block).preds, graph.Dominates other pred) :
    graph.Dominates other block := by
  intro avoids
  cases avoids with
  | entry => exact notEntry rfl
  | step edge before => exact preds _ edge before

theorem Reaches.avoids_or (other : BlockId) (reached : graph.Reaches block) :
    graph.Avoids other block ∨ other = graph.entry ∨
      ∃ pred ∈ (graph.block other).preds, graph.Avoids other pred := by
  induction reached with
  | entry =>
    by_cases isOther : graph.entry = other
    · exact .inr (.inl isOther.symm)
    · exact .inl (.entry isOther)
  | @step pred block edge _ ih =>
    rcases ih with clear | found
    · by_cases isOther : block = other
      · exact .inr (.inr ⟨pred, isOther ▸ edge, clear⟩)
      · exact .inl (.step edge clear isOther)
    · exact .inr found

theorem Dominates.reaches (dominates : graph.Dominates other block)
    (reached : graph.Reaches block) : graph.Reaches other := by
  rcases reached.avoids_or other with avoids | isEntry | ⟨pred, edge, avoids⟩
  · exact absurd avoids dominates
  · exact isEntry ▸ .entry
  · exact .step edge avoids.reaches

theorem Reaches.exists_pred (reached : graph.Reaches block) (notEntry : block ≠ graph.entry) :
    ∃ pred ∈ (graph.block block).preds, graph.Avoids block pred := by
  rcases reached.avoids_or block with avoids | isEntry | found
  · exact absurd rfl avoids.ne
  · exact absurd isEntry notEntry
  · exact found

theorem Avoids.both_or {left : BlockId} (right : BlockId) (avoids : graph.Avoids left block) :
    graph.Avoids right block ∨ right = graph.entry ∨
      ∃ pred ∈ (graph.block right).preds, graph.Avoids left pred ∧ graph.Avoids right pred := by
  induction avoids with
  | entry differs =>
    by_cases isRight : graph.entry = right
    · exact .inr (.inl isRight.symm)
    · exact .inl (.entry isRight)
  | @step pred block edge before differs ih =>
    rcases ih with clear | found
    · by_cases isRight : block = right
      · exact .inr (.inr ⟨pred, isRight ▸ edge, before, clear⟩)
      · exact .inl (.step edge clear isRight)
    · exact .inr found

theorem Dominates.antisymm (reached : graph.Reaches block) (forward : graph.Dominates other block)
    (backward : graph.Dominates block other) : other = block := by
  by_contra differs
  -- the way to `block` starts without `other`, and then it gets to one of the two first
  rcases reached.avoids_or other with avoids | isEntry | ⟨pred, edge, avoids⟩
  · exact forward avoids
  · exact backward (isEntry ▸ .entry (isEntry ▸ differs))
  · rcases avoids.both_or block with clear | isEntry | ⟨pred, edge, avoids, -⟩
    · exact backward (.step edge clear differs)
    · exact forward (isEntry ▸ .entry (isEntry ▸ Ne.symm differs))
    · exact forward (.step edge avoids (Ne.symm differs))

/-- If each predecessor of a block is dominated by the block itself or by another, then the other
dominates the block. -/
theorem dominates_of_preds_or (notEntry : block ≠ graph.entry) (preds : ∀ pred ∈ (graph.block block).preds,
      graph.Dominates block pred ∨ graph.Dominates other pred) :
    graph.Dominates other block := by
  intro avoids
  rcases avoids.both_or block with clear | isEntry | ⟨pred, edge, first, second⟩
  · exact clear.ne rfl
  · exact notEntry isEntry
  · exact (preds pred edge).elim (· second) (· first)

theorem not_reaches_of_preds (notEntry : block ≠ graph.entry)
    (preds : ∀ pred ∈ (graph.block block).preds, graph.Dominates block pred) :
    ¬ graph.Reaches block := by
  intro reached
  obtain ⟨pred, edge, avoids⟩ := reached.exists_pred notEntry
  exact preds pred edge avoids

theorem Reaches.exists_avoids (reached : graph.Reaches block) :
    ∃ bound, ∀ other : BlockId, bound ≤ other.index → graph.Avoids other block := by
  induction reached with
  | entry =>
    refine ⟨graph.entry.index + 1, fun other above => .entry ?_⟩
    rintro rfl
    omega
  | @step pred block edge _ ih =>
    obtain ⟨bound, avoids⟩ := ih
    refine ⟨max bound (block.index + 1), fun other above => .step edge (avoids other (by omega)) ?_⟩
    rintro rfl
    omega

theorem reaches_iff_of_avoids (same : ∀ other, after.Avoids other block ↔ graph.Avoids other block) :
    after.Reaches block ↔ graph.Reaches block := by
  constructor <;> intro reached <;> obtain ⟨bound, avoids⟩ := reached.exists_avoids
  · exact ((same ⟨bound⟩).1 (avoids ⟨bound⟩ le_rfl)).reaches
  · exact ((same ⟨bound⟩).2 (avoids ⟨bound⟩ le_rfl)).reaches

/-! ## Adding edges -/

theorem avoids_congr (inside : BlockId → Prop) (entry : after.entry = graph.entry)
    (preds : ∀ block, inside block → (after.block block).preds = (graph.block block).preds)
    (closed : ∀ block, inside block → ∀ pred ∈ (graph.block block).preds, inside pred)
    (isInside : inside block) : after.Avoids other block ↔ graph.Avoids other block := by
  constructor
  · intro avoids
    induction avoids with
    | entry differs => exact entry ▸ .entry (entry ▸ differs)
    | step edge _ differs ih =>
      rw [preds _ isInside] at edge
      exact .step edge (ih (closed _ isInside _ edge)) differs
  · intro avoids
    induction avoids with
    | entry differs => exact entry ▸ .entry (entry ▸ differs)
    | step edge _ differs ih =>
      refine .step ?_ (ih (closed _ isInside _ edge)) differs
      rwa [preds _ isInside]

theorem dominates_congr (entry : after.entry = graph.entry)
    (preds : ∀ block, (after.block block).preds = (graph.block block).preds) :
    after.Dominates other block ↔ graph.Dominates other block :=
  not_congr (avoids_congr (fun _ => True) entry (fun block _ => preds block) (fun _ _ _ _ => trivial) trivial)

theorem reaches_congr (entry : after.entry = graph.entry)
    (preds : ∀ block, (after.block block).preds = (graph.block block).preds) :
    after.Reaches block ↔ graph.Reaches block :=
  reaches_iff_of_avoids fun _ => not_iff_not.1 (dominates_congr entry preds)

theorem avoids_back_edge {source : BlockId} (entry : after.entry = graph.entry)
    (targetPreds : (after.block target).preds = (graph.block target).preds ++ [source])
    (preds : ∀ block, block ≠ target → (after.block block).preds = (graph.block block).preds)
    (dominates : graph.Dominates target source) :
    after.Avoids other block ↔ graph.Avoids other block := by
  constructor
  · intro avoids
    induction avoids with
    | entry differs => exact entry ▸ .entry (entry ▸ differs)
    | @step pred block edge _ differs ih =>
      by_cases isTarget : block = target
      · subst isTarget
        rw [targetPreds, List.mem_append, List.mem_singleton] at edge
        rcases edge with edge | rfl
        · exact .step edge ih differs
        · exact (ih.split block).resolve_left dominates
      · rw [preds _ isTarget] at edge
        exact .step edge ih differs
  · intro avoids
    induction avoids with
    | entry differs => exact entry ▸ .entry (entry ▸ differs)
    | @step pred block edge _ differs ih =>
      refine .step ?_ ih differs
      by_cases isTarget : block = target
      · subst isTarget
        rw [targetPreds]
        exact List.mem_append_left _ edge
      · rwa [preds _ isTarget]

end Graph

end Shader
