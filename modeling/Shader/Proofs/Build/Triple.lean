import Mathlib
import Shader.Graph.Build

/-! # Triples

Steps of building have weakest preconditions, so that what holds of them can be computed from what they are
made of. The rules for loops are for all kinds of steps. -/

namespace Shader

open Std.Do

/-- What is shown of a step by a triple holds of its run. -/
theorem run_of_triple {ε σ α : Type} {step : EStateM ε σ α} {state : σ}
    {pre : Assertion (.except ε (.arg σ .pure))} {post : PostCond α (.except ε (.arg σ .pure))}
    (triple : ⦃pre⦄ step ⦃post⦄) (holds : (pre state).down) :
    match step.run state with
    | .ok result after => (post.1 result after).down
    | .error failure after => (post.2.1 failure after).down := by
  have holds := triple state holds
  simp only [wp, PredTrans.apply, EStateM.run] at holds ⊢
  split at holds
  next run => rwa [run]
  next run => rwa [run]

/-! ## Loops -/

section Loops

variable {m : Type → Type} {ps : PostShape} [Monad m] [WPMonad m ps] {α β : Type} {items : List α}
  {holds : Assertion ps} {fails : ExceptConds ps}

theorem triple_forM {step : α → m PUnit} (each : ∀ item ∈ items, ⦃holds⦄ step item ⦃(fun _ => holds, fails)⦄) :
    ⦃holds⦄ items.forM step ⦃(fun _ => holds, fails)⦄ := by
  induction items with
  | nil => exact Triple.pure _ .rfl
  | cons item rest ih =>
    rw [List.forall_mem_cons] at each
    exact Triple.bind _ _ each.1 fun _ => ih each.2

theorem triple_mapM {step : α → m β} (each : ∀ item ∈ items, ⦃holds⦄ step item ⦃(fun _ => holds, fails)⦄) :
    ⦃holds⦄ items.mapM step ⦃(fun _ => holds, fails)⦄ := by
  induction items with
  | nil => exact Triple.pure _ .rfl
  | cons item rest ih =>
    rw [List.forall_mem_cons] at each
    rw [List.mapM_cons]
    exact Triple.bind _ _ each.1 fun _ => Triple.bind _ _ (ih each.2) fun _ => Triple.pure _ .rfl

theorem triple_foldlM {step : β → α → m β} (each : ∀ start item, ⦃holds⦄ step start item ⦃(fun _ => holds, fails)⦄)
    (start : β) : ⦃holds⦄ items.foldlM step start ⦃(fun _ => holds, fails)⦄ := by
  induction items generalizing start with
  | nil => exact Triple.pure _ .rfl
  | cons item rest ih =>
    rw [List.foldlM_cons]
    exact Triple.bind _ _ (each start item) ih

end Loops

/-! ## Building -/

namespace Build

abbrev Shape : PostShape :=
  .except Failure (.arg Graph .pure)

variable {α : Type} {post : PostCond α Shape}

instance : LawfulMonad Build := LawfulMonad.mk' Build
  (fun step => congrArg mk (funext fun watch => bind_pure (step.under watch))) (fun _ _ => rfl)
  (fun step next last => congrArg mk (funext fun watch => bind_assoc (step.under watch)
    (fun value => (next value).under watch) fun value => (last value).under watch))

instance : WP Build Shape := ⟨fun step => wp step.run⟩

instance : WPMonad Build Shape where
  wp_pure value := @WPMonad.wp_pure (EStateM Failure Graph) _ _ _ _ value
  wp_bind step next := @WPMonad.wp_bind (EStateM Failure Graph) _ _ _ _ _ step.run fun value => (next value).run

@[spec]
theorem triple_get {post : PostCond Graph Shape} :
    ⦃fun graph => post.1 graph graph⦄ (MonadStateOf.get : Build Graph) ⦃post⦄ := fun _ holds => holds

@[spec]
theorem triple_set {post : PostCond PUnit Shape} (graph : Graph) :
    ⦃fun _ => post.1 .unit graph⦄ (MonadStateOf.set graph : Build PUnit) ⦃post⦄ := fun _ holds => holds

@[spec]
theorem triple_modifyGet (change : Graph → α × Graph) :
    ⦃fun graph => post.1 (change graph).1 (change graph).2⦄ (MonadStateOf.modifyGet change : Build α) ⦃post⦄ :=
  fun _ holds => holds

@[spec]
theorem triple_throw (failure : Failure) :
    ⦃fun graph => post.2.1 failure graph⦄ (MonadExceptOf.throw failure : Build α) ⦃post⦄ := fun _ holds => holds

@[spec]
theorem triple_look {post : PostCond Unit Shape} : ⦃fun graph => post.1 () graph⦄ look ⦃post⦄ :=
  fun _ holds => holds

end Build

end Shader
