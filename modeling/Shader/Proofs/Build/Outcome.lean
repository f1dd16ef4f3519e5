import Mathlib
import Shader.Graph.Build

/-! # Outcomes of building steps

What a step of building a graph does, as a predicate on its result and the graph behind it.

`Build.Yields` and `Build.Ensures` follow the step: a pure step, a `bind`, a change of the graph, a list of steps. -/

namespace Shader

def Diagnostic.RefusesAddress (diagnostic : Diagnostic) : Prop :=
  ∃ span, diagnostic = .loweringAt span .addressUnsupported

namespace Build

variable {α β : Type} {watch : Watch} {graph : Graph} {step : Build α} {next : α → Build β}
  {post weaker middle : α → Graph → Prop} {final : β → Graph → Prop}
  {value : α} {after : Graph} {items : List α}

/-! ## Running the parts of a step -/

@[simp] theorem under_get : (get : Build Graph).under watch graph = .ok graph graph := rfl

@[simp] theorem under_modify (change : Graph → Graph) :
    (modify change : Build PUnit).under watch graph = .ok .unit (change graph) := rfl

@[simp] theorem under_modifyGet (change : Graph → α × Graph) :
    (modifyGet change : Build α).under watch graph = .ok (change graph).1 (change graph).2 := rfl

theorem under_bind_ok (first : step.under watch graph = .ok value after) :
    (step >>= next).under watch graph = (next value).under watch after := by
  change (step.under watch >>= fun value => (next value).under watch) graph = _
  simp only [bind, EStateM.bind, first]

theorem under_bind_error {failure : Failure}
    (first : step.under watch graph = .error failure after) :
    (step >>= next).under watch graph = .error failure after := by
  change (step.under watch >>= fun value => (next value).under watch) graph = _
  simp only [bind, EStateM.bind, first]

/-! ## Steps that give a result -/

/-- A step gives a result, and the result and the graph behind it have a property. -/
def Yields (watch : Watch) (step : Build α) (graph : Graph) (post : α → Graph → Prop) : Prop :=
  ∃ result after, step.under watch graph = .ok result after ∧ post result after

theorem Yields.mono (yields : Yields watch step graph post)
    (implies : ∀ result after, post result after → weaker result after) :
    Yields watch step graph weaker := by
  obtain ⟨result, after, runs, holds⟩ := yields
  exact ⟨result, after, runs, implies result after holds⟩

theorem Yields.bind (first : Yields watch step graph middle)
    (second : ∀ value after, middle value after → Yields watch (next value) after final) :
    Yields watch (step >>= next) graph final := by
  obtain ⟨value, after, runs, holds⟩ := first
  obtain ⟨result, last, continues, done⟩ := second value after holds
  exact ⟨result, last, (under_bind_ok runs).trans continues, done⟩

theorem yields_bind_of_eq (runs : step.under watch graph = .ok value after)
    (continues : Yields watch (next value) after final) :
    Yields watch (step >>= next) graph final := by
  obtain ⟨result, last, done, holds⟩ := continues
  exact ⟨result, last, (under_bind_ok runs).trans done, holds⟩

theorem yields_pure (holds : post value graph) : Yields watch (pure value) graph post :=
  ⟨value, graph, rfl, holds⟩

theorem yields_get_bind {next : Graph → Build β} (continues : Yields watch (next graph) graph final) :
    Yields watch (get >>= next) graph final := by
  obtain ⟨result, after, runs, holds⟩ := continues
  exact ⟨result, after, runs, holds⟩

theorem yields_modify {change : Graph → Graph} {post : PUnit → Graph → Prop}
    (holds : post .unit (change graph)) : Yields watch (modify change) graph post :=
  ⟨.unit, change graph, rfl, holds⟩

theorem yields_modifyGet {change : Graph → α × Graph}
    (holds : post (change graph).1 (change graph).2) : Yields watch (modifyGet change) graph post :=
  ⟨(change graph).1, (change graph).2, rfl, holds⟩

theorem under_require {condition : Bool} {fault : Fault} (satisfied : condition = true) :
    (require condition fault).under watch graph = .ok () graph := by
  rw [require, if_pos satisfied]
  rfl

theorem under_accept {result : Except Fault α} (fine : result = .ok value) :
    (accept result).under watch graph = .ok value graph := by
  rw [fine]
  rfl

theorem yields_watched {call : Build α}
    (inner : Yields watch call graph fun result after => watch after = true ∧ post result after) :
    Yields watch (watched call) graph post := by
  obtain ⟨result, after, runs, accepted, holds⟩ := inner
  refine ⟨result, after, ?_, holds⟩
  rw [watched, under_bind_ok runs]
  have looked : look.under watch after = .ok () after := by simp [look, accepted]
  rw [under_bind_ok looked]
  rfl

theorem yields_forM {step : α → Build PUnit}
    (invariant : List α → Graph → Prop) (holds : invariant items graph)
    (preserved : ∀ item rest graph, invariant (item :: rest) graph →
      Yields watch (step item) graph fun _ after => invariant rest after) :
    Yields watch (items.forM step) graph fun _ after => invariant [] after := by
  induction items generalizing graph with
  | nil => exact yields_pure holds
  | cons item rest ih =>
    exact Yields.bind (preserved item rest graph holds) fun _ _ holds => ih holds

/-! ## Steps that give a result or refuse to take an address -/

/-- A step does not misuse the graph, and if it gives a result, the result and the graph behind it
have a property. It may refuse to take an address. -/
def Ensures (watch : Watch) (step : Build α) (graph : Graph) (post : α → Graph → Prop) :
    Prop :=
  match step.under watch graph with
  | .ok result after => post result after
  | .error (.reported diagnostic) _ => diagnostic.RefusesAddress
  | .error (.fault _) _ => False

theorem Yields.ensures (yields : Yields watch step graph post) : Ensures watch step graph post := by
  obtain ⟨result, after, runs, holds⟩ := yields
  rw [Ensures, runs]
  exact holds

theorem Ensures.mono (ensured : Ensures watch step graph post)
    (implies : ∀ result after, post result after → weaker result after) :
    Ensures watch step graph weaker := by
  unfold Ensures at ensured ⊢
  split at ensured
  · exact implies _ _ ensured
  · exact ensured
  · exact ensured

theorem Ensures.bind (first : Ensures watch step graph middle)
    (second : ∀ value after, middle value after → Ensures watch (next value) after final) :
    Ensures watch (step >>= next) graph final := by
  unfold Ensures at first ⊢
  split at first
  · rename_i value after runs
    rw [under_bind_ok runs]
    exact second value after first
  · rename_i runs
    rw [under_bind_error runs]
    exact first
  · exact first.elim

theorem ensures_assoc {γ : Type} {last : β → Build γ} {post : γ → Graph → Prop}
    (ensured : Ensures watch (step >>= next >>= last) graph post) :
    Ensures watch (step >>= fun value => next value >>= last) graph post := by
  unfold Ensures at ensured ⊢
  cases runs : step.under watch graph with
  | ok value after =>
    rw [under_bind_ok runs]
    cases continues : (next value).under watch after with
    | ok result end' =>
      rw [under_bind_ok continues]
      rwa [under_bind_ok ((under_bind_ok runs).trans continues)] at ensured
    | error failure end' =>
      rw [under_bind_error continues]
      rwa [under_bind_error ((under_bind_ok runs).trans continues)] at ensured
  | error failure after =>
    rw [under_bind_error runs]
    rwa [under_bind_error (under_bind_error runs)] at ensured

theorem ensures_pure (holds : post value graph) : Ensures watch (pure value) graph post := holds

theorem ensures_get_bind {next : Graph → Build β}
    (continues : Ensures watch (next graph) graph final) :
    Ensures watch (get >>= next) graph final :=
  continues

theorem ensures_refuse {diagnostic : Diagnostic} (refuses : diagnostic.RefusesAddress) :
    Ensures watch (refuse diagnostic) graph post :=
  refuses

theorem ensures_forM {step : α → Build PUnit}
    (invariant : List α → Graph → Prop) (holds : invariant items graph)
    (preserved : ∀ item rest graph, invariant (item :: rest) graph →
      Ensures watch (step item) graph fun _ after => invariant rest after) :
    Ensures watch (items.forM step) graph fun _ after => invariant [] after := by
  induction items generalizing graph with
  | nil => exact ensures_pure holds
  | cons item rest ih =>
    exact Ensures.bind (preserved item rest graph holds) fun _ _ holds => ih holds

theorem ensures_mapM {step : α → Build β}
    (invariant : List α → List β → Graph → Prop) (holds : invariant items [] graph)
    (preserved : ∀ item rest results graph, invariant (item :: rest) results graph →
      Ensures watch (step item) graph fun result after =>
        invariant rest (results ++ [result]) after) :
    Ensures watch (items.mapM step) graph fun results after =>
      invariant [] results after := by
  -- the results are collected in reverse
  have collect (items : List α) (reversed : List β) (graph : Graph)
      (holds : invariant items reversed.reverse graph) :
      Ensures watch (List.mapM.loop step items reversed) graph fun results after =>
        invariant [] results after := by
    induction items generalizing reversed graph with
    | nil => exact ensures_pure holds
    | cons item rest ih =>
      refine Ensures.bind (preserved item rest _ graph holds) fun result after holds => ?_
      exact ih (result :: reversed) after (by simpa using holds)
  exact collect items [] graph holds

end Build

end Shader
