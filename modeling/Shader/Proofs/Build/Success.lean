import Shader.Proofs.Build.Outcome
import Shader.Proofs.Typing.Rules

/-! # Successful building steps

What a step of building leaves when it does not fail, where nothing watches. No step takes a value out of
a graph or changes what a value is, so whatever can be said of all values that were ever made can be read
off the graph that a build ends with.

Unlike `Build.Yields`, `Build.Gives` asks for nothing that keeps the step from failing. -/

namespace Shader

/-- A watch that accepts a graph accepts everything that the graph grew from. -/
def Watch.LooksBack (watch : Watch) : Prop :=
  ∀ graph after : Graph, graph.Grows after → watch after = true → watch graph = true

namespace Build

variable {α β : Type} {graph : Graph} {step : Build α} {next : α → Build β}
  {post weaker middle : α → Graph → Prop} {final : β → Graph → Prop}

/-- A step has let its graph grow, and a watch that looks back and accepts what is there in the end has
nothing to object to on the way. -/
def Enlarges (step : Build α) (graph : Graph) (result : α) (after : Graph) : Prop :=
  graph.Grows after ∧ ∀ watch : Watch, watch.LooksBack → watch after = true →
    step.under watch graph = .ok result after

/-- If a step succeeds, its graph has grown, and its result and the graph behind it have a property. -/
def Gives (step : Build α) (graph : Graph) (post : α → Graph → Prop) : Prop :=
  ∀ result after, step.under .quiet graph = .ok result after →
    Enlarges step graph result after ∧ post result after

theorem Gives.weaken (gives : Gives step graph post)
    (implies : ∀ result after, step.under .quiet graph = .ok result after → graph.Grows after →
      post result after → weaker result after) : Gives step graph weaker := by
  intro result after runs
  obtain ⟨enlarges, holds⟩ := gives result after runs
  exact ⟨enlarges, implies result after runs enlarges.1 holds⟩

theorem Gives.mono (gives : Gives step graph post)
    (implies : ∀ result after, post result after → weaker result after) : Gives step graph weaker :=
  gives.weaken fun result after _ _ => implies result after

theorem gives_pure {value : α} (holds : post value graph) : Gives (pure value) graph post := by
  rintro _ _ ⟨⟩
  exact ⟨⟨.refl, fun _ _ _ => rfl⟩, holds⟩

theorem gives_fail {fault : Fault} : Gives (fail fault) graph post := by
  rintro _ _ ⟨⟩

theorem gives_refuse {diagnostic : Diagnostic} : Gives (refuse diagnostic) graph post := by
  rintro _ _ ⟨⟩

theorem Gives.bind (first : Gives step graph middle)
    (second : ∀ value after, middle value after → Gives (next value) after final) :
    Gives (step >>= next) graph final := by
  intro result last runs
  cases stepped : step.under .quiet graph with
  | ok value after =>
    rw [under_bind_ok stepped] at runs
    obtain ⟨⟨grows, watched⟩, holds⟩ := first value after stepped
    obtain ⟨⟨growsOn, watchedOn⟩, holds⟩ := second value after holds result last runs
    refine ⟨⟨grows.trans growsOn, fun watch looksBack accepted => ?_⟩, holds⟩
    rw [under_bind_ok (watched watch looksBack (looksBack after last growsOn accepted))]
    exact watchedOn watch looksBack accepted
  | error failure after =>
    rw [under_bind_error stepped] at runs
    cases runs

theorem gives_get_bind {next : Graph → Build β} (continues : Gives (next graph) graph final) :
    Gives (get >>= next) graph final :=
  continues

theorem gives_modify {change : Graph → Graph} {post : PUnit → Graph → Prop}
    (grows : graph.Grows (change graph)) (holds : post .unit (change graph)) :
    Gives (modify change) graph post := by
  rintro _ _ ⟨⟩
  exact ⟨⟨grows, fun _ _ _ => rfl⟩, holds⟩

theorem gives_modifyGet {change : Graph → α × Graph} (grows : graph.Grows (change graph).2)
    (holds : post (change graph).1 (change graph).2) : Gives (modifyGet change) graph post := by
  rintro _ _ ⟨⟩
  exact ⟨⟨grows, fun _ _ _ => rfl⟩, holds⟩

theorem gives_modify_bind {change : Graph → Graph} {next : PUnit → Build β}
    (grows : graph.Grows (change graph)) (continues : Gives (next .unit) (change graph) final) :
    Gives (modify change >>= next) graph final :=
  have changes : Gives (modify change) graph fun _ after => after = change graph := gives_modify grows rfl
  changes.bind fun _ _ same => same ▸ continues

theorem gives_modifyGet_bind {change : Graph → α × Graph} (grows : graph.Grows (change graph).2)
    (continues : Gives (next (change graph).1) (change graph).2 final) :
    Gives (modifyGet change >>= next) graph final := by
  have changes : Gives (modifyGet change) graph fun value after => (value, after) = change graph :=
    gives_modifyGet grows rfl
  refine changes.bind fun value after same => ?_
  rw [← same] at continues
  exact continues

theorem gives_require_bind {condition : Bool} {fault : Fault} {next : Unit → Build β}
    (continues : condition = true → Gives (next ()) graph final) :
    Gives (require condition fault >>= next) graph final := by
  unfold require
  split_ifs with satisfied
  · exact continues satisfied
  · rintro _ _ ⟨⟩

theorem gives_accept_bind {result : Except Fault α}
    (continues : ∀ value, result = .ok value → Gives (next value) graph final) :
    Gives (accept result >>= next) graph final := by
  cases result with
  | ok value => exact continues value rfl
  | error fault => rintro _ _ ⟨⟩

theorem gives_watched {call : Build α} (gives : Gives call graph post) : Gives (watched call) graph post := by
  refine Gives.bind gives fun result after holds => ?_
  have looked : Gives look after fun _ last => last = after := by
    rintro _ _ ⟨⟩
    exact ⟨⟨.refl, fun watch _ accepted => by simp [look, accepted]⟩, rfl⟩
  refine Gives.bind looked ?_
  rintro _ _ rfl
  exact gives_pure holds

theorem gives_forM {items : List α} {step : α → Build PUnit} (invariant : List α → Graph → Prop)
    (holds : invariant items graph)
    (preserved : ∀ item rest graph, invariant (item :: rest) graph →
      Gives (step item) graph fun _ after => invariant rest after) :
    Gives (items.forM step) graph fun _ after => invariant [] after := by
  induction items generalizing graph with
  | nil => exact gives_pure holds
  | cons item rest ih =>
    exact Gives.bind (preserved item rest graph holds) fun _ _ holds => ih holds

theorem gives_foldlM {items : List α} {step : β → α → Build β} {start : β}
    (invariant : List α → β → Graph → Prop) (holds : invariant items start graph)
    (preserved : ∀ item rest value graph, invariant (item :: rest) value graph →
      Gives (step value item) graph fun result after => invariant rest result after) :
    Gives (items.foldlM step start) graph fun result after => invariant [] result after := by
  induction items generalizing start graph with
  | nil => exact gives_pure holds
  | cons item rest ih =>
    rw [List.foldlM_cons]
    exact Gives.bind (preserved item rest start graph holds) fun _ _ holds => ih holds

theorem gives_mapM {items : List α} {step : α → Build β}
    (invariant : List α → List β → Graph → Prop) (holds : invariant items [] graph)
    (preserved : ∀ item rest results graph, invariant (item :: rest) results graph →
      Gives (step item) graph fun result after => invariant rest (results ++ [result]) after) :
    Gives (items.mapM step) graph fun results after => invariant [] results after := by
  -- the results are collected in reverse
  have collect (items : List α) (reversed : List β) (graph : Graph)
      (holds : invariant items reversed.reverse graph) :
      Gives (List.mapM.loop step items reversed) graph fun results after =>
        invariant [] results after := by
    induction items generalizing reversed graph with
    | nil => exact gives_pure holds
    | cons item rest ih =>
      refine Gives.bind (preserved item rest _ graph holds) fun result after holds => ?_
      exact ih (result :: reversed) after (by simpa using holds)
  exact collect items [] graph holds

end Build

end Shader
