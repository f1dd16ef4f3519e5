import Shader.Proofs.Lowering.Guarantees
import Shader.Proofs.Typing.Function

/-! # No phi too many

Lowering leaves no phi that is not needed, and makes no second phi for a variable in a block.

* `Graph.IsNeeded` says that a phi has at least two choices.
* `Graph.OnePhiEach` says that there is one phi for a block and a variable. Values that were given up stay
  in a graph, so that this includes all phis that were ever made.
* `Watch.onePhiEach` objects to every other graph.
* `lower_minimal` says that the graph of a function has only phis that are needed, that there is nothing to
  prune in it, and that it can be made under this watch. -/

namespace Shader

namespace Graph

variable {graph : Graph} {phi : ValueId}

/-- A phi has two operands that differ from each other and from itself. -/
def IsNeeded (graph : Graph) (phi : ValueId) : Prop :=
  ∃ first ∈ (graph.value phi).args, ∃ second ∈ (graph.value phi).args,
    first ≠ second ∧ first ≠ phi ∧ second ≠ phi

/-- Two phis for a variable in a block are the same, whether or not they were given up. -/
def OnePhiEach (graph : Graph) : Prop :=
  ∀ phi other var, (graph.value phi).opcode = .phi → (graph.value other).opcode = .phi →
    (graph.value phi).payload = .var var → (graph.value other).payload = .var var →
    (graph.value phi).block = (graph.value other).block → phi = other

theorem loose_start {function : FunctionId} : (start function).Loose ∅ = ∅ :=
  Set.eq_empty_of_forall_notMem fun phi isLoose => not_hasValue_start phi isLoose.1.1

theorem named_start {function : FunctionId} : (start function).Named := by
  have none (phi : ValueId) : ((start function).value phi).opcode ≠ .phi := by
    rw [value_start]
    decide
  exact ⟨fun phi _ isPhi => absurd isPhi (none phi), fun phi _ _ isPhi => absurd isPhi (none phi)⟩

theorem Finished.not_waits (finished : graph.Finished) (live : graph.IsLive phi) : ¬ graph.Waits phi := by
  rintro ⟨var, waits⟩
  have unsealed := (finished.sound.fills.waits _ var phi waits).2.2.2.1
  rw [finished.closed _ (finished.sound.consistent.hasBlock live)] at unsealed
  cases unsealed

theorem Finished.two_le_choices (finished : graph.Finished) (none : graph.Loose ∅ = ∅)
    (live : graph.IsLive phi) (isPhi : (graph.value phi).opcode = .phi) :
    2 ≤ (graph.choices phi).length := by
  by_contra few
  have isLoose : phi ∈ graph.Loose ∅ :=
    ⟨live, isPhi, Set.notMem_empty phi, finished.not_waits live, Nat.lt_of_not_le few⟩
  rw [none] at isLoose
  exact Set.notMem_empty phi isLoose

theorem isNeeded_of_choices (several : 2 ≤ (graph.choices phi).length) : graph.IsNeeded phi := by
  have distinct : (graph.choices phi).Nodup := nodup_eraseDups _
  cases listed : graph.choices phi with
  | nil => simp [listed] at several
  | cons first rest =>
    cases rest with
    | nil => simp [listed] at several
    | cons second rest =>
      have isFirst : first ∈ graph.choices phi := by simp [listed]
      have isSecond : second ∈ graph.choices phi := by simp [listed]
      rw [listed] at distinct
      have differs : first ≠ second := by
        rintro rfl
        exact (List.nodup_cons.1 distinct).1 List.mem_cons_self
      exact ⟨first, (mem_choices.1 isFirst).1, second, (mem_choices.1 isSecond).1, differs,
        (mem_choices.1 isFirst).2, (mem_choices.1 isSecond).2⟩

theorem OnePhiEach.of_grows {after : Graph} (grows : graph.Grows after) (single : after.OnePhiEach) :
    graph.OnePhiEach := by
  intro phi other var isPhi isOther named namedOther together
  have same (phi : ValueId) (isPhi : (graph.value phi).opcode = .phi) :
      (after.value phi).opcode = .phi ∧ (after.value phi).payload = (graph.value phi).payload ∧
        (after.value phi).block = (graph.value phi).block := by
    have has : graph.HasValue phi := hasValue_of_opcode (by rw [isPhi]; decide)
    exact ⟨(grows.opcode has).trans isPhi, grows.payload has, Value.block_of_nature (grows.nature phi has)⟩
  obtain ⟨stays, payload, home⟩ := same phi isPhi
  obtain ⟨staysOther, payloadOther, homeOther⟩ := same other isOther
  exact single phi other var stays staysOther (payload.trans named) (payloadOther.trans namedOther)
    (home.trans (together.trans homeOther.symm))

end Graph

/-- The watch that objects to every graph in which a block has two phis for a variable. -/
noncomputable def Watch.onePhiEach : Watch := open Classical in fun graph => decide graph.OnePhiEach

theorem Watch.onePhiEach_eq_true {graph : Graph} : Watch.onePhiEach graph = true ↔ graph.OnePhiEach := by
  classical
  exact decide_eq_true_iff

theorem Watch.looksBack_onePhiEach : Watch.onePhiEach.LooksBack := by
  intro graph after grows accepted
  rw [Watch.onePhiEach_eq_true] at accepted ⊢
  exact accepted.of_grows grows

namespace Build

open Shader.Graph

variable {graph : Graph} {phi : ValueId}

theorem removePhi_of_choices (several : 2 ≤ (graph.choices phi).length) :
    (removePhi phi).under .quiet graph = .ok phi graph := by
  have stays : Yields .quiet (removePhi phi) graph fun result after => result = phi ∧ after = graph := by
    unfold removePhi
    refine yields_get_bind ?_
    unfold removalLimit removePhiWithin
    refine yields_watched (yields_get_bind ?_)
    rcases listed : graph.choices phi with _ | ⟨first, _ | ⟨second, rest⟩⟩
    · simp [listed] at several
    · simp [listed] at several
    · exact yields_pure ⟨rfl, rfl, rfl⟩
  obtain ⟨_, _, runs, rfl, rfl⟩ := stays
  exact runs

theorem prunePhi_of_choices
    (several : (graph.value phi).removed = false → 2 ≤ (graph.choices phi).length) :
    (prunePhi phi).under .quiet graph = .ok false graph := by
  unfold prunePhi
  rw [under_bind_ok under_get]
  split_ifs with removed
  · rfl
  · rw [under_bind_ok (removePhi_of_choices (several (by simpa using removed))), bne_self_eq_false]
    rfl

theorem prunePhis_of_choices (several : ∀ phi, graph.IsLive phi → (graph.value phi).opcode = .phi →
      2 ≤ (graph.choices phi).length) : prunePhis graph = .ok 0 graph := by
  have stays (phi : ValueId) (found : phi ∈ graph.liveValues.filter graph.isPhi) :
      (prunePhi phi).under .quiet graph = .ok false graph := by
    have isPhi : (graph.value phi).opcode = .phi := by
      simpa [isPhi] using (List.mem_filter.1 found).2
    have has : graph.HasValue phi := hasValue_of_opcode (by rw [isPhi]; decide)
    exact prunePhi_of_choices fun kept => several phi ⟨has, kept⟩ isPhi
  have all (phis : List ValueId) (results : List Bool)
      (each : ∀ phi ∈ phis, (prunePhi phi).under .quiet graph = .ok false graph)
      (none : results.count true = 0) :
      ∃ removed : List Bool, (List.mapM.loop prunePhi phis results).under .quiet graph =
        .ok removed graph ∧ removed.count true = 0 := by
    induction phis generalizing results with
    | nil => exact ⟨results.reverse, rfl, by rw [List.count_reverse, none]⟩
    | cons phi rest ih =>
      obtain ⟨removed, runs, count⟩ := ih (false :: results)
        (fun phi found => each phi (List.mem_cons_of_mem _ found)) (by simpa using none)
      refine ⟨removed, ?_, count⟩
      exact (under_bind_ok (each phi List.mem_cons_self)).trans runs
  obtain ⟨removed, runs, count⟩ := all _ [] stays rfl
  refine (under_bind_ok under_get).trans ((under_bind_ok runs).trans ?_)
  rw [count]
  rfl

end Build

variable {source : String} {program : Program} {function : FunctionId} {graph : Graph}

/-- The graph of a function has only phis that are needed, and at no time of its making had a block two
phis for a variable. -/
theorem lower_minimal (parsed : parse source = .ok program)
    (defined : function ∈ program.definedFunctions) (lowered : lower program function = .ok graph) :
    (∀ phi, graph.IsLive phi → (graph.value phi).opcode = .phi → graph.IsNeeded phi) ∧
      Build.prunePhis graph = .ok 0 graph ∧ graph.OnePhiEach ∧
      lowerUnder .onePhiEach program function = .ok graph := by
  have proceeds := proceeds_of_lower parsed defined lowered
  have finished := proceeds.finished
  have neatens := proceeds.moves.neatens
  have none : graph.Loose ∅ = ∅ := Set.subset_empty_iff.1 (neatens.loose.trans Graph.loose_start.subset)
  have single : graph.OnePhiEach := (neatens.named Graph.named_start).single
  have several (phi : ValueId) (live : graph.IsLive phi) (isPhi : (graph.value phi).opcode = .phi) :
      2 ≤ (graph.choices phi).length := finished.two_le_choices none live isPhi
  refine ⟨fun phi live isPhi => Graph.isNeeded_of_choices (several phi live isPhi), ?_, single, ?_⟩
  · exact Build.prunePhis_of_choices several
  · exact lowerUnder_of_lower (sane_of_parse parsed) lowered Watch.looksBack_onePhiEach (Watch.onePhiEach_eq_true.2 single)

/-- The phi of the loop is needed: the variable comes from in front of the loop or from its body. -/
theorem lower_minimal_sample : parse sampleSource = .ok sampleProgram ∧
    sampleFunction ∈ sampleProgram.definedFunctions ∧
      lower sampleProgram sampleFunction = .ok sampleGraph ∧ sampleGraph.IsLive ⟨3⟩ ∧
      sampleGraph.IsNeeded ⟨3⟩ ∧ Build.prunePhis sampleGraph = .ok 0 sampleGraph ∧
      sampleGraph.OnePhiEach ∧
      lowerUnder .onePhiEach sampleProgram sampleFunction = .ok sampleGraph := by
  have ⟨has, kept, isPhi⟩ : 3 < sampleGraph.values.size ∧
      (sampleGraph.value ⟨3⟩).removed = false ∧ (sampleGraph.value ⟨3⟩).opcode = .phi := by
    decide +kernel
  have live : sampleGraph.IsLive ⟨3⟩ := ⟨has, kept⟩
  obtain ⟨needed, rest⟩ := lower_minimal parse_sampleSource sample_accepted.2.1 lower_sampleProgram
  exact ⟨parse_sampleSource, sample_accepted.2.1, lower_sampleProgram, live, needed ⟨3⟩ live isPhi, rest⟩

end Shader
