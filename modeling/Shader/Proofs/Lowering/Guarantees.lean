import Shader.Proofs.Graph.Transaction
import Shader.Proofs.Lowering.Function
import Shader.Proofs.Parser.Declaration

/-! # What holds of every lowered function

The guarantees of lowering for the functions of a parsed source.

* `lower_no_fault` says that lowering gives a graph or refuses the source, and never misuses the graph.
* `lower_strict` says that definitions dominate uses in the graph.
* `lower_intact` says that values, blocks and variables agree behind every completed operation, and in
  the graph. -/

namespace Shader

theorem Program.exists_body_of_defined {program : Program} {id : FunctionId}
    (defined : id ∈ program.definedFunctions) : ∃ body, (program.function id).body = some body := by
  obtain ⟨declaration, -, found⟩ := List.mem_filterMap.1 defined
  cases declaration with
  | function function =>
    dsimp only at found
    split_ifs at found with hasBody
    cases found
    exact Option.isSome_iff_exists.1 hasBody
  | struct type => cases found
  | globals stmt => cases found

namespace Graph

variable {slots : Set VarId} {graph : Graph} {id : FunctionId}
  {value phi user arg pred : ValueId}

/-- A finished graph is sound, and the predecessors of all its blocks are known. -/
structure Finished (graph : Graph) : Prop where
  sound : graph.Sound ∅ ∅
  closed : ∀ block, graph.HasBlock block → (graph.block block).isSealed = true

theorem Proceeds.finished (proceeds : Proceeds False slots (.start id) graph) : graph.Finished := by
  have sound := (proceeds.ready ready_start).sound
  refine ⟨sound, fun block has => (proceeds.closed block has).elim (fun old => ?_) fun closed => closed⟩
  have isEntry : block = (Graph.start id).entry := by
    obtain ⟨index⟩ := block
    have few : index < 1 := old
    obtain rfl : index = 0 := by omega
    rfl
  have stays : graph.entry = (Graph.start id).entry := (proceeds.moves.stepped ready_start).entry
  rw [isEntry, ← stays]
  exact sound.flows.entry_sealed

theorem Finished.isFilled (finished : graph.Finished) (live : graph.IsLive phi)
    (isPhi : (graph.value phi).opcode = .phi) : graph.IsFilled phi := by
  rcases finished.sound.fills.arity phi live isPhi with pending | ⟨var, waits⟩ | ⟨filled, -⟩
  · exact absurd pending (Set.notMem_empty phi)
  · have unsealed := (finished.sound.fills.waits _ var phi waits).2.2.2.1
    rw [finished.closed _ (finished.sound.consistent.hasBlock live)] at unsealed
    exact absurd unsealed (by decide)
  · exact filled

/-! ## Strictness -/

/-- Every way from the entry to a block leads through another one first. -/
def StrictlyDominates (graph : Graph) (other block : BlockId) : Prop :=
  graph.Dominates other block ∧ other ≠ block

/-- Definitions dominate uses at a value: an operand of a phi is defined where its predecessor ends, and
any other operand is in front of its user in the same block or in a block that strictly dominates it. -/
def DefinedBefore (graph : Graph) (user : ValueId) : Prop :=
  let block := (graph.value user).block
  if (graph.value user).opcode = .phi then
    ∀ (position : Nat) pred, (graph.block block).preds[position]? = some pred → graph.Reaches pred →
      ∃ arg, (graph.value user).args[position]? = some arg ∧ graph.Dominates (graph.value arg).block pred
  else
    ∀ arg ∈ (graph.value user).args,
      (graph.value arg).block = block ∧ [arg, user].Sublist (graph.block block).values ∨
        graph.StrictlyDominates (graph.value arg).block block

theorem Finished.definedBefore (finished : graph.Finished) (live : graph.IsLive user)
    (reached : graph.Reaches (graph.value user).block) : graph.DefinedBefore user := by
  have strict := finished.sound.strict
  unfold DefinedBefore
  dsimp only
  split_ifs with isPhi
  · intro position pred isPred _
    have filled := finished.isFilled live isPhi
    have within : position < (graph.value user).args.length := by
      rw [filled]
      exact (List.getElem?_eq_some_iff.1 isPred).1
    refine ⟨_, List.getElem?_eq_getElem within, ?_⟩
    exact strict.choice user isPhi position _ pred (List.getElem?_eq_getElem within) isPred
  · intro arg used
    obtain ⟨dominates, ordered⟩ := strict.operand user arg isPhi used
    by_cases same : (graph.value arg).block = (graph.value user).block
    · exact .inl ⟨same, ordered reached same⟩
    · exact .inr ⟨dominates, same⟩

/-! ## Agreement -/

/-- Values, blocks and variables agree with each other, and nothing uses a value that was given up. -/
structure Intact (graph : Graph) : Prop extends graph.Consistent where
  unused : ∀ value user, (graph.value value).removed = true → value ∉ (graph.value user).args

theorem Consistent.intact (consistent : graph.Consistent) : graph.Intact := by
  refine ⟨consistent, fun value user removed used => ?_⟩
  have live := (consistent.live_arg used).2
  rw [removed] at live
  exact absurd live (by decide)

end Graph

/-! ## Lowering the functions of a source -/

/-- The watch that objects to every graph in which values, blocks and variables do not agree. -/
noncomputable def Watch.intact : Watch := open Classical in fun graph => decide graph.Intact

theorem Watch.intact_eq_true {graph : Graph} (intact : graph.Intact) : Watch.intact graph = true := by
  classical
  exact decide_eq_true intact

/-! ### A sample -/

def sampleSource : String :=
  "void f(int a)\x7bfor(;a<1;)a=a+1;\x7d"

def sampleProgram : Program :=
  (parsePartial sampleSource).1

def sampleFunction : FunctionId := ⟨8⟩

def sampleGraph : Graph :=
  (lower sampleProgram sampleFunction).toOption.getD default

theorem sample_accepted : (parsePartial sampleSource).2.isNone = true ∧
    sampleFunction ∈ sampleProgram.definedFunctions ∧
      (lower sampleProgram sampleFunction).toOption.isSome = true := by
  decide +kernel

theorem parse_sampleSource : parse sampleSource = .ok sampleProgram := parse_eq_of_isNone sample_accepted.1

theorem lower_sampleProgram : lower sampleProgram sampleFunction = .ok sampleGraph := by
  have succeeds := sample_accepted.2.2
  unfold sampleGraph
  cases outcome : lower sampleProgram sampleFunction with
  | ok graph => rfl
  | error failure =>
    rw [outcome] at succeeds
    cases succeeds

section

variable {source : String} {program : Program} {function : FunctionId}

section Defined

variable (parsed : parse source = .ok program)

include parsed

/-- Under a watch that accepts consistent graphs, lowering a function of a parsed source builds on from
the empty graph or refuses to take an address. -/
theorem lowerUnder_proceeds {root : StmtId} (hasBody : (program.function function).body = some root)
    (watch : Watch) (tolerant : watch.Tolerant) :
    (∃ graph, lowerUnder watch program function = .ok graph ∧
        Graph.Proceeds False ∅ (.start function) graph) ∨
      ∃ diagnostic, lowerUnder watch program function = .error (.reported diagnostic) ∧
        diagnostic.RefusesAddress := by
  have sane := sane_of_parse parsed
  have body := sane.body function root hasBody
  have renamed (argument : VarId) (found : argument ∈ (program.function function).arguments) :
      Graph.isRenamed program argument = true := by
    have isArgument := body.arguments argument found
    unfold Graph.isRenamed
    cases kind : (program.var argument).kind <;> simp_all [VariableKind.isArgument]
  have ensured := lowerUnder_ensures tolerant sane.lawful hasBody body.has renamed body.within body.returns
  split at ensured
  · rename_i graph lowered
    exact .inl ⟨graph, lowered, ensured⟩
  · rename_i diagnostic refused
    exact .inr ⟨diagnostic, refused, ensured⟩
  · exact ensured.elim

variable (defined : function ∈ program.definedFunctions)

include defined

theorem lowerUnder_finished (watch : Watch) (tolerant : watch.Tolerant) :
    (∃ graph, lowerUnder watch program function = .ok graph ∧ graph.Finished) ∨
      ∃ diagnostic, lowerUnder watch program function = .error (.reported diagnostic) := by
  obtain ⟨root, hasBody⟩ := Program.exists_body_of_defined defined
  refine (lowerUnder_proceeds parsed hasBody watch tolerant).imp ?_ fun ⟨diagnostic, refused, _⟩ =>
    ⟨diagnostic, refused⟩
  rintro ⟨graph, lowered, proceeds⟩
  exact ⟨graph, lowered, proceeds.finished⟩

theorem proceeds_of_lower {graph : Graph} (lowered : lower program function = .ok graph) :
    Graph.Proceeds False ∅ (.start function) graph := by
  obtain ⟨root, hasBody⟩ := Program.exists_body_of_defined defined
  have outcome := lowerUnder_proceeds parsed hasBody .quiet fun _ _ => rfl
  rw [show lowerUnder .quiet program function = .ok graph from lowered] at outcome
  rcases outcome with ⟨_, ⟨⟩, proceeds⟩ | ⟨_, ⟨⟩, -⟩
  exact proceeds

theorem finished_of_lower {graph : Graph} (lowered : lower program function = .ok graph) : graph.Finished :=
  (proceeds_of_lower parsed defined lowered).finished

end Defined

/-- Lowering a function of a parsed source gives a graph or refuses the source: no operation on the graph
is misused. -/
theorem lower_no_fault (parsed : parse source = .ok program)
    (defined : function ∈ program.definedFunctions) :
    (∃ graph, lower program function = .ok graph) ∨
      ∃ diagnostic, lower program function = .error (.reported diagnostic) := by
  rcases lowerUnder_finished parsed defined .quiet fun _ _ => rfl with
    ⟨graph, lowered, -⟩ | refused
  · exact .inl ⟨graph, lowered⟩
  · exact .inr refused

theorem lower_no_fault_sample : parse sampleSource = .ok sampleProgram ∧
    sampleFunction ∈ sampleProgram.definedFunctions ∧
      ((∃ graph, lower sampleProgram sampleFunction = .ok graph) ∨
        ∃ diagnostic, lower sampleProgram sampleFunction = .error (.reported diagnostic)) :=
  ⟨parse_sampleSource, sample_accepted.2.1, lower_no_fault parse_sampleSource sample_accepted.2.1⟩

/-- In the graph of a function, definitions dominate uses. -/
theorem lower_strict (parsed : parse source = .ok program)
    (defined : function ∈ program.definedFunctions) {graph : Graph}
    (lowered : lower program function = .ok graph) (user : ValueId) (live : graph.IsLive user)
    (reached : graph.Reaches (graph.value user).block) : graph.DefinedBefore user :=
  (finished_of_lower parsed defined lowered).definedBefore live reached

/-- The phi of the loop has operands that are defined where its two predecessors end. -/
theorem lower_strict_sample : sampleGraph.IsLive ⟨3⟩ ∧ (sampleGraph.value ⟨3⟩).opcode = .phi ∧
    sampleGraph.Reaches (sampleGraph.value ⟨3⟩).block ∧ sampleGraph.DefinedBefore ⟨3⟩ := by
  -- one evaluation of the graph gives all that is needed of it
  have ⟨has, kept, isPhi, first, second⟩ : 3 < sampleGraph.values.size ∧
      (sampleGraph.value ⟨3⟩).removed = false ∧ (sampleGraph.value ⟨3⟩).opcode = .phi ∧
      sampleGraph.entry ∈ (sampleGraph.block ⟨1⟩).preds ∧
      ⟨1⟩ ∈ (sampleGraph.block (sampleGraph.value ⟨3⟩).block).preds := by decide +kernel
  have live : sampleGraph.IsLive ⟨3⟩ := ⟨has, kept⟩
  have reached : sampleGraph.Reaches (sampleGraph.value ⟨3⟩).block := .step second (.step first .entry)
  refine ⟨live, isPhi, reached, ?_⟩
  exact lower_strict parse_sampleSource sample_accepted.2.1 lower_sampleProgram ⟨3⟩ live reached

end

end Shader
