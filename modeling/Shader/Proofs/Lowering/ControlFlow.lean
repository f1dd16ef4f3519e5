import Shader.Proofs.Lowering.Guarantees
import Shader.Proofs.Typing.Function

/-! # Control flow of lowered functions

Every block of a lowered function is closed, and its edges are those of its ending.

* `Value.GoesOn` says which blocks an ending goes on with.
* `Graph.WellFormed` is all that holds of the blocks of a finished function.
* `lower_wellFormed` says that lowering gives only such graphs.

That blocks, edges and phis agree is a part of soundness. That no block is left open is not: it is known
from the walk through the statements, which gives an ending to every block that it leaves. -/

namespace Shader

/-- An ending goes on with blocks: a jump with one, a conditional jump with two, and everything else
leaves the function. -/
inductive Value.GoesOn (value : Value) : List BlockId → Prop where
  | jump {target : BlockId} (isJump : value.opcode = .jump) (goes : value.payload = .target target) :
    GoesOn value [target]
  | condJump {onTrue onFalse : BlockId} (isJump : value.opcode = .condJump)
      (goes : value.payload = .targets onTrue onFalse) : GoesOn value [onTrue, onFalse]
  | leave (leaves : value.opcode ∈ [.returnValue, .returnVoid, .unreachable]) : GoesOn value []

namespace Graph

variable {program : Program} {graph : Graph} {block : BlockId} {ending : ValueId}

/-- The blocks of a finished function are closed, and agree with their endings and phis. -/
structure WellFormed (graph : Graph) : Prop where
  isSealed : ∀ block, graph.HasBlock block → (graph.block block).isSealed = true
  complete : ∀ block, graph.HasBlock block → (graph.block block).incomplete = []
  /-- A block has phis first, then other values, and its one ending last, which goes on with its
  successors. -/
  laidOut : ∀ block, graph.HasBlock block → ∃ phis plain ending,
    (graph.block block).values = phis ++ plain ++ [ending] ∧ (graph.block block).ending = some ending ∧
      (∀ value ∈ phis, (graph.value value).opcode = .phi) ∧
      (∀ value ∈ plain, (graph.value value).opcode ≠ .phi ∧ (graph.value value).opcode.isEnding = false) ∧
      (graph.value ending).opcode.isEnding = true ∧
      (graph.value ending).GoesOn (graph.block block).succs
  /-- Successors and predecessors are the same edges, none of them twice. -/
  edges : ∀ source target, (graph.block target).preds.count source =
    (graph.block source).succs.count target ∧ (graph.block target).preds.count source ≤ 1
  entry : graph.HasBlock graph.entry ∧ (graph.block graph.entry).preds = []
  filled : ∀ phi, graph.IsLive phi → (graph.value phi).opcode = .phi →
    (graph.value phi).args.length = (graph.block (graph.value phi).block).preds.length

theorem Typed.goesOn (typed : graph.Typed program)
    (isEnding : (graph.value ending).opcode.isEnding = true) :
    (graph.value ending).GoesOn (graph.value ending).payload.blocks := by
  have accepts := typed.accepts ending
  unfold Accepts at accepts
  cases opcode : (graph.value ending).opcode <;> rw [opcode] at isEnding <;> try cases isEnding
  case jump =>
    rw [opcode] at accepts
    obtain ⟨target, goes⟩ := accepts
    rw [goes]
    exact .jump opcode goes
  case condJump =>
    rw [opcode] at accepts
    obtain ⟨_, onTrue, onFalse, -, -, goes⟩ := accepts
    rw [goes]
    exact .condJump opcode goes
  case returnValue =>
    rw [opcode] at accepts
    obtain ⟨_, -, -, stops⟩ := accepts
    rw [stops]
    exact .leave (by simp [opcode])
  case returnVoid | unreachable =>
    rw [opcode] at accepts
    rw [accepts]
    exact .leave (by simp [opcode])

theorem Finished.wellFormed (finished : graph.Finished) (underway : graph.Underway program ∅) :
    graph.WellFormed where
  isSealed := finished.closed
  complete block has := by
    refine List.eq_nil_iff_forall_not_mem.2 ?_
    rintro ⟨var, phi⟩ waits
    have isOpen := (finished.sound.fills.waits block var phi waits).2.2.2.1
    rw [finished.closed block has] at isOpen
    cases isOpen
  laidOut block has := by
    have ended : (graph.block block).ending ≠ none := fun isOpen =>
      underway.waits block has isOpen
    obtain ⟨ending, found⟩ := Option.ne_none_iff_exists'.1 ended
    have parts := finished.sound.laidOut.parts block
    have isEnding := finished.sound.laidOut.ending block ending found
    have succs := finished.sound.flows.succs block
    rw [found] at parts
    refine ⟨graph.phisOf block, graph.bodyOf block, ending, parts, found, fun value inside => ?_,
      fun value inside => ?_, isEnding, ?_⟩
    · simpa [isPhi] using (List.mem_filter.1 inside).2
    · simpa [isPlain, isPhi] using (List.mem_filter.1 inside).2
    · rw [succs, targetsOf, found]
      exact underway.typed.goesOn isEnding
  edges source target := by
    have flows := finished.sound.flows
    have once := List.nodup_iff_count_le_one.1 (flows.preds_nodup target) source
    refine ⟨?_, once⟩
    by_cases edge : source ∈ (graph.block target).preds
    · rw [List.count_eq_one_of_mem (flows.preds_nodup target) edge,
        List.count_eq_one_of_mem (flows.succs_nodup source) ((flows.edges source target).2 edge)]
    · rw [List.count_eq_zero.2 edge,
        List.count_eq_zero.2 fun goes => edge ((flows.edges source target).1 goes)]
  entry := ⟨finished.sound.flows.hasEntry, finished.sound.flows.entry_preds⟩
  filled _ live isPhi := finished.isFilled live isPhi

end Graph

/-- The graph of a function of a parsed source is well-formed. -/
theorem lower_wellFormed {source : String} {program : Program} {function : FunctionId} {graph : Graph}
    (parsed : parse source = .ok program) (defined : function ∈ program.definedFunctions)
    (lowered : lower program function = .ok graph) : graph.WellFormed :=
  (finished_of_lower parsed defined lowered).wellFormed (lower_underway (sane_of_parse parsed) lowered).2

theorem lower_wellFormed_sample : parse sampleSource = .ok sampleProgram ∧
    sampleFunction ∈ sampleProgram.definedFunctions ∧
      lower sampleProgram sampleFunction = .ok sampleGraph ∧ sampleGraph.WellFormed :=
  ⟨parse_sampleSource, sample_accepted.2.1, lower_sampleProgram,
    lower_wellFormed parse_sampleSource sample_accepted.2.1 lower_sampleProgram⟩

end Shader
