import Shader.Graph.Lowering
import Shader.Proofs.Typing.Variables

/-! # Actions that keep types

The actions that lowering is made of keep a graph typed, and leave no block without an ending behind. -/

namespace Shader

namespace Graph

variable {program : Program} {graph after : Graph} {block : BlockId} {waiting wider : Set BlockId}

/-- A graph is typed, and all its blocks have endings but some that wait for them. -/
structure Underway (program : Program) (waiting : Set BlockId) (graph : Graph) : Prop where
  typed : graph.Typed program
  waits : ∀ block, graph.HasBlock block → (graph.block block).ending = none → block ∈ waiting

theorem Underway.mono (underway : graph.Underway program waiting) (wide : waiting ⊆ wider) :
    graph.Underway program wider :=
  ⟨underway.typed, fun block has isOpen => wide (underway.waits block has isOpen)⟩

theorem Underway.remains (underway : graph.Underway program waiting)
    (remains : graph.Remains program after) : after.Underway program waiting := by
  refine ⟨remains.typed, fun block has isOpen => ?_⟩
  rw [remains.ending] at isOpen
  rw [HasBlock, remains.sizeBlocks] at has
  exact underway.waits block has isOpen

theorem Underway.adds {operation : Operation} (underway : graph.Underway program (waiting ∪ {block}))
    (adds : graph.Adds block operation after) (accepts : graph.Accepts program operation)
    (isEnding : operation.opcode.isEnding = true) : after.Underway program waiting := by
  refine ⟨adds.typed underway.typed accepts, fun other has isOpen => ?_⟩
  rw [HasBlock, adds.sizeBlocks] at has
  have differs : other ≠ block := by
    rintro rfl
    rw [adds.ended isEnding has] at isOpen
    cases isOpen
  have wasOpen : (graph.block other).ending = none := by
    rcases adds.ending other with same | ⟨same, -⟩
    · rwa [← same]
    · exact absurd same differs
  exact (underway.waits other has wasOpen).resolve_right differs

theorem Underway.newBlock {name : String} (underway : graph.Underway program waiting) :
    ({ graph with blocks := graph.blocks.append { name } } : Graph).Underway program
      (waiting ∪ {graph.blocks.next}) := by
  have reads := @block_append graph { name }
  constructor
  · -- nothing is noted in the new block
    refine underway.typed.of_values rfl rfl rfl ?_ ?_ ?_
    · intro block var value found
      rw [binding, reads] at found
      split_ifs at found
      · cases found
      · exact .inl found
    · intro block var phi found
      rw [reads] at found
      split_ifs at found
      · exact absurd found List.not_mem_nil
      · exact .inl found
    · intro block value found
      rw [reads] at found
      split_ifs at found
      exact found
  · intro block has isOpen
    rw [reads] at isOpen
    split_ifs at isOpen with isNew
    · exact .inr isNew
    · exact .inl (underway.waits block ((hasBlock_append.1 has).resolve_right isNew) isOpen)

end Graph

namespace Build

open Shader.Graph

variable {α β : Type} {program : Program} {graph : Graph} {block target : BlockId}
  {waiting : Set BlockId} {operation : Operation}

/-! ## Steps -/

/-- If a step succeeds, the graph has grown and is typed, with addresses left to their accesses, and no
blocks but the current one have come to wait for an ending; and the result has a property. -/
def Makes (program : Program) (waiting : Set BlockId) (step : Build α) (graph : Graph)
    (good : α → Graph → Prop) : Prop :=
  Gives step graph fun result after => graph.Grows after ∧ (graph.Paired → after.Paired) ∧
    after.Underway program (waiting ∪ {after.current}) ∧ good result after

theorem makes_pure {value : α} {good : α → Graph → Prop}
    (underway : graph.Underway program (waiting ∪ {graph.current})) (holds : good value graph) :
    Makes program waiting (pure value) graph good :=
  gives_pure ⟨.refl, id, underway, holds⟩

theorem makes_fail {fault : Fault} {good : α → Graph → Prop} :
    Makes program waiting (fail fault) graph good :=
  gives_fail

theorem makes_refuse {diagnostic : Diagnostic} {good : α → Graph → Prop} :
    Makes program waiting (refuse diagnostic) graph good :=
  gives_refuse

theorem makes_get_bind {next : Graph → Build β} {good : β → Graph → Prop}
    (advances : Makes program waiting (next graph) graph good) :
    Makes program waiting (get >>= next) graph good :=
  advances

theorem Makes.bind {step : Build α} {next : α → Build β} {middle : α → Graph → Prop}
    {good : β → Graph → Prop} (first : Makes program waiting step graph middle)
    (second : ∀ value after, graph.Grows after →
      after.Underway program (waiting ∪ {after.current}) → middle value after →
        Makes program waiting (next value) after good) :
    Makes program waiting (step >>= next) graph good := by
  refine Gives.bind first ?_
  rintro value after ⟨grows, paired, underway, holds⟩
  refine Gives.mono (second value after grows underway holds) ?_
  rintro result last ⟨growsAgain, pairedAgain, underway, holds⟩
  exact ⟨grows.trans growsAgain, pairedAgain ∘ paired, underway, holds⟩

section Underway

variable (underway : graph.Underway program (waiting ∪ {graph.current}))

include underway

theorem makes_of_remains {step : Build α} {good : α → Graph → Prop}
    (gives : Gives step graph fun result after => graph.Remains program after ∧ good result after) :
    Makes program waiting step graph good := by
  refine Gives.mono gives ?_
  rintro result after ⟨remains, holds⟩
  refine ⟨remains.toGrows, remains.paired, ?_, holds⟩
  rw [remains.current]
  exact underway.remains remains

theorem emit_makes {good : ValueId → Graph → Prop} (takes : graph.Takes graph.current operation)
    (accepts : graph.Accepts program operation) (plain : operation.opcode.isEnding = false)
    (holds : ∀ after, graph.Grows after →
      after.value graph.values.next = { operation with block := after.current } →
        good graph.values.next after) : Makes program waiting (emit operation) graph good := by
  refine makes_of_remains underway (gives_get_bind (Gives.mono (gives_makeValue takes.hasValue) ?_))
  rintro _ after ⟨rfl, adds⟩
  exact ⟨adds.remains underway.typed takes accepts plain,
    holds after adds.grows (by rw [adds.new, adds.current])⟩

theorem emit_carries {type : TypeId} (takes : graph.Takes graph.current operation)
    (accepts : graph.Accepts program operation) (plain : operation.opcode.isEnding = false)
    (noAddress : operation.opcode.isAddress = false) (isType : operation.type = some type) :
    Makes program waiting (emit operation) graph fun value after => after.Carries value type := by
  refine emit_makes underway takes accepts plain fun after _ made => ?_
  rw [Carries, made]
  exact ⟨isType, noAddress⟩

theorem makes_writeVar {var : VarId} {value : ValueId}
    (carries : graph.Carries value (program.var var).type) :
    Makes program waiting (writeVar block var value) graph fun _ _ => True :=
  makes_of_remains underway (Gives.mono (writeVar_typed underway.typed carries) fun _ _ remains =>
    ⟨remains, trivial⟩)

end Underway

/-! ## Blocks -/

theorem nextConstruct_remains (typed : graph.Typed program) :
    Gives nextConstruct graph fun _ after => graph.Remains program after :=
  gives_modifyGet (grows_of_values rfl rfl) ⟨⟨grows_of_values rfl rfl, rfl, rfl, fun _ => rfl⟩,
    typed.of_values rfl rfl rfl (fun _ _ _ found => .inl found) (fun _ _ _ found => .inl found)
      fun _ _ found => found, fun paired => paired.of_values rfl rfl rfl⟩

theorem setMerge_remains {merge : Merge} (typed : graph.Typed program) :
    Gives (setMerge block merge) graph fun _ after => graph.Remains program after :=
  gives_modify (grows_of_values rfl rfl) (typed.remains_modifyBlock block _ (fun _ _ found => .inl found)
    (fun _ _ found => .inl found) rfl)

theorem addEdge_remains {source : BlockId} (typed : graph.Typed program) :
    Gives (addEdge source target) graph fun _ after => graph.Remains program after := by
  refine gives_get_bind (gives_require_bind fun _ => gives_modify (grows_of_values rfl rfl) ?_)
  have left := typed.remains_modifyBlock source
    (fun block => { block with succs := block.succs ++ [target] }) (fun _ _ found => .inl found)
    (fun _ _ found => .inl found) rfl
  exact left.trans (left.typed.remains_modifyBlock target _ (fun _ _ found => .inl found)
    (fun _ _ found => .inl found) rfl)

end Build

/-! ## Several steps in a row -/

namespace Graph

/-- Some steps on, a graph has grown and is typed, with addresses left to their accesses; one block is
filled, and some wait. -/
structure Advances (program : Program) (waiting : Set BlockId) (current : BlockId)
    (start graph : Graph) : Prop where
  grows : start.Grows graph
  paired : start.Paired → graph.Paired
  current : graph.current = current
  underway : graph.Underway program waiting

variable {program : Program} {waiting wider : Set BlockId} {current : BlockId} {start graph : Graph}

theorem advances_refl (underway : graph.Underway program waiting) :
    graph.Advances program waiting graph.current graph :=
  ⟨.refl, id, rfl, underway⟩

theorem Advances.mono (advances : start.Advances program waiting current graph)
    (wide : waiting ⊆ wider) : start.Advances program wider current graph :=
  ⟨advances.grows, advances.paired, advances.current, advances.underway.mono wide⟩

theorem Advances.remains {after : Graph} (advances : start.Advances program waiting current graph)
    (remains : graph.Remains program after) : start.Advances program waiting current after :=
  ⟨advances.grows.trans remains.toGrows, remains.paired ∘ advances.paired,
    remains.current.trans advances.current, advances.underway.remains remains⟩

end Graph

namespace Build

open Shader.Graph

variable {α : Type} {program : Program} {waiting : Set BlockId} {current block target : BlockId}
  {start graph : Graph} {operation : Operation}
  (advances : start.Advances program waiting current graph)

include advances

theorem advances_nextConstruct :
    Gives nextConstruct graph fun _ after => start.Advances program waiting current after :=
  Gives.mono (nextConstruct_remains advances.underway.typed) fun _ _ => advances.remains

theorem advances_setMerge {merge : Merge} : Gives (setMerge block merge) graph fun _ after =>
      start.Advances program waiting current after :=
  Gives.mono (setMerge_remains advances.underway.typed) fun _ _ => advances.remains

theorem advances_sealBlock : Gives (sealBlock program block) graph fun _ after =>
      start.Advances program waiting current after :=
  Gives.mono (sealBlock_typed advances.underway.typed) fun _ _ => advances.remains

theorem advances_newBlock {construct : Nat} {name : String} :
    Gives (newBlock construct name) graph fun block after =>
      start.Advances program (waiting ∪ {block}) current after :=
  gives_modifyGet (grows_of_values rfl rfl) ⟨advances.grows.trans (grows_of_values rfl rfl), fun paired =>
    (advances.paired paired).of_values rfl rfl rfl, advances.current, advances.underway.newBlock⟩

theorem advances_setCurrent :
    Gives (setCurrent block) graph fun _ after => start.Advances program waiting block after := by
  refine gives_modify (grows_of_values rfl rfl) ⟨advances.grows.trans (grows_of_values rfl rfl), fun paired =>
    (advances.paired paired).of_values rfl rfl rfl, rfl, ?_, advances.underway.waits⟩
  exact advances.underway.typed.of_values rfl rfl rfl (fun _ _ _ found => .inl found)
    (fun _ _ _ found => .inl found) fun _ _ found => found

omit advances in
theorem advances_ending (advances : start.Advances program (waiting ∪ {block}) current graph)
    (takes : graph.Takes block operation) (accepts : graph.Accepts program operation)
    (isEnding : operation.opcode.isEnding = true) :
    Gives (makeValue block operation) graph fun _ after =>
      start.Advances program waiting current after := by
  refine Gives.mono (gives_makeValue takes.hasValue) ?_
  rintro _ after ⟨rfl, adds⟩
  exact ⟨advances.grows.trans adds.grows, fun paired => (advances.paired paired).adds adds takes,
    adds.current.trans advances.current, advances.underway.adds adds accepts isEnding⟩

omit advances in
theorem advances_jump (advances : start.Advances program (waiting ∪ {block}) current graph) :
    Gives (jump block target) graph fun _ after => start.Advances program waiting current after := by
  refine Gives.bind (addEdge_remains advances.underway.typed) fun _ middle remains => ?_
  exact advances_ending (advances.remains remains) ⟨.inl (by simp), rfl, .of_plain rfl⟩ ⟨target, rfl⟩ rfl

omit advances in
theorem advances_condJump {condition : ValueId} {onTrue onFalse : BlockId}
    (advances : start.Advances program (waiting ∪ {block}) current graph)
    (carries : graph.Carries condition .bool) :
    Gives (condJump block condition onTrue onFalse) graph fun _ after =>
      start.Advances program waiting current after := by
  refine Gives.bind (addEdge_remains advances.underway.typed) fun _ middle remains => ?_
  refine Gives.bind (addEdge_remains remains.typed) fun _ last again => ?_
  have both := remains.trans again
  have isCondition := carries.grows both.toGrows
  refine advances_ending (advances.remains both) ⟨.inl ?_, rfl, .of_plain rfl⟩
    ⟨condition, onTrue, onFalse, rfl, isCondition, rfl⟩ rfl
  simpa using isCondition.whole

omit advances in
theorem advances_makes {step : Build α} {good : α → Graph → Prop}
    (advances : start.Advances program (waiting ∪ {current}) current graph)
    (makes : graph.Underway program (waiting ∪ {graph.current}) → Makes program waiting step graph good) :
    Gives step graph fun result after =>
      start.Advances program (waiting ∪ {after.current}) after.current after ∧ good result after := by
  have underway : graph.Underway program (waiting ∪ {graph.current}) := by
    rw [advances.current]
    exact advances.underway
  refine Gives.mono (makes underway) ?_
  rintro result after ⟨grows, paired, underway, holds⟩
  exact ⟨⟨advances.grows.trans grows, paired ∘ advances.paired, rfl, underway⟩, holds⟩

end Build

end Shader
