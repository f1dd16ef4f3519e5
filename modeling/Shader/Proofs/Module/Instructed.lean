import Shader.Module.FunctionBody
import Shader.Proofs.Build.Triple

/-! # Steps that find their instructions

A step of writing a module can fail for want of an instruction only where it chooses one.

`Chooses` says so as a triple. A step that is not recursive is not given a lemma but looked into, so that
there are lemmas only for what is recursive and for what many steps are made of. -/

set_option mvcgen.warning false

namespace Shader

open Std.Do

/-- Whether a failure is that an operation has no instruction for its operands. -/
def Failure.lacksInstruction : Failure → Bool
  | .reported ⟨.emission (.instructionMissing _ _), _, _⟩ => true
  | _ => false

def Instructed {σ α : Type} (step : EStateM Failure σ α) : Prop :=
  ∀ state failure after, step state = .error failure after → failure.lacksInstruction = false

abbrev Chooses {m : Type → Type} {σ α : Type} [WP m (.except Failure (.arg σ .pure))] (step : m α) : Prop :=
  ⦃⌜True⌝⦄ step ⦃post⟨fun _ _ => ⌜True⌝, fun failure _ => ⌜failure.lacksInstruction = false⌝⟩⦄

/-! ## Rules -/

section Rules

variable {σ τ α β : Type}

theorem instructed_iff {step : EStateM Failure σ α} : Instructed step ↔ Chooses step := by
  constructor
  · intro instructed state _
    simp only [wp, PredTrans.apply, EStateM.run]
    split
    next => trivial
    next failed => exact instructed _ _ _ failed
  · intro chooses state failure after failed
    have holds := @run_of_triple _ _ _ _ state _ _ chooses trivial
    rw [EStateM.run, failed] at holds
    exact holds

theorem bind_eq_error {step : EStateM Failure σ α} {next : α → EStateM Failure σ β} {state after : σ}
    {failure : Failure} (runs : (step >>= next) state = .error failure after) :
    step state = .error failure after ∨
      ∃ value middle, step state = .ok value middle ∧ next value middle = .error failure after := by
  change EStateM.bind step next state = .error failure after at runs
  unfold EStateM.bind at runs
  split at runs
  · rename_i value middle stepped
    exact .inr ⟨value, middle, stepped, runs⟩
  · rename_i failed
    cases runs
    exact .inl failed

theorem instructed_onPart {part : τ → σ} {update : τ → σ → τ} {step : EStateM Failure σ α}
    (inner : Instructed step) : Instructed (onPart part update step) := by
  intro state failure after runs
  unfold onPart at runs
  split at runs
  · cases runs
  · rename_i failed
    cases runs
    exact inner _ _ _ failed

@[spec]
theorem chooses_onPart {part : τ → σ} {update : τ → σ → τ} {step : EStateM Failure σ α}
    (inner : Chooses step) : Chooses (onPart part update step) :=
  instructed_iff.1 (instructed_onPart (instructed_iff.2 inner))

variable {m : Type → Type} [Monad m] [WPMonad m (.except Failure (.arg σ .pure))]

theorem chooses_forM {items : List α} {step : α → m PUnit} (each : ∀ item ∈ items, Chooses (step item)) :
    Chooses (items.forM step) :=
  triple_forM each

theorem chooses_mapM {items : List α} {step : α → m β} (each : ∀ item ∈ items, Chooses (step item)) :
    Chooses (items.mapM step) :=
  triple_mapM each

end Rules

attribute [local spec] chooses_forM chooses_mapM

/-! ## Declarations -/

namespace Emit

variable (program : Program) (type : TypeId)

attribute [local spec] fail refuse freshId intern modifySections declare declareFresh require requireInteger addName
  name pointerType primitiveType structType

@[spec]
theorem chooses_typeId : Chooses (typeId program type) := by
  have within (depth : Nat) (type : TypeId) : Chooses (typeIdWithin program depth type) := by
    induction depth generalizing type with
    | zero =>
      unfold typeIdWithin
      mvcgen
    | succ depth again =>
      unfold typeIdWithin
      mvcgen [again]
  exact within _ type

@[spec]
theorem chooses_constant (literal : Literal) : Chooses (constant program type literal) := by
  unfold constant
  mvcgen [constant.mismatch]

@[spec]
theorem chooses_globalVar (var : VarId) : Chooses (globalVar program var) := by
  unfold globalVar
  mvcgen [initializer?, initializer]

end Emit

/-! ## Functions -/

namespace Write

variable (context : WriteContext)

attribute [local spec] Emit.freshId Emit.intern Emit.modifySections Emit.declare Emit.declareFresh Emit.constantNull
  Emit.undef
attribute [local spec] fail refuse emitting write valueType typeId typeOf argument argumentsFrom numericClass
  memberType noteId

@[spec]
theorem chooses_memory (pointer : ValueId) : Chooses (memory context pointer) := by
  have within (depth : Nat) (pointer : ValueId) : Chooses (memoryWithin context depth pointer) := by
    induction depth generalizing pointer with
    | zero =>
      unfold memoryWithin
      mvcgen
    | succ depth again =>
      unfold memoryWithin
      mvcgen [again]
  exact within _ pointer

@[spec]
theorem chooses_walk (type : TypeId) (members : List Nat) : Chooses (walk context type members) := by
  have each (type : TypeId) (member : Nat) : Chooses (memberType context type member) := by
    mvcgen
  exact triple_foldlM each type

@[spec]
theorem chooses_splitPath (markers : List ValueId) : Chooses (splitPath context markers) := by
  fun_induction splitPath context markers with
  | case1 => mvcgen
  | case2 _ _ _ _ again => mvcgen [again]
  | case3 => mvcgen
  | case4 => mvcgen

@[spec]
theorem chooses_operand (value : ValueId) : Chooses (operand context value) := by
  unfold operand
  mvcgen [freshOperand]

end Write

end Shader
