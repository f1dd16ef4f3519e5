import Shader.Proofs.Lowering.Selection

/-! # Expressions

Lowering expressions. An expression is lowered as a value or as a location, and each of them is made of
the parts of the expression, which are older. So both are dealt with by one induction on the age of an
expression. -/

namespace Shader

open Relation (ReflTransGen)

namespace Graph

variable {program : Program} {straight : Prop} {slots scope : Set VarId} {graph after : Graph}
  {value : ValueId} {place : Place}

/-- A part can be lowered here: the current block is open, and comes behind the variables in scope. -/
structure Lowerable (program : Program) (scope : Set VarId) (graph : Graph) : Prop where
  ready : graph.Ready
  isOpen : graph.IsOpen
  available : graph.Available program graph.current scope

theorem Lowerable.proceeds (lowerable : graph.Lowerable program scope)
    (proceeds : Proceeds straight slots graph after) (isOpen : after.IsOpen)
    (fewer : scope ⊆ slots) : after.Lowerable program scope :=
  ⟨proceeds.ready lowerable.ready, isOpen, lowerable.available.proceeds proceeds lowerable.ready fewer⟩

theorem Lowerable.evaluates (lowerable : graph.Lowerable program scope)
    (evaluates : Evaluates straight graph value after) : after.Lowerable program scope :=
  lowerable.proceeds evaluates.proceeds evaluates.isOpen (Set.subset_univ _)

theorem Lowerable.locates (lowerable : graph.Lowerable program scope)
    (locates : Locates straight graph place after) : after.Lowerable program scope :=
  lowerable.proceeds locates.proceeds locates.isOpen (Set.subset_univ _)

end Graph

namespace Build

open Shader.Graph

variable {program : Program} {straight : Prop} {scope : Set VarId} {graph : Graph} {watch : Watch}
  {id left right operand base : ExprId} {type : TypeId} {depth : Nat} {α : Type}

/-! ## Values and locations -/

def Values (watch : Watch) (program : Program) (straight : Prop) (scope : Set VarId)
    (step : Build ValueId) : Prop :=
  ∀ graph : Graph, graph.Lowerable program scope → Ensures watch step graph (Evaluates straight graph)

def Places (watch : Watch) (program : Program) (straight : Prop) (scope : Set VarId)
    (step : Build Place) : Prop :=
  ∀ graph : Graph, graph.Lowerable program scope → Ensures watch step graph (Locates straight graph)

/-- An expression can be lowered at every depth that is enough. -/
structure Lowers (watch : Watch) (program : Program) (straight : Prop) (scope : Set VarId)
    (id : ExprId) : Prop where
  value : ∀ depth, 3 * id.index + 2 ≤ depth →
    Values watch program straight scope (exprWithin program depth id)
  place : program.IsPlace id → ∀ depth, 3 * id.index + 1 ≤ depth →
    Places watch program straight scope (placeWithin program depth id)

theorem Values.fills {step : Build ValueId} (values : Values watch program False scope step) :
    Fills watch program Set.univ scope step (Evaluates False) := by
  intro graph ready isOpen available
  exact (values graph ⟨ready, isOpen, available⟩).mono fun _ _ evaluates =>
    ⟨evaluates.proceeds, evaluates⟩

theorem emit_behind (tolerant : watch.Tolerant) {operation : Operation} {middle : Graph}
    (lowerable : graph.Lowerable program scope) (first : Proceeds straight Set.univ graph middle)
    (isOpen : middle.IsOpen) (notPhi : operation.opcode ≠ .phi)
    (notEnding : operation.opcode.isEnding = false)
    (operands : ∀ arg ∈ operation.args, middle.Held middle.current arg) :
    Ensures watch (emit operation) middle (Evaluates straight graph) :=
  (Yields.mono (emit_yields straight tolerant (first.ready lowerable.ready) isOpen notPhi notEnding
    operands) fun _ _ made => made.behind first lowerable.ready).ensures

section

variable (tolerant : watch.Tolerant)

include tolerant

theorem baseWithin_ensures (lowers : Lowers watch program straight scope base)
    (enough : 3 * base.index + 3 ≤ depth) (lowerable : graph.Lowerable program scope) :
    Ensures watch (baseWithin program depth base) graph (Evaluates straight graph) := by
  obtain ⟨depth, rfl⟩ : ∃ less, depth = less + 1 := ⟨depth - 1, by omega⟩
  rw [baseWithin]
  refine Ensures.bind (lowers.value depth (by omega) graph lowerable) ?_
  intro value middle first
  split
  · exact emit_behind tolerant lowerable first.proceeds first.isOpen (by simp) rfl (by simpa using first.held)
  · exact ensures_pure first

theorem rootWithin_ensures (lowers : Lowers watch program straight scope base)
    (isPlace : program.isPointer (program.expr base).type = true ∨ program.IsPlace base) (enough : 3 * base.index + 3 ≤ depth) (lowerable : graph.Lowerable program scope) :
    Ensures watch (rootWithin program depth base) graph (Locates straight graph) := by
  obtain ⟨depth, rfl⟩ : ∃ less, depth = less + 1 := ⟨depth - 1, by omega⟩
  rw [rootWithin]
  split_ifs with isPointer
  · refine Ensures.bind (lowers.value depth (by omega) graph lowerable) ?_
    intro pointer middle first
    have now := lowerable.evaluates first
    refine Ensures.bind (literal_yields straight tolerant now.ready now.isOpen (.int 0)).ensures ?_
    intro zero after second
    have heldPointer := first.held.proceeds second.proceeds now.ready
    refine ensures_pure ⟨first.proceeds.trans second.proceeds lowerable.ready subset_rfl, second.isOpen, ?_⟩
    simpa [IsUsable, Place.values] using ⟨heldPointer, second.held⟩
  · exact lowers.place (isPlace.resolve_left isPointer) depth (by omega) graph lowerable

theorem marker_ensures {operation : Operation} (notPhi : operation.opcode ≠ .phi)
    (notEnding : operation.opcode.isEnding = false) (plain : operation.args = []) {root : Build Place}
    (roots : Ensures watch root graph (Locates straight graph))
    (lowerable : graph.Lowerable program scope) :
    Ensures watch (do
        let place ← root
        let marker ← emit operation
        return place.extend marker) graph (Locates straight graph) := by
  refine Ensures.bind roots ?_
  intro place middle first
  have now := lowerable.locates first
  refine Ensures.bind (emit_yields straight tolerant now.ready now.isOpen notPhi notEnding
    (by simp [plain])).ensures ?_
  intro marker after second
  have usable := first.usable.proceeds second.proceeds now.ready
  refine ensures_pure ⟨first.proceeds.trans second.proceeds lowerable.ready subset_rfl,
    second.isOpen, fun value found => ?_⟩
  rw [Place.values_extend, List.mem_append, List.mem_singleton] at found
  rcases found with found | rfl
  · exact usable value found
  · exact second.held

theorem partOf_ensures {marker : Operation} {opcode : Opcode}
    (plainMarker : marker.opcode ≠ .phi ∧ marker.opcode.isEnding = false) (noArgs : marker.args = [])
    (plain : opcode ≠ .phi ∧ opcode.isEnding = false) {whole : Build ValueId}
    (makes : Ensures watch whole graph (Evaluates straight graph))
    (lowerable : graph.Lowerable program scope) :
    Ensures watch (do
        let base ← whole
        let marker ← emit marker
        emit { opcode, args := [base, marker], type := some type }) graph (Evaluates straight graph) := by
  refine Ensures.bind makes ?_
  intro base middle first
  have now := lowerable.evaluates first
  refine Ensures.bind (emit_yields straight tolerant now.ready now.isOpen plainMarker.1 plainMarker.2
    (by simp [noArgs])).ensures ?_
  intro value made second
  have heldBase := first.held.proceeds second.proceeds now.ready
  exact emit_behind tolerant lowerable
    (first.proceeds.trans second.proceeds lowerable.ready subset_rfl) second.isOpen plain.1 plain.2
    (by simpa using ⟨heldBase, second.held⟩)

theorem load_ensures {step : Build Place} (places : Places watch program straight scope step)
    (lowerable : graph.Lowerable program scope) :
    Ensures watch (do
        let place ← step
        loadPlace place type) graph (Evaluates straight graph) := by
  refine Ensures.bind (places graph lowerable) ?_
  intro place middle first
  have now := lowerable.locates first
  exact (Yields.mono (loadPlace_yields straight tolerant now.ready now.isOpen first.usable)
    fun _ _ second => second.behind first.proceeds lowerable.ready).ensures

/-! ## Operators -/

theorem assign_ensures (isPlace : program.IsPlace left) (enoughLeft : 3 * left.index + 1 ≤ depth)
    (enoughRight : 3 * right.index + 2 ≤ depth) (lowersLeft : Lowers watch program straight scope left)
    (lowersRight : Lowers watch program straight scope right)
    (lowerable : graph.Lowerable program scope) :
    Ensures watch (do
        let value ← exprWithin program depth right
        let value ← asVector program value (program.expr left).type
        let place ← placeWithin program depth left
        storePlace place value (program.expr left).type
        return value) graph (Evaluates straight graph) := by
  refine Ensures.bind (lowersRight.value depth enoughRight graph lowerable) ?_
  intro plain first evaluates₁
  have now₁ := lowerable.evaluates evaluates₁
  refine Ensures.bind (asVector_yields straight tolerant now₁.ready now₁.isOpen evaluates₁.held).ensures ?_
  intro value second evaluates₂
  have now₂ := now₁.evaluates evaluates₂
  refine Ensures.bind (lowersLeft.place isPlace depth enoughLeft second now₂) ?_
  intro place third locates
  have now₃ := now₂.locates locates
  have held := evaluates₂.held.proceeds locates.proceeds now₂.ready
  refine Ensures.bind (storePlace_yields straight tolerant now₃.ready now₃.isOpen locates.usable
    held).ensures ?_
  rintro - after ⟨stores, isOpen⟩
  have front := evaluates₁.proceeds.trans evaluates₂.proceeds lowerable.ready subset_rfl
  have whole := (front.trans locates.proceeds lowerable.ready subset_rfl).trans stores lowerable.ready
    subset_rfl
  exact ensures_pure ⟨whole, isOpen, held.proceeds stores now₃.ready⟩

theorem compound_ensures {op : BinaryOp} (isPlace : program.IsPlace left)
    (computes : op.base.opcode?.isSome = true) (enoughLeft : 3 * left.index + 1 ≤ depth)
    (enoughRight : 3 * right.index + 2 ≤ depth) (lowersLeft : Lowers watch program straight scope left)
    (lowersRight : Lowers watch program straight scope right)
    (lowerable : graph.Lowerable program scope) :
    Ensures watch (do
        let place ← placeWithin program depth left
        let old ← loadPlace place (program.expr left).type
        let operand ← exprWithin program depth right
        let value ← arithmetic program op.base old operand (program.expr left).type
        storePlace place value (program.expr left).type
        return value) graph (Evaluates straight graph) := by
  refine Ensures.bind (lowersLeft.place isPlace depth enoughLeft graph lowerable) ?_
  intro place first locates
  have now₁ := lowerable.locates locates
  refine Ensures.bind (loadPlace_yields straight tolerant now₁.ready now₁.isOpen locates.usable).ensures ?_
  intro old second evaluates₂
  have now₂ := now₁.evaluates evaluates₂
  have usable₂ := locates.usable.proceeds evaluates₂.proceeds now₁.ready
  refine Ensures.bind (lowersRight.value depth enoughRight second now₂) ?_
  intro operand third evaluates₃
  have now₃ := now₂.evaluates evaluates₃
  have usable₃ := usable₂.proceeds evaluates₃.proceeds now₂.ready
  have heldOld := evaluates₂.held.proceeds evaluates₃.proceeds now₂.ready
  refine Ensures.bind (arithmetic_ensures straight tolerant now₃.ready now₃.isOpen computes heldOld
    evaluates₃.held) ?_
  intro value made evaluates₄
  have now₄ := now₃.evaluates evaluates₄
  have usable₄ := usable₃.proceeds evaluates₄.proceeds now₃.ready
  refine Ensures.bind (storePlace_yields straight tolerant now₄.ready now₄.isOpen usable₄
    evaluates₄.held).ensures ?_
  rintro - after ⟨stores, isOpen⟩
  have front := (locates.proceeds.trans evaluates₂.proceeds lowerable.ready subset_rfl).trans
    evaluates₃.proceeds lowerable.ready subset_rfl
  have whole := (front.trans evaluates₄.proceeds lowerable.ready subset_rfl).trans stores
    lowerable.ready subset_rfl
  exact ensures_pure ⟨whole, isOpen, evaluates₄.held.proceeds stores now₄.ready⟩

theorem binaryWithin_ensures {op : BinaryOp} (isPlace : op.isAssignment = true → program.IsPlace left)
    (enoughLeft : 3 * left.index + 3 ≤ depth)
    (enoughRight : 3 * right.index + 3 ≤ depth) (lowersLeft : Lowers watch program straight scope left)
    (lowersRight : Lowers watch program straight scope right)
    (lowerable : graph.Lowerable program scope) :
    Ensures watch (binaryWithin program depth op left right type) graph (Evaluates straight graph) := by
  obtain ⟨depth, rfl⟩ : ∃ less, depth = less + 1 := ⟨depth - 1, by omega⟩
  rw [binaryWithin]
  split_ifs with isComma isAssign isCompound
  · refine Ensures.bind (lowersLeft.value depth (by omega) graph lowerable) ?_
    intro unused middle evaluates
    exact (lowersRight.value depth (by omega) middle (lowerable.evaluates evaluates)).mono
      fun _ _ second => second.behind evaluates.proceeds lowerable.ready
  · exact assign_ensures tolerant (isPlace (by rw [isAssign]; rfl)) (by omega) (by omega) lowersLeft lowersRight
      lowerable
  · have computes : op.base.opcode?.isSome = true := by
      cases op <;> first | rfl | exact absurd rfl isAssign | cases isCompound
    exact compound_ensures tolerant (isPlace isCompound) computes (by omega) (by omega) lowersLeft lowersRight
      lowerable
  · refine Ensures.bind (lowersLeft.value depth (by omega) graph lowerable) ?_
    intro first middle evaluates₁
    have now₁ := lowerable.evaluates evaluates₁
    refine Ensures.bind (lowersRight.value depth (by omega) middle now₁) ?_
    intro second made evaluates₂
    have now₂ := now₁.evaluates evaluates₂
    have held := evaluates₁.held.proceeds evaluates₂.proceeds now₁.ready
    have front := evaluates₁.proceeds.trans evaluates₂.proceeds lowerable.ready subset_rfl
    have computes : op.opcode?.isSome = true := by
      cases op <;> first | rfl | exact absurd rfl isComma | exact absurd rfl isCompound
    exact (arithmetic_ensures straight tolerant now₂.ready now₂.isOpen computes held evaluates₂.held).mono
      fun _ _ third => third.behind front lowerable.ready

theorem unaryWithin_ensures {op : UnaryOp} {expr : Expr} (noDeref : op ≠ .dereference)
    (isPlace : op.isIncrement = true → program.IsPlace operand) (enough : 3 * operand.index + 3 ≤ depth)
    (lowers : Lowers watch program straight scope operand) (lowerable : graph.Lowerable program scope) :
    Ensures watch (unaryWithin program depth op operand expr) graph (Evaluates straight graph) := by
  obtain ⟨depth, rfl⟩ : ∃ less, depth = less + 1 := ⟨depth - 1, by omega⟩
  have computes {opcode : Opcode} (plain : opcode ≠ .phi ∧ opcode.isEnding = false) : Ensures watch (do
          let value ← exprWithin program depth operand
          emit { opcode, args := [value], type := some expr.type }) graph (Evaluates straight graph) :=
    Ensures.bind (lowers.value depth (by omega) graph lowerable) fun _ _ first =>
      emit_behind tolerant lowerable first.proceeds first.isOpen plain.1 plain.2 (by simpa using first.held)
  have steps (isIncrement : op.isIncrement = true) : Ensures watch (do
        let place ← placeWithin program depth operand
        stepPlace program op place expr.type) graph (Evaluates straight graph) := by
    refine Ensures.bind (lowers.place (isPlace isIncrement) depth (by omega) graph lowerable) ?_
    intro place middle locates
    have now := lowerable.locates locates
    exact (Yields.mono (stepPlace_yields straight tolerant now.ready now.isOpen op locates.usable)
      fun _ _ second => second.behind locates.proceeds lowerable.ready).ensures
  rw [unaryWithin.eq_def]
  dsimp only
  cases op with
  | plus => exact lowers.value depth (by omega) graph lowerable
  | negate | logicalNot | bitNot => exact computes ⟨by simp, rfl⟩
  | preIncrement | preDecrement | postIncrement | postDecrement => exact steps rfl
  | addressOf => exact ensures_refuse ⟨_, rfl⟩
  | dereference => exact absurd rfl noDeref

end

/-! ## Calls and structs -/

theorem arguments_ensures {arguments : List ExprId}
    (enough : ∀ argument ∈ arguments, 3 * argument.index + 2 ≤ depth)
    (lowers : ∀ argument ∈ arguments, Lowers watch program straight scope argument)
    (lowerable : graph.Lowerable program scope) :
    Ensures watch (arguments.mapM (exprWithin program depth)) graph fun args after =>
      Proceeds straight Set.univ graph after ∧ after.IsOpen ∧ ∀ arg ∈ args, after.Held after.current arg := by
  refine (ensures_mapM (fun rest args now => (∀ argument ∈ rest, argument ∈ arguments) ∧
    Proceeds straight Set.univ graph now ∧ now.IsOpen ∧ ∀ arg ∈ args, now.Held now.current arg)
    ⟨fun _ found => found, .refl, lowerable.isOpen, by simp⟩ ?_).mono fun _ _ facts => facts.2
  rintro argument rest args now ⟨within, proceeds, isOpen, held⟩
  have found := within argument List.mem_cons_self
  have lowerableNow := lowerable.proceeds proceeds isOpen (Set.subset_univ _)
  refine ((lowers argument found).value depth (enough argument found) now lowerableNow).mono ?_
  intro arg after evaluates
  refine ⟨fun other isLeft => within other (List.mem_cons_of_mem _ isLeft),
    proceeds.trans evaluates.proceeds lowerable.ready subset_rfl, evaluates.isOpen, ?_⟩
  intro other isArg
  rcases List.mem_append.1 isArg with isArg | isArg
  · exact (held other isArg).proceeds evaluates.proceeds lowerableNow.ready
  · rw [List.mem_singleton.1 isArg]
    exact evaluates.held

theorem storeMember_ensures (tolerant : watch.Tolerant) {step : Build ValueId} {slot : ValueId}
    {index : Nat} (values : Values watch program straight scope step)
    (lowerable : graph.Lowerable program scope) (held : graph.Held graph.current slot) :
    Ensures watch (storeMember step slot index type) graph fun _ after =>
      Proceeds straight Set.univ graph after ∧ after.IsOpen := by
  refine Ensures.bind (values graph lowerable) ?_
  intro value first evaluates₁
  have now₁ := lowerable.evaluates evaluates₁
  have slot₁ := held.proceeds evaluates₁.proceeds lowerable.ready
  refine Ensures.bind (emit_yields straight tolerant now₁.ready now₁.isOpen (by simp) rfl
    (by simp)).ensures ?_
  intro marker second evaluates₂
  have now₂ := now₁.evaluates evaluates₂
  have slot₂ := slot₁.proceeds evaluates₂.proceeds now₁.ready
  refine Ensures.bind (emit_yields straight tolerant now₂.ready now₂.isOpen (by simp) rfl
    (by simpa using ⟨slot₂, evaluates₂.held⟩)).ensures ?_
  intro pointer third evaluates₃
  have value₃ := (evaluates₁.held.proceeds evaluates₂.proceeds now₁.ready).proceeds
    evaluates₃.proceeds now₂.ready
  have front := (evaluates₁.proceeds.trans evaluates₂.proceeds lowerable.ready subset_rfl).trans
    evaluates₃.proceeds lowerable.ready subset_rfl
  refine Ensures.bind (emit_behind tolerant lowerable front evaluates₃.isOpen (by simp) rfl
    (by simpa using ⟨evaluates₃.held, value₃⟩)) ?_
  exact fun _ _ stored => ensures_pure ⟨stored.proceeds, stored.isOpen⟩

theorem structInit_ensures (tolerant : watch.Tolerant) {arguments : List ExprId} {struct : TypeId}
    (enough : ∀ argument ∈ arguments, 3 * argument.index + 2 ≤ depth)
    (lowers : ∀ argument ∈ arguments, Lowers watch program straight scope argument)
    (lowerable : graph.Lowerable program scope) :
    Ensures watch (do
        let slot ← emit { opcode := .alloca, type := some struct }
        (arguments.zip (program.members struct)).zipIdx.forM fun ((argument, member), index) =>
          storeMember (exprWithin program depth argument) slot index member.type
        emit { opcode := .load, args := [slot], type := some struct }) graph
      (Evaluates straight graph) := by
  refine Ensures.bind (emit_yields straight tolerant lowerable.ready lowerable.isOpen (by simp) rfl
    (by simp)).ensures ?_
  intro slot first evaluates
  have now := lowerable.evaluates evaluates
  refine Ensures.bind (ensures_forM (fun rest now => (∀ item ∈ rest, item.1.1 ∈ arguments) ∧
    Proceeds straight Set.univ first now ∧ now.IsOpen) ?_ ?_) ?_
  · refine ⟨?_, .refl, evaluates.isOpen⟩
    rintro ⟨⟨argument, member⟩, index⟩ found
    exact (List.of_mem_zip (List.fst_mem_of_mem_zipIdx found)).1
  · rintro ⟨⟨argument, member⟩, index⟩ rest before ⟨items, proceeds, isOpen⟩
    have found := items _ List.mem_cons_self
    refine (storeMember_ensures tolerant ((lowers argument found).value depth (enough argument found))
      (now.proceeds proceeds isOpen (Set.subset_univ _))
      (evaluates.held.proceeds proceeds now.ready)).mono ?_
    rintro - after ⟨stores, isOpenAfter⟩
    exact ⟨fun item isItem => items item (List.mem_cons_of_mem _ isItem),
      proceeds.trans stores now.ready subset_rfl, isOpenAfter⟩
  · rintro - before ⟨-, proceeds, isOpen⟩
    exact emit_behind tolerant lowerable
      (evaluates.proceeds.trans proceeds lowerable.ready subset_rfl) isOpen (by simp) rfl
      (by simpa using evaluates.held.proceeds proceeds now.ready)

/-! ## All expressions -/

section

variable (tolerant : watch.Tolerant) (lawful : program.Lawful)
  (fits : program.Fits straight scope id)
  (lowers : ∀ child ∈ (program.expr id).kind.children, Lowers watch program straight scope child)

include tolerant lawful fits lowers

theorem placeWithin_places (isPlace : program.IsPlace id) (enough : 3 * id.index + 1 ≤ depth) :
    Places watch program straight scope (placeWithin program depth id) := by
  intro graph lowerable
  obtain ⟨depth, rfl⟩ : ∃ less, depth = less + 1 := ⟨depth - 1, by omega⟩
  have older := lawful.expr id
  have isRoot (base : ExprId) := Or.imp_right (a := program.isPointer (program.expr base).type = true)
    (lawful.place base)
  unfold Program.IsPlace at isPlace
  rw [placeWithin]
  split
  next var kind =>
    exact variablePlace_ensures straight tolerant lowerable.ready lowerable.isOpen _
      lowerable.available (fits.here.1 var kind)
  next pointer kind =>
    have child : pointer ∈ (program.expr id).kind.children := by simp [kind]
    have less := older pointer child
    refine Ensures.bind ((lowers pointer child).value depth (by omega) graph lowerable) ?_
    intro value after evaluates
    refine ensures_pure ⟨evaluates.proceeds, evaluates.isOpen, ?_⟩
    simpa [IsUsable, Place.values] using evaluates.held
  next base index kind =>
    have child : base ∈ (program.expr id).kind.children := by simp [kind]
    have less := older base child
    exact marker_ensures tolerant (by simp) rfl rfl
      (rootWithin_ensures tolerant (lowers base child) (isRoot base (by simpa [kind] using isPlace)) (by omega)
        lowerable) lowerable
  next base components kind =>
    have child : base ∈ (program.expr id).kind.children := by simp [kind]
    have less := older base child
    exact marker_ensures tolerant (by simp) rfl rfl
      (rootWithin_ensures tolerant (lowers base child) (isRoot base (by simpa [kind] using isPlace)) (by omega)
        lowerable) lowerable
  next base position kind =>
    have childBase : base ∈ (program.expr id).kind.children := by simp [kind]
    have childPosition : position ∈ (program.expr id).kind.children := by
      simp [kind]
    have lessBase := older base childBase
    have lessPosition := older position childPosition
    refine Ensures.bind ((lowers base childBase).value depth (by omega) graph lowerable) ?_
    intro pointer middle first
    have now := lowerable.evaluates first
    refine Ensures.bind ((lowers position childPosition).value depth (by omega) middle now) ?_
    intro value after second
    have held := first.held.proceeds second.proceeds now.ready
    refine ensures_pure ⟨first.proceeds.trans second.proceeds lowerable.ready subset_rfl, second.isOpen, ?_⟩
    simpa [IsUsable, Place.values] using ⟨held, second.held⟩
  next => simp_all

theorem exprWithin_values (enough : 3 * id.index + 2 ≤ depth) :
    Values watch program straight scope (exprWithin program depth id) := by
  intro graph lowerable
  obtain ⟨depth, rfl⟩ : ∃ less, depth = less + 1 := ⟨depth - 1, by omega⟩
  have older := lawful.expr id
  have loads (isPlace : program.IsPlace id) : Ensures watch (do
        let place ← placeWithin program depth id
        loadPlace place (program.expr id).type) graph (Evaluates straight graph) :=
    load_ensures tolerant (placeWithin_places tolerant lawful fits lowers isPlace (by omega)) lowerable
  rw [exprWithin]
  split
  next literal kind =>
    exact (literal_yields straight tolerant lowerable.ready lowerable.isOpen literal).ensures
  next kind => exact loads (by simp [Program.IsPlace, kind])
  next kind => exact loads (by simp [Program.IsPlace, kind])
  next kind => exact loads (by simp [Program.IsPlace, kind])
  next base index kind =>
    have child : base ∈ (program.expr id).kind.children := by simp [kind]
    have less := older base child
    split_ifs with isLvalue
    · exact loads (lawful.place id isLvalue)
    · exact partOf_ensures tolerant ⟨by simp, rfl⟩ rfl ⟨by simp, rfl⟩
        (baseWithin_ensures tolerant (lowers base child) (by omega) lowerable) lowerable
  next base components kind =>
    have child : base ∈ (program.expr id).kind.children := by simp [kind]
    have less := older base child
    split_ifs with isLvalue
    · exact loads (lawful.place id isLvalue)
    · exact partOf_ensures tolerant ⟨by simp, rfl⟩ rfl ⟨by simp, rfl⟩
        (baseWithin_ensures tolerant (lowers base child) (by omega) lowerable) lowerable
  next op spot left right kind =>
    have childLeft : left ∈ (program.expr id).kind.children := by simp [kind]
    have childRight : right ∈ (program.expr id).kind.children := by simp [kind]
    have lessLeft := older left childLeft
    have lessRight := older right childRight
    exact binaryWithin_ensures tolerant (fun isTarget => lawful.place left (lawful.target id _ _ _ _ kind isTarget))
      (by omega) (by omega) (lowers left childLeft) (lowers right childRight) lowerable
  next op operand kind =>
    have child : operand ∈ (program.expr id).kind.children := by simp [kind]
    have less := older operand child
    obtain ⟨noDeref, isTarget⟩ := lawful.step id op operand kind
    exact unaryWithin_ensures tolerant noDeref (fun steps => lawful.place operand (isTarget steps)) (by omega)
      (lowers operand child) lowerable
  next condition onTrue onFalse kind =>
    -- a choice is not straight, so that nothing more is asked of its parts
    obtain rfl : straight = False :=
      eq_false fun isStraight => fits.here.2 isStraight condition onTrue onFalse kind
    have lowersChild (child : ExprId) (found : child ∈ [condition, onTrue, onFalse]) :
        Values watch program False scope (exprWithin program depth child) := by
      have isChild : child ∈ (program.expr id).kind.children := by
        simpa [kind] using found
      have less := older child isChild
      exact (lowers child isChild).value depth (by omega)
    refine Ensures.bind (lowersChild condition (by simp) graph lowerable) ?_
    intro test middle evaluates
    have now := lowerable.evaluates evaluates
    exact (chooseWith_ensures tolerant now.ready now.isOpen evaluates.held now.available
      (lowersChild onTrue (by simp)).fills (lowersChild onFalse (by simp)).fills).mono
      fun _ _ chosen => chosen.behind evaluates.proceeds lowerable.ready
  next function arguments kind =>
    have child (argument : ExprId) (found : argument ∈ arguments) :
        argument ∈ (program.expr id).kind.children := by simpa [kind] using found
    refine Ensures.bind (arguments_ensures (fun argument found => ?_)
      (fun argument found => lowers argument (child argument found)) lowerable) ?_
    · have less := older argument (child argument found)
      omega
    rintro args middle ⟨proceeds, isOpen, held⟩
    exact emit_behind tolerant lowerable proceeds isOpen (by simp) rfl held
  next struct arguments kind =>
    have child (argument : ExprId) (found : argument ∈ arguments) :
        argument ∈ (program.expr id).kind.children := by simpa [kind] using found
    refine structInit_ensures tolerant (fun argument found => ?_)
      (fun argument found => lowers argument (child argument found)) lowerable
    have less := older argument (child argument found)
    omega

end

theorem lowers_of_fits (tolerant : watch.Tolerant) (lawful : program.Lawful)
    (fits : program.Fits straight scope id) : Lowers watch program straight scope id := by
  induction fits with
  | @intro id here below ih =>
    have fits : program.Fits straight scope id := .intro here below
    exact ⟨fun depth enough => exprWithin_values tolerant lawful fits ih enough,
      fun isPlace depth enough => placeWithin_places tolerant lawful fits ih isPlace enough⟩

theorem expr_ensures (tolerant : watch.Tolerant) (lawful : program.Lawful)
    (fits : program.Fits straight scope id) (has : id.index < program.exprs.size) :
    Values watch program straight scope (expr program id) :=
  (lowers_of_fits tolerant lawful fits).value _ (by omega)

end Build

end Shader
