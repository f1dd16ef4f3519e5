/-! # Arenas

Nodes of a program and of a value graph are numbered in the order in which they are made, with one
numbering for each kind of node. A `Handle` is such a number, and an `Arena` is the append-only store
that it points into. Handles are never reused, so a node keeps its number for good. -/

namespace Shader

/-- The kinds of node that are numbered, each with a numbering of its own. -/
inductive NodeKind where
  | type
  | expr
  | stmt
  | var
  | function
  | value
  | block
  deriving DecidableEq, Repr

structure Handle (kind : NodeKind) where
  index : Nat
  deriving DecidableEq, Repr, Inhabited

abbrev TypeId := Handle .type

abbrev ExprId := Handle .expr

abbrev StmtId := Handle .stmt

abbrev VarId := Handle .var

abbrev FunctionId := Handle .function

abbrev ValueId := Handle .value

abbrev BlockId := Handle .block

namespace Handle

variable {kind : NodeKind}

instance : LawfulBEq (Handle kind) := inferInstance

instance : LT (Handle kind) := ⟨fun left right => left.index < right.index⟩

instance (left right : Handle kind) : Decidable (left < right) :=
  inferInstanceAs (Decidable (left.index < right.index))

@[ext] theorem ext_index {left right : Handle kind} (equal : left.index = right.index) : left = right := by
  cases left
  cases right
  exact congrArg Handle.mk equal

end Handle

/-- An append-only store of items that are addressed by handles of one kind. -/
structure Arena (kind : NodeKind) (α : Type) where
  items : Array α := #[]
  deriving Repr, Inhabited

namespace Arena

variable {kind : NodeKind} {α : Type}

def empty : Arena kind α := {}

def size (arena : Arena kind α) : Nat :=
  arena.items.size

def isEmpty (arena : Arena kind α) : Bool :=
  arena.items.isEmpty

def next (arena : Arena kind α) : Handle kind :=
  ⟨arena.size⟩

def append (arena : Arena kind α) (item : α) : Arena kind α :=
  ⟨arena.items.push item⟩

def get? (arena : Arena kind α) (handle : Handle kind) : Option α :=
  arena.items[handle.index]?

/-- The item under a handle, or the default item when the handle is out of range. -/
def get [Inhabited α] (arena : Arena kind α) (handle : Handle kind) : α :=
  (arena.get? handle).getD default

def contains (arena : Arena kind α) (handle : Handle kind) : Bool :=
  handle.index < arena.size

def modify (arena : Arena kind α) (handle : Handle kind) (change : α → α) : Arena kind α :=
  ⟨arena.items.modify handle.index change⟩

def set (arena : Arena kind α) (handle : Handle kind) (item : α) : Arena kind α :=
  arena.modify handle fun _ => item

def map (arena : Arena kind α) (change : α → α) : Arena kind α :=
  ⟨arena.items.map change⟩

def handles (arena : Arena kind α) : List (Handle kind) :=
  (List.range arena.size).map Handle.mk

def toList (arena : Arena kind α) : List α :=
  arena.items.toList

def entries (arena : Arena kind α) : List (Handle kind × α) :=
  arena.toList.zipIdx.map fun (item, index) => (⟨index⟩, item)

def find? (arena : Arena kind α) (test : α → Bool) : Option (Handle kind) :=
  (arena.entries.find? fun entry => test entry.2).map Prod.fst

/-- The entries in braces, each as its handle in brackets, a colon and the item. -/
def describe (arena : Arena kind α) (text : α → String) : String :=
  let parts := arena.entries.map fun (handle, item) => s!"[{handle.index}]: {text item}"
  "\x7b" ++ String.intercalate ", " parts ++ "\x7d"

/-! ## Reading after a change -/

@[simp] theorem size_append (arena : Arena kind α) (item : α) :
    (arena.append item).size = arena.size + 1 := by
  simp [size, append]

@[simp] theorem size_modify (arena : Arena kind α) (handle : Handle kind) (change : α → α) :
    (arena.modify handle change).size = arena.size := by
  simp [size, modify]

@[simp] theorem get?_append_next (arena : Arena kind α) (item : α) :
    (arena.append item).get? arena.next = some item := by
  simp [get?, append, next, size]

theorem get?_append (arena : Arena kind α) (item : α) (handle : Handle kind) :
    (arena.append item).get? handle =
      if handle = arena.next then some item else arena.get? handle := by
  by_cases equal : handle = arena.next
  · subst equal
    simp
  · have differs : handle.index ≠ arena.items.size := fun same => equal (Handle.ext_index same)
    simp [get?, append, equal, Array.getElem?_push, differs]

theorem get?_modify (arena : Arena kind α) (changed handle : Handle kind) (change : α → α) :
    (arena.modify changed change).get? handle =
      if handle = changed then (arena.get? handle).map change else arena.get? handle := by
  by_cases equal : handle = changed
  · subst equal
    simp [get?, modify, Array.getElem?_modify]
  · have differs : changed.index ≠ handle.index := fun same => equal (Handle.ext_index same.symm)
    simp [get?, modify, equal, Array.getElem?_modify, differs]

theorem lt_size_append {arena : Arena kind α} {item : α} {handle : Handle kind} :
    handle.index < (arena.append item).size ↔ handle.index < arena.size ∨ handle = arena.next := by
  rw [size_append, Nat.lt_succ_iff_lt_or_eq]
  exact or_congr Iff.rfl ⟨fun same => Handle.ext_index same, fun same => by rw [same]; rfl⟩

variable [Inhabited α]

theorem get_of_size_le {arena : Arena kind α} {handle : Handle kind}
    (beyond : arena.size ≤ handle.index) : arena.get handle = default := by
  have outside : arena.items[handle.index]? = none := Array.getElem?_eq_none beyond
  simp [get, get?, outside]

theorem get_append (arena : Arena kind α) (item : α) (handle : Handle kind) :
    (arena.append item).get handle = if handle = arena.next then item else arena.get handle := by
  simp only [get, get?_append]
  split <;> rfl

@[simp] theorem get_append_next (arena : Arena kind α) (item : α) :
    (arena.append item).get arena.next = item := by
  rw [get_append, if_pos rfl]

theorem get_modify_or (arena : Arena kind α) (changed : Handle kind) (change : α → α)
    (handle : Handle kind) :
    (arena.modify changed change).get handle = arena.get handle ∨
      handle = changed ∧ (arena.modify changed change).get handle = change (arena.get handle) := by
  simp only [get, get?_modify]
  split
  · cases arena.get? handle with
    | none => exact .inl rfl
    | some item => exact .inr ⟨‹_›, rfl⟩
  · exact .inl rfl

theorem get_modify {arena : Arena kind α} {changed : Handle kind} (has : changed.index < arena.size)
    (change : α → α) (handle : Handle kind) :
    (arena.modify changed change).get handle =
      if handle = changed then change (arena.get handle) else arena.get handle := by
  simp only [get, get?_modify]
  split
  next same =>
    obtain ⟨item, found⟩ := Option.isSome_iff_exists.1
      (show (arena.get? handle).isSome = true by simpa [get?, same, size] using has)
    simp [found]
  · rfl

end Arena

end Shader
