/-! # Tables

A `Table` is a finite map from keys to values, kept as a list of entries. Inserting a key that is
already there replaces its value. -/

namespace Shader

structure Table (κ α : Type) where
  entries : List (κ × α) := []
  deriving Repr, Inhabited

namespace Table

variable {κ α : Type} [DecidableEq κ]

def empty : Table κ α := {}

def find? (table : Table κ α) (key : κ) : Option α :=
  table.entries.lookup key

def contains (table : Table κ α) (key : κ) : Bool :=
  (table.find? key).isSome

def erase (table : Table κ α) (key : κ) : Table κ α :=
  ⟨table.entries.filter fun entry => !(entry.1 == key)⟩

def insert (table : Table κ α) (key : κ) (value : α) : Table κ α :=
  ⟨(key, value) :: (table.erase key).entries⟩

def mapValues (table : Table κ α) (change : α → α) : Table κ α :=
  ⟨table.entries.map fun entry => (entry.1, change entry.2)⟩

/-- Bind a key to a value in front of the first entry whose key is not smaller. -/
def insertOrdered (smaller : κ → κ → Bool) (table : Table κ α) (key : κ) (value : α) : Table κ α :=
  let before := table.entries.takeWhile fun entry => smaller entry.1 key
  let after := table.entries.dropWhile fun entry => smaller entry.1 key
  ⟨before ++ (key, value) :: after.filter fun entry => !(entry.1 == key)⟩

/-! ## Reading after a change -/

@[simp] theorem find?_insert_self (table : Table κ α) (key : κ) (value : α) :
    (table.insert key value).find? key = some value := by
  simp [find?, insert]

theorem find?_erase_of_ne (table : Table κ α) {key other : κ} (differs : other ≠ key) :
    (table.erase key).find? other = table.find? other := by
  obtain ⟨entries⟩ := table
  simp only [find?, erase]
  induction entries with
  | nil => rfl
  | cons entry rest induction =>
    obtain ⟨first, value⟩ := entry
    by_cases same : first = key
    · subst same
      have unequal : (other == first) = false := by simpa using differs
      simpa [List.lookup_cons, unequal] using induction
    · by_cases found : other = first
      · subst found
        simp [same]
      · have unequal : (other == first) = false := by simpa using found
        simpa [List.lookup_cons, same, unequal] using induction

theorem find?_insert_of_ne (table : Table κ α) {key other : κ} (value : α)
    (differs : other ≠ key) : (table.insert key value).find? other = table.find? other := by
  have unequal : (other == key) = false := by simpa using differs
  simpa [find?, insert, List.lookup_cons, unequal] using find?_erase_of_ne table differs

@[simp] theorem find?_mapValues (table : Table κ α) (change : α → α) (key : κ) :
    (table.mapValues change).find? key = (table.find? key).map change := by
  obtain ⟨entries⟩ := table
  simp only [find?, mapValues]
  induction entries with
  | nil => rfl
  | cons entry rest induction =>
    obtain ⟨first, value⟩ := entry
    by_cases same : key = first
    · subst same
      simp
    · have unequal : (key == first) = false := by simpa using same
      simpa [List.lookup_cons, unequal] using induction

end Table

end Shader
