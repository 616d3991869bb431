/-!
# Records

A record maps names to values and keeps its entries in the order in which their names were first
stored. Storing a name again replaces its value where it stands.
-/

namespace HandTemplate

/-- A map from names to values that remembers the order of its names. -/
structure Record (α : Type) where
  /-- The names and their values, the earliest name first. -/
  entries : List (String × α)
  deriving Repr

namespace Record

variable {α : Type}

/-- The record without entries. -/
def empty : Record α := ⟨[]⟩

/-- The number of entries. -/
def size (r : Record α) : Nat := r.entries.length

/-- Whether there are no entries. -/
def isEmpty (r : Record α) : Bool := r.entries.isEmpty

/-- The value that `name` has among some entries. -/
def lookup (name : String) : List (String × α) → Option α
  | [] => none
  | (key, value) :: entries => if key = name then some value else lookup name entries

/-- The value stored under `name`. -/
def get? (r : Record α) (name : String) : Option α := lookup name r.entries

/-- The entries after `value` is stored under `name`. -/
def store (name : String) (value : α) : List (String × α) → List (String × α)
  | [] => [(name, value)]
  | (key, old) :: entries =>
    if key = name then (key, value) :: entries else (key, old) :: store name value entries

/-- The record in which `name` has the value `value`. -/
def insert (r : Record α) (name : String) (value : α) : Record α := ⟨store name value r.entries⟩

/-- The names in order. -/
def names (r : Record α) : List String := r.entries.map Prod.fst

/-- The record in which some entries were stored one after the other. -/
def ofList (entries : List (String × α)) : Record α :=
  entries.foldl (fun r entry => r.insert entry.1 entry.2) empty

/-- The empty record has no value for any name. -/
@[simp] theorem get?_empty (name : String) : (empty : Record α).get? name = none := rfl

/-- Storing a value changes the value of its own name only. -/
@[simp] theorem get?_insert (r : Record α) (name other : String) (value : α) :
    (r.insert name value).get? other = if name = other then some value else r.get? other := by
  obtain ⟨entries⟩ := r
  simp only [insert, get?]
  induction entries with
  | nil => simp [store, lookup]
  | cons entry entries ih =>
    obtain ⟨key, old⟩ := entry
    simp only [store]
    split <;> simp only [lookup] <;> grind

end Record

end HandTemplate
