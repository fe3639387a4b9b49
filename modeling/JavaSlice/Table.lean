/-!
# Tables

A table maps names to values. It is the list of its entries, in the order in which their names first
came up, with no name twice: putting a value under a name that is present replaces the value where
it stands.
-/

namespace JavaSlice

/-- The entries of a finite map from names. -/
abbrev Table (α : Type) := List (String × α)

namespace Table

variable {α : Type}

/-- The value of a name. -/
def get? (table : Table α) (name : String) : Option α :=
  (table.find? (·.1 == name)).map (·.2)

/-- Whether a name has a value. -/
def has (table : Table α) (name : String) : Bool :=
  (table.get? name).isSome

/-- Puts a value under a name, in place of the value that may be there. -/
def put (table : Table α) (name : String) (value : α) : Table α :=
  match table with
  | [] => [(name, value)]
  | (key, old) :: rest =>
    if key == name then (key, value) :: rest else (key, old) :: put rest name value

/-- Changes the value of a name. -/
def update (table : Table α) (name : String) (change : α → α) : Table α :=
  table.map fun (key, value) => if key == name then (key, change value) else (key, value)

/-- Takes a name out. -/
def drop (table : Table α) (name : String) : Table α :=
  table.filter (·.1 != name)

/-- The names in order. -/
def names (table : Table α) : List String :=
  table.map (·.1)

/-- The sum of the sizes of all values. -/
def total (table : Table α) (size : α → Nat) : Nat :=
  match table with
  | [] => 0
  | (_, value) :: rest => size value + total rest size

end Table

end JavaSlice
