import ScopedAggregation.Text

namespace ScopedAggregation

/-- Entries in increasing order of their names. -/
abbrev Table (α : Type) := List (Text × α)

namespace Table

variable {α : Type}

/-- Puts an entry where its name belongs; an entry of the same name is replaced. -/
def insert (name : Text) (x : α) : Table α → Table α
  | [] => [(name, x)]
  | (k, y) :: rest =>
    if k = name then (name, x) :: rest
    else if Text.le name k then (name, x) :: (k, y) :: rest
    else (k, y) :: insert name x rest

/-- The entry of a name. -/
def get? (name : Text) : Table α → Option α
  | [] => none
  | (k, x) :: rest => if k = name then some x else get? name rest

def erase (name : Text) : Table α → Table α
  | [] => []
  | (k, x) :: rest => if k = name then rest else (k, x) :: erase name rest

def contains (name : Text) (t : Table α) : Bool := (t.get? name).isSome

/-- The table of entries in any order; of equal names the last one counts. -/
def ofList (entries : List (Text × α)) : Table α :=
  entries.foldl (fun t (k, x) => insert k x t) []

end Table

end ScopedAggregation
