import KeyForest.Fingerprint

/-!
# Tables by fingerprint

A table holds one value for each of some fingerprints, in ascending order of fingerprints. An entry
that gets a new value keeps the spelling of the fingerprint with which it was made.
-/
namespace KeyForest

abbrev Table (α : Type) := List (Fingerprint × α)

namespace Table

variable {α : Type}

/-- The value for the fingerprint. -/
def get? (table : Table α) (fingerprint : Fingerprint) : Option α :=
  (table.find? fun entry => entry.1 == fingerprint).map (·.2)

def has (table : Table α) (fingerprint : Fingerprint) : Bool :=
  table.any fun entry => entry.1 == fingerprint

/-- Gives the fingerprint a value. -/
def put (table : Table α) (fingerprint : Fingerprint) (value : α) : Table α :=
  match table with
  | [] => [(fingerprint, value)]
  | entry :: rest =>
    match compare fingerprint entry.1 with
    | .lt => (fingerprint, value) :: entry :: rest
    | .eq => (entry.1, value) :: rest
    | .gt => entry :: put rest fingerprint value

/-- Takes the entry of the fingerprint out. -/
def erase (table : Table α) (fingerprint : Fingerprint) : Table α :=
  table.filter fun entry => !(entry.1 == fingerprint)

/-- The number of elements of all the lists in a table. -/
def total (table : Table (List α)) : Nat := table.foldr (fun entry n => entry.2.length + n) 0

/-- The fingerprints of the table, ascending. -/
def fingerprints (table : Table α) : List Fingerprint := table.map (·.1)

end Table

end KeyForest
