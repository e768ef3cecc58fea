import KeyForest.Decimal.Binary64

/-!
# TOML values

A date or time is kept as its text. The entries of a table are in the order of their names, by code
points.
-/
namespace KeyForest.Toml

inductive Value where
  | string (value : String)
  | integer (value : Int)
  | float (value : Binary64)
  | boolean (value : Bool)
  /-- A date, a time or both, as text. -/
  | moment (text : String)
  | array (items : List Value)
  | table (entries : List (String × Value))
deriving Inhabited

abbrev Table := List (String × Value)

/-- The entries in the order of their names. -/
def sortEntries (entries : Table) : Table := entries.mergeSort fun a b => decide (a.1 ≤ b.1)

/-- The value of the entry with this name. -/
def Table.get? (table : Table) (name : String) : Option Value :=
  (table.find? (·.1 == name)).map (·.2)

end KeyForest.Toml
