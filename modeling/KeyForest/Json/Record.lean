import KeyForest.Json.Value

/-!
# Records in JSON

A record type is described by the list of its fields in their order. It is written as an object with
all fields. It is read from an object, in which a field may be missing, in any place, but not twice,
and members of other names are passed over; or from a list of the leading fields in order. A field
that is not given keeps the value it has in the record that reading starts from.
-/
namespace KeyForest.Json

/-- One field of a record: its name, how a record takes its value and how it gives it. -/
structure Field (α : Type) where
  name : String
  read : Json → α → Option α
  write : α → Json

/-- The field that `get` and `set` reach, with its value decoded and encoded. -/
def Field.of {α β : Type} (name : String) (decode : Json → Option β) (encode : β → Json)
    (get : α → β) (set : β → α → α) : Field α where
  name
  read value record := (decode value).map (set · record)
  write record := encode (get record)

/-- Reads the members of an object; `seen` holds the names of the fields already given. -/
def readMembers {α : Type} (fields : List (Field α)) (seen : List String) :
    List (Option String × Json) → α → Option α
  | [], record => some record
  | (none, _) :: _, _ => none
  | (some name, value) :: rest, record =>
    match fields.find? (·.name == name) with
    | none => readMembers fields seen rest record
    | some field =>
      if seen.contains name then none
      else (field.read value record).bind (readMembers fields (name :: seen) rest)

/-- Reads values of the leading fields. -/
def readItems {α : Type} : List (Field α) → List Json → α → Option α
  | _, [], record => some record
  | [], _ :: _, _ => none
  | field :: fields, value :: rest, record => (field.read value record).bind (readItems fields rest)

/-- The record that a value holds, with `record` for all that is not given. -/
def readRecord {α : Type} (fields : List (Field α)) (record : α) : Json → Option α
  | .object members => readMembers fields [] members record
  | .list items => readItems fields items record
  | _ => none

/-- The record as an object with all its fields. -/
def writeRecord {α : Type} (fields : List (Field α)) (record : α) : Json :=
  ofFields (fields.map fun field => (field.name, field.write record))

/-- Reads a list, item by item. -/
def readList {α : Type} (decode : Json → Option α) : Json → Option (List α)
  | .list items => items.mapM decode
  | _ => none

/-- Reads a value that may be null. -/
def readOptional {α : Type} (decode : Json → Option α) : Json → Option (Option α)
  | .null => some none
  | value => (decode value).map some

/-- Reads one of several names, which may also be the only member of an object, with value null. -/
def readName {α : Type} (ofName? : String → Option α) : Json → Option α
  | .text name => ofName? name
  | .object [(some name, .null)] => ofName? name
  | _ => none

end KeyForest.Json
