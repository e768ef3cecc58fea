import KeyForest.Toml.Moment
import KeyForest.Toml.Number

/-!
# TOML documents

`Toml.parse` reads a document into its top table. While a document is read, a table remembers how it
came about: one that was made only as part of a path may still get a header of its own, one that was
made by a dotted name may only be added to by dotted names, and one that had a header is closed.
-/
namespace KeyForest.Toml

/-! ### Tables under way -/

inductive Node where
  | leaf (value : Value)
  /-- A table; `implicit` if it was made as part of a path, `dotted` if that was a dotted name. -/
  | table (implicit dotted : Bool) (entries : List (String × Node))
  /-- An array of tables, in order. -/
  | tables (items : List (List (String × Node)))
deriving Inhabited

abbrev Entries := List (String × Node)

namespace Entries

def get? (entries : Entries) (name : String) : Option Node :=
  (entries.find? (·.1 == name)).map (·.2)

def erase (entries : Entries) (name : String) : Entries :=
  entries.filter fun entry => entry.1 != name

/-- Gives an entry a new node in its place, or adds it at the end. -/
def put (entries : Entries) (name : String) (node : Node) : Entries :=
  match entries with
  | [] => [(name, node)]
  | entry :: rest =>
    if entry.1 == name then (name, node) :: rest else entry :: put rest name node

/-- Changes the table at the end of a path and answers what the change answers. Tables that are
missing on the way are made. By dotted names one may only pass through tables that were made as part
of a path; through an array of tables one passes by its last table. The change is told whether the
table was made by a dotted name. -/
def changeAt {α : Type} (dotted : Bool) (change : Bool → Entries → Option (Entries × α)) :
    List String → (isDotted : Bool) → Entries → Option (Entries × α)
  | [], isDotted, entries => change isDotted entries
  | name :: path, _, entries =>
    match get? entries name with
    | none => do
      let (inner, answer) ← changeAt dotted change path dotted []
      return (put entries name (.table true dotted inner), answer)
    | some (.leaf _) => none
    | some (.table implicit isDotted inner) =>
      if dotted && !implicit then none
      else do
        let (inner, answer) ← changeAt dotted change path isDotted inner
        return (put entries name (.table implicit isDotted inner), answer)
    | some (.tables items) =>
      match items.getLast? with
      | none => none
      | some last => do
        let (last, answer) ← changeAt dotted change path false last
        return (put entries name (.tables (items.dropLast ++ [last])), answer)

/-- Adds an entry by its dotted name. No entry may be there already. -/
def addEntry (entries : Entries) (path : List String) (value : Value) : Option Entries := do
  let name ← path.getLast?
  let path := path.dropLast
  let (entries, _) ← changeAt true (fun isDotted entries =>
    if isDotted == path.isEmpty || (get? entries name).isSome then none
    else some (put entries name (.leaf value), ())) path false entries
  return entries

end Entries

mutual

/-- The value of a node, with the entries of its tables in the order in which they came about. -/
def Node.toValue : Node → Value
  | .leaf value => value
  | .table _ _ entries => .table (valuesOf entries)
  | .tables items => .array (tableValues items)

def valuesOf : List (String × Node) → List (String × Value)
  | [] => []
  | (name, node) :: rest => (name, node.toValue) :: valuesOf rest

def tableValues : List (List (String × Node)) → List Value
  | [] => []
  | entries :: rest => .table (valuesOf entries) :: tableValues rest

end

/-! ### Tables in order -/

/-- The name of an entry that makes its table stand for a moment, if it comes first. -/
def momentName : String := "$__toml_private_datetime"

mutual

/-- The value with the entries of every table in the order of their names. A table whose first entry
has the name for moments is the moment that the text of that entry stands for. -/
def Value.ordered : Value → Option Value
  | .array items => (orderedItems items).map .array
  | .table entries =>
    match entries with
    | (name, value) :: rest =>
      if name = momentName then
        match value with
        | .string text => (Moment.ofText? text).map .moment
        | _ => none
      else do
        let value ← value.ordered
        let rest ← orderedEntries rest
        return .table (sortEntries ((name, value) :: rest))
    | [] => some (.table [])
  | value => some value

def orderedItems : List Value → Option (List Value)
  | [] => some []
  | value :: rest => do
    let value ← value.ordered
    let rest ← orderedItems rest
    return value :: rest

def orderedEntries : List (String × Value) → Option Table
  | [] => some []
  | (name, value) :: rest => do
    let value ← value.ordered
    let rest ← orderedEntries rest
    return (name, value) :: rest

end

/-! ### Values -/

/-- Reads the items of an array up to its end; `read` holds those already read, last first. -/
def readItems (item : Reader Value) : (steps : Nat) → (read : List Value) → Reader Value
  | steps + 1, read, cs =>
    match skipTrivia false cs with
    | ']' :: rest => some (.array read.reverse, rest)
    | cs => do
      let (value, rest) ← item cs
      match skipTrivia false rest with
      | ',' :: rest => readItems item steps (value :: read) rest
      | ']' :: rest => some (.array (value :: read).reverse, rest)
      | _ => none
  | 0, _, _ => none

/-- Reads the entries of an inline table up to its end. -/
def readInline (item : Reader Value) : (steps : Nat) → Entries → Reader Value
  | steps + 1, entries, cs => do
    let (path, rest) ← readPath cs
    let rest ← readMark '=' rest
    let (value, rest) ← item (skipSpaces rest)
    let entries ← entries.addEntry path value
    match skipSpaces rest with
    | ',' :: rest => readInline item steps entries rest
    | '\x7d' :: rest => some (.table (valuesOf entries), rest)
    | _ => none
  | 0, _, _ => none

/-- Reads a value that holds values at most `levels` deep. -/
def readValue : (levels : Nat) → Reader Value
  | levels, cs =>
    match cs with
    | '"' :: _ | '\'' :: _ => (readText cs).map fun (text, rest) => (.string text, rest)
    | 't' :: 'r' :: 'u' :: 'e' :: rest => some (.boolean true, rest)
    | 'f' :: 'a' :: 'l' :: 's' :: 'e' :: rest => some (.boolean false, rest)
    | '[' :: rest =>
      match levels with
      | 0 => none
      | levels + 1 => readItems (readValue levels) (rest.length + 1) [] rest
    | '\x7b' :: rest =>
      match levels with
      | 0 => none
      | levels + 1 =>
        match skipSpaces rest with
        | '\x7d' :: rest => some (.table [], rest)
        | rest => readInline (readValue levels) (rest.length + 1) [] rest
    | 'i' :: _ | 'n' :: _ => readSpecial false cs
    | _ =>
      if Moment.begins cs then
        (Moment.read cs).map fun (moment, rest) => (.moment (String.ofList moment), rest)
      else readNumber cs

/-! ### Documents -/

/-- A document under way: the tables that are complete, and the one that is being filled. -/
structure Draft where
  root : Entries := []
  /-- The header of the table that is being filled; none at the start of the document. -/
  path : List String := []
  /-- Whether the header is that of an array of tables. -/
  isArray : Bool := false
  current : Entries := []

namespace Draft

/-- Puts the table that is being filled in its place. -/
def settle (draft : Draft) : Option Entries :=
  match draft.path.getLast? with
  | none => some draft.current
  | some name => do
    let (root, _) ← Entries.changeAt false (fun _ entries =>
      match Entries.get? entries name, draft.isArray with
      | some (.tables items), true =>
        some (entries.put name (.tables (items ++ [draft.current])), ())
      | none, false => some (entries.put name (.table false false draft.current), ())
      | _, _ => none) draft.path.dropLast false draft.root
    return root

/-- Begins a table with this header. A table that was only made on the way is continued. -/
def beginTable (draft : Draft) (path : List String) : Option Draft := do
  let root ← draft.settle
  let name ← path.getLast?
  let (root, current) ← Entries.changeAt false (fun _ entries =>
    match Entries.get? entries name with
    | none => some (entries, [])
    | some (.table true false inner) => some (entries.erase name, inner)
    | _ => none) path.dropLast false root
  return { root, path, isArray := false, current }

/-- Begins a further table of the array with this header. -/
def beginArrayTable (draft : Draft) (path : List String) : Option Draft := do
  let root ← draft.settle
  let name ← path.getLast?
  let (root, _) ← Entries.changeAt false (fun _ entries =>
    match Entries.get? entries name with
    | none => some (entries.put name (.tables []), ())
    | some (.tables _) => some (entries, ())
    | _ => none) path.dropLast false root
  return { root, path, isArray := true, current := [] }

end Draft

/-- Reads one line of a document. -/
def readLine (draft : Draft) (cs : List Char) : Option (Draft × List Char) :=
  match cs with
  | '[' :: '[' :: rest => do
    let (path, rest) ← readPath rest
    let rest ← readMark ']' rest
    let rest ← readMark ']' rest
    let rest ← endLine rest
    return (← draft.beginArrayTable path, rest)
  | '[' :: rest => do
    let (path, rest) ← readPath rest
    let rest ← readMark ']' rest
    let rest ← endLine rest
    return (← draft.beginTable path, rest)
  | _ => do
    let (path, rest) ← readPath cs
    let rest ← readMark '=' rest
    let (value, rest) ← readValue (depthLimit - 1) (skipSpaces rest)
    let rest ← endLine rest
    return ({ draft with current := ← draft.current.addEntry path value }, rest)

/-- Reads the lines of a document up to its end. -/
def readLinesOf : (steps : Nat) → Draft → List Char → Option Entries
  | 0, draft, _ => draft.settle
  | steps + 1, draft, cs =>
    match skipSpaces cs with
    | [] => draft.settle
    | c :: rest =>
      if c = '#' || c = '\n' || c = '\r' then
        (endLine (c :: rest)).bind (readLinesOf steps draft)
      else
        (readLine draft (c :: rest)).bind fun (draft, rest) => readLinesOf steps draft rest

/-- The top table of a document; a byte order mark at its start is passed over. -/
def parse (s : String) : Option Table :=
  let cs := match s.toList with
    | '\uFEFF' :: rest => rest
    | cs => cs
  do
    let entries ← readLinesOf (cs.length + 1) {} cs
    let table ← orderedEntries (valuesOf entries)
    return sortEntries table

end KeyForest.Toml
