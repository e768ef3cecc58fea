import KeyForest.Change

/-!
# Events for the log

Everything the program reports to its log, with the severity and the fields under which each event
is written.
-/
namespace KeyForest

inductive Severity where
  | trace
  | debug
  | warn
deriving DecidableEq, Repr

def Severity.name : Severity → String
  | trace => "TRACE"
  | debug => "DEBUG"
  | warn => "WARN"

inductive LogEvent where
  | addingKeys (count : Nat)
  | rebuildingForest (removed : Fingerprint) (remaining : Nat)
  /-- A change of the key list with this label, with its number of keys and of top-level rows. -/
  | listChanged (label : String) (change : Change) (keys topRows : Nat)
  | keyringRead (keys : Nat)
  | configurationLoaded (groups : Nat)
  | unknownTable (table : String)
  | groupNotTable (group : String)
  | filterIdReused (group id : String)
  | groupSkipped (group reason : String)
  | filtersReloaded (filters appearanceFilters : Nat) (compliance : String)
  | projectionMade (visible total : Nat)
deriving DecidableEq

namespace LogEvent

def severity : LogEvent → Severity
  | listChanged .. => .trace
  | groupNotTable _ | groupSkipped .. => .warn
  | _ => .debug

def message : LogEvent → String
  | addingKeys _ => "adding keys"
  | rebuildingForest .. => "rebuilding key hierarchy after issuer removal"
  | listChanged .. => "key list changed"
  | keyringRead _ => "keyring read"
  | configurationLoaded _ => "loaded configuration"
  | unknownTable _ => "ignoring unknown configuration table"
  | groupNotTable _ => "filter group is not a table, skipping"
  | filterIdReused .. => "filter id reused"
  | groupSkipped .. => "skipping invalid filter group"
  | filtersReloaded .. => "key filters reloaded"
  | projectionMade .. => "key list filter applied"

/-- The fields of an event besides its message. -/
def details : LogEvent → List (String × String)
  | addingKeys count => [("count", toString count)]
  | rebuildingForest removed remaining =>
    [("fingerprint", removed.text), ("remaining", toString remaining)]
  | listChanged label change keys topRows =>
    [("model", label), ("change", change.described), ("keys", toString keys),
     ("top_level_rows", toString topRows)]
  | keyringRead keys => [("keys", toString keys)]
  | configurationLoaded groups => [("groups", toString groups)]
  | unknownTable table => [("table", table)]
  | groupNotTable group => [("group", group)]
  | filterIdReused group id => [("group", group), ("id", id)]
  | groupSkipped group reason => [("group", group), ("reason", reason)]
  | filtersReloaded filters appearanceFilters compliance =>
    [("filters", toString filters), ("appearance_filters", toString appearanceFilters),
     ("compliance", compliance)]
  | projectionMade visible total => [("visible", toString visible), ("total", toString total)]

/-- The line of the log for an event. -/
def line (event : LogEvent) : String :=
  let fields := event.details.map fun (name, value) => name ++ "=" ++ value
  " ".intercalate (event.severity.name :: event.message :: fields)

end LogEvent

end KeyForest
