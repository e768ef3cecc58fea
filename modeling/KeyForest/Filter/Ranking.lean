import KeyForest.Config.FilterGroup
import KeyForest.Filter.Builtin
import KeyForest.LogEvent

/-!
# Ranked filters

A ranking holds the built-in filters of a compliance mode and the configured ones by descending
specificity; filters of equal specificity keep their order, built-in ones first. The first filter
that accepts a key is the most specific one. Filters that only style rows are kept apart.
-/
namespace KeyForest

structure Ranking where
  compliance : Compliance
  filters : List KeyFilter
  appearanceFilters : List KeyFilter

namespace Ranking

/-- The filters by descending specificity. -/
def sort (filters : List KeyFilter) : List KeyFilter :=
  filters.mergeSort fun a b => decide (b.specificity ≤ a.specificity)

/-- Adds the filter of a group, unless it cannot be built. -/
def addGroup (found : List KeyFilter × List LogEvent) (group : Config.FilterGroup) :
    List KeyFilter × List LogEvent :=
  let (filters, events) := found
  match group.build with
  | .error reason => (filters, events ++ [.groupSkipped group.name reason.message])
  | .ok filter =>
    let reused := filters.any (·.id == filter.id)
    (filters ++ [filter],
      if reused then events ++ [.filterIdReused group.name filter.id] else events)

/-- The ranking of the built-in filters and those of the groups. -/
def load (compliance : Compliance) (groups : List Config.FilterGroup) : Ranking × List LogEvent :=
  let (filters, events) := groups.foldl addGroup (KeyFilter.builtins compliance, [])
  let appearanceFilters := KeyFilter.appearanceBuiltins compliance
  ({ compliance, filters := sort filters, appearanceFilters },
    events ++ [.filtersReloaded filters.length appearanceFilters.length compliance.name])

/-- The ranking of the built-in filters alone. -/
def ofCompliance (compliance : Compliance) : Ranking × List LogEvent := load compliance []

/-- The ranking with other groups in place of those it was loaded with. -/
def reload (ranking : Ranking) (groups : List Config.FilterGroup) : Ranking × List LogEvent :=
  load ranking.compliance groups

/-! ### Classification -/

/-- The most specific filter that accepts a key. -/
def firstMatching (ranking : Ranking) (key : Key) (contexts : Contexts) : Option KeyFilter :=
  ranking.filters.find? (·.accepts key contexts)

/-- Every filter that accepts a key, most specific first. -/
def allMatching (ranking : Ranking) (key : Key) (contexts : Contexts) : List KeyFilter :=
  ranking.filters.filter (·.accepts key contexts)

/-- The filter of this name that is ranked first. -/
def byId? (ranking : Ranking) (id : String) : Option KeyFilter := ranking.filters.find? (·.id == id)

/-- The place of the filter of this name that is ranked first. -/
def positionOf? (ranking : Ranking) (id : String) : Option Nat :=
  ranking.filters.findIdx? (·.id == id)

/-! ### Appearance -/

/-- The filters that style a key, in the order of their say. -/
def styling (ranking : Ranking) (key : Key) : List KeyFilter :=
  (ranking.appearanceFilters ++ ranking.filters).filter (·.accepts key .appearanceOnly)

/-- The decorations of all filters that style a key. -/
def font (ranking : Ranking) (key : Key) : Font :=
  (ranking.styling key).foldl (fun font filter => font.resolve filter.font) .plain

def foreground (ranking : Ranking) (key : Key) : Option Color :=
  (ranking.styling key).findSome? (·.foreground)

def background (ranking : Ranking) (key : Key) : Option Color :=
  (ranking.styling key).findSome? (·.background)

def icon (ranking : Ranking) (key : Key) : Option String := (ranking.styling key).findSome? (·.icon)

end Ranking

end KeyForest
