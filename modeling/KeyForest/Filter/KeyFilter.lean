import KeyForest.Filter.Appearance
import KeyForest.Filter.Contexts
import KeyForest.Filter.Criteria

/-!
# Key filters

A filter is a named rule over keys with a rank among the others, its specificity, and decorations
for the rows of the keys that it matches. `KeyFilter.accepts` asks it on some occasion.
-/
namespace KeyForest

/-- What a filter demands of a key. -/
inductive Rule where
  | criteria (demands : Criteria)
  /-- Some user ID is not fully valid. -/
  | notFullyValid
  | deVs
  /-- Fully valid user IDs and approval for VS-NfD. -/
  | deVsValid
  | notDeVsValid
deriving DecidableEq

def Rule.holds : Rule → Key → Bool
  | .criteria demands, key => demands.holds key
  | .notFullyValid, key => !key.hasFullValidity
  | .deVs, key => key.isDeVs
  | .deVsValid, key => key.hasFullValidity && key.isDeVs
  | .notDeVsValid, key => !key.hasFullValidity || !key.isDeVs

structure KeyFilter where
  id : String
  name : String
  icon : Option String := none
  specificity : Nat := 0
  contexts : Contexts := .any
  font : Font := {}
  foreground : Option Color := none
  background : Option Color := none
  rule : Rule := .criteria {}
deriving DecidableEq

namespace KeyFilter

/-- Whether the filter matches a key when it is asked on these occasions. -/
def accepts (filter : KeyFilter) (key : Key) (contexts : Contexts) : Bool :=
  filter.contexts.intersects contexts && filter.rule.holds key

end KeyFilter

end KeyForest
