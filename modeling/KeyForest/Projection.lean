import KeyForest.Filter.KeyFilter
import KeyForest.Listing
import KeyForest.LogEvent
import KeyForest.Text.LetterCase

/-!
# Projections of a key list

A projection shows the rows whose keys are accepted by a filter and a text query, and the rows above
them. It is settled for the key list it is made of, and anew when it is given another filter or query.
Whatever tells keys apart may serve as a filter.
-/
namespace KeyForest

/-- A filter stands for its answers, to whatever key on whatever occasions. -/
instance : Coe (Option KeyFilter) (Option (Key → Contexts → Bool)) :=
  ⟨Option.map KeyFilter.accepts⟩

/-- What a projection looks for. -/
structure Wish where
  filter : Option (Key → Contexts → Bool) := none
  /-- The text to be found, in lower case; it is not blank. -/
  query : Option String := none

namespace Wish

/-- The text looked for, from what a person has typed; nothing if that is blank. -/
def queryOf (typed : Option String) : Option String :=
  (typed.map Text.trim).bind fun text => if text.isEmpty then none else some (Text.lower text)

/-- Whether the text is in the fingerprint or in a user ID, letter case aside. -/
def finds (query : String) (key : Key) : Bool :=
  Text.contains query (Text.lower key.fingerprint.text) ||
    key.userIds.any fun uid => Text.contains query (Text.lower uid.id)

/-- Whether a key is accepted on its own. -/
def accepts (wish : Wish) (key : Key) : Bool :=
  wish.filter.all (· key .filteringOnly) && wish.query.all (finds · key)

end Wish

structure Projection (σ : Type) where
  state : σ
  wish : Wish
  /-- The fingerprints of the visible rows. -/
  visible : List Fingerprint

namespace Projection

variable {σ : Type} [Listing σ]

/-- Adds a row to the visible ones if it is accepted or a row under it is visible. -/
def settle (state : σ) (wish : Wish) (key : Key) (visible : List Fingerprint) : List Fingerprint :=
  let shown (child : Key) : Bool := visible.any (· == child.fingerprint)
  if (Listing.rows state (some key.fingerprint)).any shown || wish.accepts key then
    if shown key then visible else key.fingerprint :: visible
  else visible

/-- The projection of a key list; rows are settled after the rows below them. -/
def make (state : σ) (wish : Wish) : Projection σ where
  state
  wish
  visible := ((Listing.preorder state).map (·.2)).foldr (settle state wish) []

/-- The projection in which everything is visible. -/
def ofState (state : σ) : Projection σ := make state {}

/-- The projection settled anew for another filter, or for none. -/
def withFilter (projection : Projection σ) (filter : Option (Key → Contexts → Bool)) :
    Projection σ :=
  make projection.state { projection.wish with filter }

/-- The projection settled anew for the text that a person has typed, if any. -/
def withQuery (projection : Projection σ) (typed : Option String) : Projection σ :=
  make projection.state { projection.wish with query := Wish.queryOf typed }

def isVisible (projection : Projection σ) (key : Key) : Bool :=
  projection.visible.any (· == key.fingerprint)

/-- The number of visible rows. -/
def visibleCount (projection : Projection σ) : Nat := projection.visible.length

/-- The visible rows under a parent, in their order. -/
def visibleRows (projection : Projection σ) (parent : Option Fingerprint) : List RowIndex :=
  (Listing.rows projection.state parent).zipIdx.filterMap fun (key, row) =>
    if projection.isVisible key then some ⟨parent, row⟩ else none

/-- The visible rows in pre-order, each with its depth. -/
def visibleTree (projection : Projection σ) : List (Nat × Key) :=
  Listing.walk projection.state projection.isVisible (Listing.size projection.state) none 0

def visibleKeys (projection : Projection σ) : List Key := projection.visibleTree.map (·.2)

/-- The event that tells of a projection having been made. -/
def event (projection : Projection σ) : LogEvent :=
  .projectionMade projection.visibleCount (Listing.size projection.state)

end Projection

end KeyForest
