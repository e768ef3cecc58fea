import KeyForest.Bucket
import KeyForest.Change

/-!
# What can be seen of a key list

A `Listing` shows the rows under each parent, the keys that are stored, and where a key is listed.
Everything else that can be asked of a key list follows from these.
-/
namespace KeyForest

class Listing (σ : Type) where
  /-- The keys listed under a parent, or at the top level. -/
  rows : σ → Option Fingerprint → List Key
  /-- All keys, by ascending fingerprint. -/
  stored : σ → Bucket
  /-- Where the key with the fingerprint is listed. -/
  placeOf : σ → Fingerprint → Option RowIndex
  /-- The row that a row is listed under. -/
  parentOf : σ → RowIndex → Option RowIndex

namespace Listing

variable {σ : Type} [Listing σ]

def size (state : σ) : Nat := (stored state).length

def isEmpty (state : σ) : Bool := (stored state).isEmpty

def rowCount (state : σ) (parent : Option Fingerprint) : Nat := (rows state parent).length

def hasChildren (state : σ) (parent : Option Fingerprint) : Bool := 0 < rowCount state parent

/-- The index of a row, if there is such a row. -/
def index (state : σ) (parent : Option Fingerprint) (row : Nat) : Option RowIndex :=
  if row < rowCount state parent then some ⟨parent, row⟩ else none

/-- The key listed at an index. -/
def keyAt (state : σ) (index : RowIndex) : Option Key := (rows state index.parent)[index.row]?

/-- Where a key is listed; a null key is nowhere. -/
def indexOf (state : σ) (key : Key) : Option RowIndex :=
  if key.isNull then none else placeOf state key.fingerprint

def keyWith (state : σ) (fingerprint : Fingerprint) : Option Key :=
  (stored state).lookup fingerprint

/-- Keeps, of neighbours that stand for the same certificate, the first. -/
def firstOfRuns (keys : List Key) : List Key :=
  keys.foldr (fun key rest =>
    match rest with
    | next :: more => if key.same next then key :: more else key :: rest
    | [] => [key]) []

/-- The keys at the indexes that there are; neighbours that repeat collapse. -/
def keysAt (state : σ) (indexes : List RowIndex) : List Key :=
  firstOfRuns (indexes.filterMap (keyAt state))

/-- Where the keys are listed, for those that are. -/
def indexesOf (state : σ) (keys : List Key) : List RowIndex := keys.filterMap (indexOf state)

/-- The rows for which `keep` holds, in pre-order with their depth, at most `levels` deep; rows
below a row that is not kept are not visited. -/
def walk (state : σ) (keep : Key → Bool) :
    (levels : Nat) → Option Fingerprint → Nat → List (Nat × Key)
  | 0, _, _ => []
  | levels + 1, parent, depth =>
    ((rows state parent).filter keep).flatMap fun key =>
      (depth, key) :: walk state keep levels (some key.fingerprint) (depth + 1)

/-- All rows in pre-order with their depth. -/
def preorder (state : σ) : List (Nat × Key) := walk state (fun _ => true) (size state) none 0

end Listing

end KeyForest
