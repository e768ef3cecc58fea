import KeyForest.Journal

/-!
# The flat key list

Every key is a row at the top level, in ascending order of fingerprints. Putting a key in shifts the
rows after it; replacing one only tells that its row has changed.
-/
namespace KeyForest

structure FlatList where
  keys : Bucket

namespace FlatList

instance : Listing FlatList where
  rows list parent := if parent.isNone then list.keys else []
  stored list := list.keys
  placeOf list fingerprint := (list.keys.rowOf? fingerprint).map RowIndex.top
  parentOf _ _ := none

/-- Puts one key in. -/
def put (journal : Journal FlatList) (key : Key) : Journal FlatList :=
  let slot := journal.state.keys.search key.fingerprint
  let place (list : FlatList) : FlatList := ⟨list.keys.putAt key slot⟩
  match slot with
  | .taken row => (journal.update place).announce (.dataChanged none row)
  | .free row =>
    ((journal.announce (.aboutToInsert none row row)).update place).announce
      (.inserted none row row)

/-- Puts the keys of a bucket in and answers their rows. -/
def merge (journal : Journal FlatList) (batch : Bucket) : Journal FlatList × List RowIndex :=
  let journal := batch.foldl put (journal.check .sortedBatch (Bucket.isSorted batch))
  let journal := journal.check .sortedKeys (Bucket.isSorted journal.state.keys)
  (journal, batch.filterMap fun key => Listing.placeOf journal.state key.fingerprint)

def remove (journal : Journal FlatList) (fingerprint : Fingerprint) : Journal FlatList :=
  match journal.state.keys.rowOf? fingerprint with
  | none => journal
  | some row =>
    ((journal.announce (.aboutToRemove none row row)).update
      fun list => ⟨list.keys.eraseIdx row⟩).announce (.removed none row row)

def clear (journal : Journal FlatList) : Journal FlatList :=
  ((journal.announce .aboutToReset).update fun _ => ⟨[]⟩).announce .reset

instance : KeyList FlatList where
  empty := ⟨[]⟩
  merge := merge
  remove := remove
  clear := clear

end FlatList

end KeyForest
