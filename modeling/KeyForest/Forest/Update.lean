import KeyForest.Forest.Defect
import KeyForest.Forest.Placement

/-!
# Changing a forest

Batches are placed issuers first. A key without children is removed by taking its row out, a key
with children by building the forest anew without it, so that the rows below it find their places.
-/
namespace KeyForest.Forest

/-- Tells that the row of a key has changed. -/
def announceData (journal : Journal Forest) (fingerprint : Fingerprint) : Journal Forest :=
  match journal.state.placeOf fingerprint with
  | some index => journal.announce (.dataChanged index.parent index.row)
  | none => journal

/-- Checks that the forest has no defect. -/
def checkSound (journal : Journal Forest) : Journal Forest :=
  journal.check .soundForest journal.state.firstDefect.isNone

/-- Places the keys of a bucket and answers where they are listed then. At the end every key below
which something was listed is told to have changed. -/
def merge [HasWalks] (journal : Journal Forest) (batch : Bucket) :
    Journal Forest × List RowIndex :=
  let journal := journal.check .sortedBatch (Bucket.isSorted batch)
  let order := Bucket.issuersFirst batch
  let journal := journal.check .completeOrder (order.length == batch.length)
  let placing := order.foldl deliver ⟨journal, [], []⟩
  let journal := placing.touched.fingerprints.foldl announceData placing.journal
  let journal := checkSound journal
  (journal, batch.filterMap fun key => journal.state.placeOf key.fingerprint)

def clear (journal : Journal Forest) : Journal Forest :=
  ((journal.announce .aboutToReset).update fun _ => {}).announce .reset

/-- Removes a key with children: all other keys are placed anew. -/
def rebuildWithout [HasWalks] (journal : Journal Forest) (fingerprint : Fingerprint) :
    Journal Forest :=
  let left := journal.state.stored.filter fun key => !(key.fingerprint == fingerprint)
  ((clear (journal.log (.rebuildingForest fingerprint left.length))).addBy merge left).1

/-- Takes out the row of a key without children. The key also stops waiting for `issuer`. -/
def dropLeaf (forest : Forest) (index : RowIndex) (fingerprint : Fingerprint)
    (issuer : Option Fingerprint) : Forest :=
  (forest.dropRow index fingerprint).endWait issuer fingerprint

/-- Lets the keys at the top level that name `issuer` as their issuer wait for it, and tells that
their rows have changed. -/
def park (journal : Journal Forest) (issuer : Fingerprint) : Journal Forest :=
  let cut := journal.state.topLevel.filter fun key => sameParent key.cleanIssuer (some issuer)
  if cut.isEmpty then journal
  else
    (cut.map (·.fingerprint)).foldl announceData <| journal.update fun forest =>
      { forest with waiting := forest.waiting.put issuer cut }

/-- Removes a key without children. The keys at the top level that name it as their issuer, because
they had been cut from a cycle, wait for it from now on. -/
def removeLeaf (journal : Journal Forest) (fingerprint : Fingerprint) : Journal Forest :=
  match journal.state.placeOf fingerprint with
  | none => journal
  | some index =>
    let issuer := (Listing.keyAt journal.state index).bind (·.cleanIssuer)
    let journal := journal.announce (.aboutToRemove index.parent index.row index.row)
    let journal := journal.update (·.dropLeaf index fingerprint issuer)
    let journal := journal.announce (.removed index.parent index.row index.row)
    checkSound (park journal fingerprint)

def remove [HasWalks] (journal : Journal Forest) (fingerprint : Fingerprint) : Journal Forest :=
  if !journal.state.stored.has fingerprint then journal
  else if (journal.state.childrenOf fingerprint).isEmpty then removeLeaf journal fingerprint
  else rebuildWithout journal fingerprint

instance keyList [HasWalks] : KeyList Forest where
  empty := {}
  merge := merge
  remove := remove
  clear := clear

end KeyForest.Forest
