import KeyForest.Bucket.IssuerOrder
import KeyForest.Forest.Basic

/-!
# Placing keys in a forest

A key is listed under its issuer if the issuer can be reached from the top level and does not itself
lie below the key. Otherwise it is listed at the top level: to wait for its issuer if that is
nowhere, or else because listing it there would close a cycle.

When a key is placed, the keys waiting for it leave the top level and are queued to be placed after
it. Whatever is listed below a row leaves and returns with the row.
-/
namespace KeyForest.Forest

open HasWalks

/-- Where a key is to be listed. -/
inductive Target where
  | topLevel
  | under (issuer : Fingerprint)
  /-- At the top level, waiting for the issuer. -/
  | orphan (issuer : Fingerprint)
deriving DecidableEq

/-- The parent of the row that is to be made. -/
def Target.parent : Target → Option Fingerprint
  | .under issuer => some issuer
  | _ => none

def Target.isOrphanOf (issuer : Fingerprint) : Target → Bool
  | .orphan awaited => awaited == issuer
  | _ => false

/-- Where a key belongs in the forest as it is. -/
def targetOf [HasWalks] (forest : Forest) (key : Key) : Target :=
  match key.cleanIssuer with
  | none => .topLevel
  | some issuer =>
    if walks.isAttached forest issuer && !walks.isWithin forest issuer key.fingerprint then
      .under issuer
    else if forest.isPlaced issuer || forest.inTransit.has issuer then .topLevel
    else .orphan issuer

/-- Takes the row out of its bucket, and its key out of the placements. -/
def detach (forest : Forest) (index : RowIndex) (fingerprint : Fingerprint) : Forest :=
  let forest := forest.setRows index.parent ((forest.rows index.parent).eraseIdx index.row)
  { forest with parents := forest.parents.erase fingerprint }

/-- Ends a key's waiting for an issuer. -/
def forgetOrphan (forest : Forest) (issuer fingerprint : Fingerprint) : Forest :=
  let left := (forest.waitingFor issuer).erase fingerprint
  if left.isEmpty then { forest with waiting := forest.waiting.erase issuer }
  else { forest with waiting := forest.waiting.put issuer left }

/-- Lets a key wait for an issuer. -/
def await (forest : Forest) (issuer : Fingerprint) (key : Key) : Forest :=
  { forest with waiting := forest.waiting.put issuer ((forest.waitingFor issuer).put key) }

/-- Ends a key's waiting for the issuer, if one is given. -/
def endWait (forest : Forest) (issuer : Option Fingerprint) (fingerprint : Fingerprint) : Forest :=
  match issuer with
  | some issuer => forest.forgetOrphan issuer fingerprint
  | none => forest

/-- Lets a key wait where its target says, and no longer for its former issuer. -/
def rewait (forest : Forest) (former : Option Fingerprint) (target : Target) (key : Key) : Forest :=
  let left := former.filter fun issuer => !target.isOrphanOf issuer
  let forest := forest.endWait left key.fingerprint
  match target with
  | .orphan issuer => forest.await issuer key
  | _ => forest

/-- Stores a key and records where it is listed. -/
def store (forest : Forest) (parent : Option Fingerprint) (key : Key) : Forest :=
  { forest with
    stored := forest.stored.put key
    parents := forest.parents.put key.fingerprint parent }

/-- Takes the row of a key out of the forest, and the key out of the stored keys. -/
def dropRow (forest : Forest) (index : RowIndex) (fingerprint : Fingerprint) : Forest :=
  let forest := forest.detach index fingerprint
  { forest with stored := forest.stored.erase fingerprint }

/-- Takes the row of a key out of the forest, and the key and what is listed below it out of the
stored keys. -/
def takeOut [HasWalks] (forest : Forest) (index : RowIndex) (fingerprint : Fingerprint) : Forest :=
  let forest := forest.dropRow index fingerprint
  { forest with
    stored := (walks.subtree forest fingerprint).foldl
      (fun keys key => keys.erase key.fingerprint) forest.stored }

/-- Puts a row with a key at a slot of the rows under a parent. -/
def putRow (forest : Forest) (parent : Option Fingerprint) (key : Key) (slot : Slot) : Forest :=
  (forest.setRows parent ((forest.rows parent).putAt key slot)).store parent key

/-- Puts a row in whose key may have rows below it; they are stored again. -/
def bringIn [HasWalks] (forest : Forest) (parent : Option Fingerprint) (key : Key) (slot : Slot) :
    Forest :=
  let returning := walks.subtree forest key.fingerprint
  let forest := forest.putRow parent key slot
  { forest with stored := returning.foldl Bucket.put forest.stored }

/-- Lists a key under a parent, in place of the row with its fingerprint if there is one, and
answers its row. -/
def listRow [HasWalks] (journal : Journal Forest) (parent : Option Fingerprint) (key : Key) :
    Journal Forest × Nat :=
  match (journal.state.rows parent).search key.fingerprint with
  | .taken row =>
    let journal := journal.update (·.putRow parent key (.taken row))
    (journal.announce (.dataChanged parent row), row)
  | .free row =>
    let journal := journal.announce (.aboutToInsert parent row row)
    let journal := journal.update (·.bringIn parent key (.free row))
    (journal.announce (.inserted parent row row), row)

/-- Takes the row of a key out of the forest, and with it, for the time being, the rows below it.
Answers the key that was listed there. -/
def unlistRow [HasWalks] (journal : Journal Forest) (fingerprint : Fingerprint) :
    Journal Forest × Option Key :=
  match journal.state.placeOf fingerprint with
  | none => (journal, none)
  | some index =>
    let key := Listing.keyAt journal.state index
    let journal := journal.announce (.aboutToRemove index.parent index.row index.row)
    let journal := journal.update (·.takeOut index fingerprint)
    (journal.announce (.removed index.parent index.row index.row), key)

/-- How a key comes to be placed. -/
inductive Arrival where
  | delivered
  /-- Taken from the top level because its issuer has arrived. -/
  | promoted
deriving DecidableEq

/-- A batch under way: the keys still to be placed, and the keys below which something was
listed. -/
structure Placing where
  journal : Journal Forest
  queue : List (Key × Arrival)
  touched : Table Unit

/-- Takes a key that waited for its issuer from the top level and queues it. -/
def promote [HasWalks] (placing : Placing) (orphan : Key) : Placing :=
  match placing.journal.state.placeOf orphan.fingerprint with
  | none => placing
  | some index =>
    let journal := placing.journal.check .waitingAtTop index.parent.isNone
    let (journal, key) :=
      unlistRow (journal.announce (.aboutToMove index.parent index.row)) orphan.fingerprint
    match key with
    | none => { placing with journal }
    | some key =>
      { placing with
        journal := journal.update fun forest =>
          { forest with inTransit := forest.inTransit.put key.fingerprint () }
        queue := placing.queue ++ [(key, .promoted)] }

/-- Takes all keys that wait for an issuer from the top level and queues them. -/
def promoteWaiting [HasWalks] (placing : Placing) (issuer : Fingerprint) : Placing :=
  let orphans := placing.journal.state.waitingFor issuer
  let journal := placing.journal.update fun forest =>
    { forest with waiting := forest.waiting.erase issuer }
  orphans.foldl promote { placing with journal }

/-- Marks a parent and the keys above it as touched, up to the first that is marked already. -/
def touch (forest : Forest) : (steps : Nat) → Option Fingerprint → Table Unit → Table Unit
  | steps + 1, some fingerprint, touched =>
    if touched.has fingerprint then touched
    else touch forest steps ((forest.parents.get? fingerprint).join) (touched.put fingerprint ())
  | _, _, touched => touched

/-- Removes the row of a key that is listed elsewhere than where it belongs. -/
def leaveOldPlace [HasWalks] (journal : Journal Forest) (fingerprint : Fingerprint)
    (target : Target) : Journal Forest :=
  match journal.state.parents.get? fingerprint with
  | some parent =>
    if sameParent parent target.parent then journal else (unlistRow journal fingerprint).1
  | none => journal

/-- Lists a key where its target says, and nowhere else, and answers its row. -/
def relist [HasWalks] (journal : Journal Forest) (former : Option Fingerprint) (target : Target)
    (key : Key) : Journal Forest × Nat :=
  let journal := leaveOldPlace journal key.fingerprint target
  let journal := journal.update (·.rewait former target key)
  listRow journal target.parent key

/-- Places one key; the keys it makes movable are queued. -/
def place [HasWalks] (placing : Placing) (key : Key) (arrival : Arrival) : Placing :=
  let fingerprint := key.fingerprint
  let placing := { placing with
    journal := placing.journal.update fun forest =>
      { forest with inTransit := forest.inTransit.erase fingerprint } }
  let placing := promoteWaiting placing fingerprint
  let formerIssuer := (placing.journal.state.stored.lookup fingerprint).bind (·.cleanIssuer)
  let target := placing.journal.state.targetOf key
  let (journal, row) := relist placing.journal formerIssuer target key
  let journal :=
    if arrival = .promoted then journal.announce (.moved target.parent row) else journal
  let limit := journal.state.parents.length + 1
  { placing with
    journal
    touched := touch journal.state limit target.parent placing.touched }

/-- Places the queued keys in turn, `steps` at most. -/
def drain [HasWalks] : (steps : Nat) → Placing → Placing
  | 0, placing => placing
  | steps + 1, placing =>
    match placing.queue with
    | [] => placing
    | (key, arrival) :: rest => drain steps (place { placing with queue := rest } key arrival)

/-- Places a delivered key and every key that moves because of it. A key that was waiting moves
once, so the number of waiting keys bounds the queue. -/
def deliver [HasWalks] (placing : Placing) (key : Key) : Placing :=
  let waiting := Table.total placing.journal.state.waiting
  drain (waiting + 1) { placing with queue := [(key, .delivered)] }

end KeyForest.Forest
