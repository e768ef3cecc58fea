import KeyForest.Journal
import KeyForest.Table

/-!
# Forests of issuers

A forest lists keys under their issuers. A key whose issuer is not there is listed at the top level
and waits for it. `parents` says for every listed key where it is listed; rows are found through it
and never stored. `stored` holds exactly the keys that are listed: while a row is taken out of its
place to be listed elsewhere, the rows below it are not stored either, and `inTransit` names it.

The walks along parents and children are bounded by the number of placements. Forests are changed by
functions that are written for whatever walks there are (`HasWalks`).
-/
namespace KeyForest

structure Forest where
  /-- The keys that are listed, at whatever depth. -/
  stored : Bucket := []
  topLevel : Bucket := []
  /-- The keys listed under each parent that has any. -/
  children : Table Bucket := []
  /-- The keys waiting for each issuer that is not there. -/
  waiting : Table Bucket := []
  /-- For every placed key the one it is listed under, or none at the top level. -/
  parents : Table (Option Fingerprint) := []
  /-- The keys taken out of their place and not yet listed again. -/
  inTransit : Table Unit := []
deriving DecidableEq

/-- Where a key sits in a forest. -/
inductive Membership where
  | unseen
  | topLevel
  /-- Listed under its issuer. -/
  | childOf (parent : Fingerprint)
  /-- Listed at the top level until its issuer arrives. -/
  | waitingFor (issuer : Fingerprint)
deriving DecidableEq

namespace Forest

/-- The keys listed under a key. -/
def childrenOf (forest : Forest) (fingerprint : Fingerprint) : Bucket :=
  (forest.children.get? fingerprint).getD []

/-- The keys waiting for an issuer. -/
def waitingFor (forest : Forest) (issuer : Fingerprint) : Bucket :=
  (forest.waiting.get? issuer).getD []

/-- The keys listed under a parent, or at the top level. -/
def rows (forest : Forest) : Option Fingerprint → Bucket
  | none => forest.topLevel
  | some parent => forest.childrenOf parent

/-- Lists other keys under a parent; a parent without keys has no entry. -/
def setRows (forest : Forest) (parent : Option Fingerprint) (keys : Bucket) : Forest :=
  match parent with
  | none => { forest with topLevel := keys }
  | some fingerprint =>
    if keys.isEmpty then { forest with children := forest.children.erase fingerprint }
    else { forest with children := forest.children.put fingerprint keys }

def isPlaced (forest : Forest) (fingerprint : Fingerprint) : Bool := forest.parents.has fingerprint

/-- Where the key is listed. -/
def placeOf (forest : Forest) (fingerprint : Fingerprint) : Option RowIndex := do
  let parent ← forest.parents.get? fingerprint
  let row ← (forest.rows parent).rowOf? fingerprint
  return ⟨parent, row⟩

/-- The row that a row is listed under. -/
def parentOf (forest : Forest) (index : RowIndex) : Option RowIndex := do
  let key ← (forest.rows index.parent)[index.row]?
  let parent ← (← forest.parents.get? key.fingerprint)
  forest.placeOf parent

instance : Listing Forest where
  rows := rows
  stored := stored
  placeOf := placeOf
  parentOf := parentOf

/-- Where the key with the fingerprint sits. -/
def membership (forest : Forest) (fingerprint : Fingerprint) : Membership :=
  match forest.parents.get? fingerprint with
  | none => .unseen
  | some (some parent) => .childOf parent
  | some none =>
    match (forest.stored.lookup fingerprint).bind (·.cleanIssuer) with
    | some issuer =>
      if (forest.waitingFor issuer).has fingerprint then .waitingFor issuer else .topLevel
    | none => .topLevel

/-! ### Walks -/

/-- Whether the way up from `fingerprint` ends at the top level within `steps` keys. -/
def reachesTop (forest : Forest) : (steps : Nat) → Fingerprint → Bool
  | 0, _ => false
  | steps + 1, fingerprint =>
    match forest.parents.get? fingerprint with
    | none => false
    | some none => true
    | some (some parent) => reachesTop forest steps parent

/-- Whether the key can be reached from the top level right now. -/
def isAttached (forest : Forest) (fingerprint : Fingerprint) : Bool :=
  forest.reachesTop (forest.parents.length + 1) fingerprint

/-- Whether the way up from `fingerprint` meets `root`, or is longer than `steps` keys. -/
def meets (forest : Forest) (root : Fingerprint) : (steps : Nat) → Fingerprint → Bool
  | 0, _ => true
  | steps + 1, fingerprint =>
    if fingerprint == root then true
    else
      match forest.parents.get? fingerprint with
      | some (some parent) => meets forest root steps parent
      | _ => false

/-- Whether `fingerprint` is `root` or listed somewhere below it. -/
def isWithin (forest : Forest) (fingerprint root : Fingerprint) : Bool :=
  forest.meets root (forest.parents.length + 1) fingerprint

/-- The keys listed below a key, at most `levels` deep: first those listed right under it, and then
what is listed below each of them, from the last to the first. -/
def below (forest : Forest) : (levels : Nat) → Fingerprint → List Key
  | 0, _ => []
  | levels + 1, fingerprint =>
    forest.childrenOf fingerprint ++ (forest.childrenOf fingerprint).reverse.flatMap fun key =>
      below forest levels key.fingerprint

/-- The keys listed below a key, at any depth. -/
def subtree (forest : Forest) (fingerprint : Fingerprint) : List Key :=
  forest.below forest.parents.length fingerprint

/-- Whatever answers the questions that are asked about a forest while it changes. -/
structure Walks where
  isAttached : Forest → Fingerprint → Bool
  isWithin : Forest → Fingerprint → Fingerprint → Bool
  subtree : Forest → Fingerprint → List Key

/-- That there are walks by which forests are changed. -/
class HasWalks where
  walks : Walks

/-- Unless said otherwise they are the walks whose steps are bounded. -/
instance boundedWalks : HasWalks := ⟨⟨isAttached, isWithin, subtree⟩⟩

@[simp] theorem isAttached_walks (forest : Forest) (fingerprint : Fingerprint) :
    HasWalks.walks.isAttached forest fingerprint = forest.isAttached fingerprint := rfl

@[simp] theorem isWithin_walks (forest : Forest) (fingerprint root : Fingerprint) :
    HasWalks.walks.isWithin forest fingerprint root = forest.isWithin fingerprint root := rfl

@[simp] theorem subtree_walks (forest : Forest) (fingerprint : Fingerprint) :
    HasWalks.walks.subtree forest fingerprint = forest.subtree fingerprint := rfl

end Forest

end KeyForest
