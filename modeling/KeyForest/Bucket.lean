import KeyForest.Key

/-!
# Sorted lists of keys

A bucket is a list of keys whose fingerprints ascend strictly (`IsSorted`). It is searched by
halving; `Slot` is the answer of a search, and of every operation that puts a key into a bucket.
The operations are defined on every list of keys, sorted or not.
-/
namespace KeyForest

abbrev Bucket := List Key

/-- A place in a bucket: the row of a fingerprint that is there, or the row where it would go. -/
inductive Slot where
  | taken (row : Nat)
  | free (row : Nat)
deriving DecidableEq, Repr

namespace Slot

def row : Slot → Nat
  | taken row => row
  | free row => row

def isTaken : Slot → Bool
  | taken _ => true
  | free _ => false

/-- The row of a fingerprint that is there. -/
def taken? : Slot → Option Nat
  | taken row => some row
  | free _ => none

end Slot

namespace Bucket

/-- The fingerprints ascend strictly. -/
def IsSorted (keys : Bucket) : Prop :=
  keys.Pairwise fun a b => compare a.fingerprint b.fingerprint = .lt

/-- Whether each fingerprint is below the next. -/
def isSorted : Bucket → Bool
  | a :: b :: rest => compare a.fingerprint b.fingerprint == .lt && isSorted (b :: rest)
  | _ => true

/-- Halves the window of `size` rows from `base` on until one row is left. The window moves up to
its middle row unless the fingerprint there lies above the one that is looked for. -/
def narrow (keys : Bucket) (fingerprint : Fingerprint) (base size : Nat) : Nat :=
  if 1 < size then
    let middle := base + size / 2
    let above := keys[middle]?.any fun key => compare key.fingerprint fingerprint == .gt
    narrow keys fingerprint (if above then base else middle) (size - size / 2)
  else base
termination_by size

/-- Where the fingerprint is, or where it would go. -/
def search (keys : Bucket) (fingerprint : Fingerprint) : Slot :=
  let base := narrow keys fingerprint 0 keys.length
  match keys[base]? with
  | none => .free base
  | some key =>
    match compare key.fingerprint fingerprint with
    | .eq => .taken base
    | .lt => .free (base + 1)
    | .gt => .free base

/-- The row of the fingerprint. -/
def rowOf? (keys : Bucket) (fingerprint : Fingerprint) : Option Nat :=
  (search keys fingerprint).taken?

def has (keys : Bucket) (fingerprint : Fingerprint) : Bool := (search keys fingerprint).isTaken

/-- The key with the fingerprint. -/
def lookup (keys : Bucket) (fingerprint : Fingerprint) : Option Key :=
  (rowOf? keys fingerprint).bind (keys[·]?)

/-- Puts a key at a slot: over the key that is there, or in between. -/
def putAt (keys : Bucket) (key : Key) : Slot → Bucket
  | .taken row => keys.set row key
  | .free row => keys.insertIdx row key

/-- Puts a key in, in place of the key with its fingerprint if there is one. -/
def put (keys : Bucket) (key : Key) : Bucket := putAt keys key (search keys key.fingerprint)

/-- Takes out the key with the fingerprint. -/
def erase (keys : Bucket) (fingerprint : Fingerprint) : Bucket :=
  match rowOf? keys fingerprint with
  | some row => keys.eraseIdx row
  | none => keys

/-- Puts a key in and answers at which slot. -/
def upsert (keys : Bucket) (key : Key) : Bucket × Slot :=
  let slot := search keys key.fingerprint
  (putAt keys key slot, slot)

/-- Takes out the key with the fingerprint and answers it with the row at which it was. -/
def remove (keys : Bucket) (fingerprint : Fingerprint) : Bucket × Option (Nat × Key) :=
  match rowOf? keys fingerprint with
  | some row => (keys.eraseIdx row, keys[row]?.map fun key => (row, key))
  | none => (keys, none)

@[simp] theorem fst_upsert (keys : Bucket) (key : Key) : (upsert keys key).1 = put keys key := rfl

@[simp] theorem fst_remove (keys : Bucket) (fingerprint : Fingerprint) :
    (remove keys fingerprint).1 = erase keys fingerprint := by
  unfold remove erase
  cases rowOf? keys fingerprint <;> rfl

/-! ### Batches -/

/-- Keeps, of keys with equal fingerprints that stand next to each other, the last. -/
def lastOfRuns : List Key → List Key
  | a :: b :: rest =>
    if a.fingerprint == b.fingerprint then lastOfRuns (b :: rest) else a :: lastOfRuns (b :: rest)
  | keys => keys

/-- The keys of a batch as a bucket: null keys are dropped, and of keys with equal fingerprints the
last one counts. -/
def ofBatch (keys : List Key) : Bucket :=
  lastOfRuns <| (keys.filter fun key => !key.isNull).mergeSort
    fun a b => compare a.fingerprint b.fingerprint != .gt

end Bucket

end KeyForest
