import KeyForest.Journal
import KeyForest.Table

/-!
# Checking a key list at every change

A `Checker` follows the changes of a key list and looks at the key list each time. `treeFault`
checks what is seen as it stands: the rows are exactly the stored keys, each once and ascending under
its parent, and indexes, rows and parents agree. `Checker.notify` also checks that rows come and go
as announced: it keeps the number of rows at the last announcement under each parent until the deed.
-/
namespace KeyForest

/-- What is wrong with a key list as it is seen, or with a change. -/
inductive Fault where
  | notStored (fingerprint : Fingerprint)
  | wrongIndex (fingerprint : Fingerprint)
  | wrongParent (index : RowIndex)
  | unsorted (parent : Option Fingerprint)
  | listedTwice (fingerprint : Fingerprint)
  /-- The number of listed rows is not the number of stored keys. -/
  | storedCount
  | insertedUnannounced (parent : Option Fingerprint)
  | removedUnannounced (parent : Option Fingerprint)
  /-- The number of rows did not change as announced. -/
  | rowCount
  | missingRow (row : Nat) (parent : Option Fingerprint)
deriving DecidableEq

/-- The message of a fault; a mere difference of two counts or places has none of its own. -/
def Fault.message? : Fault → Option String
  | notStored fingerprint => some s!"{fingerprint.text} is listed but not stored"
  | wrongIndex _ => none
  | wrongParent _ => none
  | unsorted parent => some s!"rows under {describeParent parent} are not sorted"
  | listedTwice fingerprint => some s!"{fingerprint.text} is listed twice"
  | storedCount => none
  | insertedUnannounced parent =>
    some s!"RowsInserted under {describeParent parent} without announcement"
  | removedUnannounced parent =>
    some s!"RowsRemoved under {describeParent parent} without announcement"
  | rowCount => none
  | missingRow row parent =>
    some s!"DataChanged for missing row {row} under {describeParent parent}"

namespace Consistency

variable {σ : Type} [Listing σ]

def sameIndex : Option RowIndex → Option RowIndex → Bool
  | none, none => true
  | some a, some b => a.same b
  | _, _ => false

/-- The fault of one row, given the row before it under the same parent. -/
def rowFault (state : σ) (index : RowIndex) (parentIndex : Option RowIndex) (previous : Option Key)
    (key : Key) : Option Fault :=
  if (Listing.keyWith state key.fingerprint).isNone then some (.notStored key.fingerprint)
  else if !sameIndex (Listing.indexOf state key) (some index) then
    some (.wrongIndex key.fingerprint)
  else if !sameIndex (Listing.parentOf state index) parentIndex then some (.wrongParent index)
  else if previous.any fun p => compare p.fingerprint key.fingerprint != .lt then
    some (.unsorted index.parent)
  else none

/-- The first fault of the rows under a parent, from number `row` on. -/
def rowsFault (state : σ) (parent : Option Fingerprint) (parentIndex : Option RowIndex) :
    Nat → Option Key → List Key → Option Fault
  | _, _, [] => none
  | row, previous, key :: rest =>
    rowFault state ⟨parent, row⟩ parentIndex previous key <|>
      rowsFault state parent parentIndex (row + 1) (some key) rest

/-- The first fingerprint that comes a second time. -/
def firstRepeated : List Fingerprint → Option Fingerprint
  | [] => none
  | fingerprint :: rest =>
    if rest.any (· == fingerprint) then some fingerprint else firstRepeated rest

/-- The fault of what is seen of a key list as it stands. -/
def treeFault (state : σ) : Option Fault :=
  let listed := (Listing.preorder state).map fun row => row.2.fingerprint
  let parents := none :: listed.map some
  let indexOfParent (parent : Option Fingerprint) : Option RowIndex :=
    (parent.bind (Listing.keyWith state)).bind (Listing.indexOf state)
  (parents.findSome? fun parent =>
    rowsFault state parent (indexOfParent parent) 0 none (Listing.rows state parent)) <|>
  (firstRepeated listed).map .listedTwice <|>
  (if listed.length = Listing.size state then none else some .storedCount)

end Consistency

/-- A follower of changes: the number of rows announced under parents and not yet settled. -/
structure Checker where
  topRows : Option Nat := none
  rowsUnder : Table Nat := []

namespace Checker

/-- The number of rows at the open announcement under a parent. -/
def pending? (checker : Checker) : Option Fingerprint → Option Nat
  | none => checker.topRows
  | some parent => checker.rowsUnder.get? parent

/-- Opens an announcement under a parent. -/
def expect (checker : Checker) (parent : Option Fingerprint) (count : Nat) : Checker :=
  match parent with
  | none => { checker with topRows := some count }
  | some parent => { checker with rowsUnder := checker.rowsUnder.put parent count }

/-- Closes the announcement under a parent. -/
def settle (checker : Checker) (parent : Option Fingerprint) : Checker :=
  match parent with
  | none => { checker with topRows := none }
  | some parent => { checker with rowsUnder := checker.rowsUnder.erase parent }

/-- The fault, if any, that a change shows, and the follower after it. -/
def follow {σ : Type} [Listing σ] (checker : Checker) (change : Change) (state : σ) :
    Checker × Option Fault :=
  match change with
  | .aboutToInsert parent _ _ | .aboutToRemove parent _ _ =>
    (checker.expect parent (Listing.rowCount state parent), none)
  | .inserted parent first last =>
    (checker.settle parent,
      match checker.pending? parent with
      | none => some (.insertedUnannounced parent)
      | some before =>
        if first ≤ last ∧ Listing.rowCount state parent = before + (last - first + 1) then none
        else some .rowCount)
  | .removed parent first last =>
    (checker.settle parent,
      match checker.pending? parent with
      | none => some (.removedUnannounced parent)
      | some before =>
        if first ≤ last ∧ Listing.rowCount state parent + (last - first + 1) = before then none
        else some .rowCount)
  | .dataChanged parent row =>
    (checker, if row < Listing.rowCount state parent then none else some (.missingRow row parent))
  | .reset => ({}, none)
  | .aboutToMove .. | .moved .. | .aboutToReset => (checker, none)

/-- Checks the key list as it is seen at a change, and then the change itself. -/
def notify {σ : Type} [Listing σ] (checker : Checker) (change : Change) (state : σ) :
    Checker × Option Fault :=
  match Consistency.treeFault state with
  | some fault => (checker, some fault)
  | none => checker.follow change state

/-- The first fault in a run of changes. -/
def firstFault {σ : Type} [Listing σ] (checker : Checker) : List (Change × σ) → Option Fault
  | [] => none
  | (change, state) :: rest =>
    match checker.notify change state with
    | (_, some fault) => some fault
    | (checker, none) => firstFault checker rest

end Checker

end KeyForest
