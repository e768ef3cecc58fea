import KeyForest.Key
import KeyForest.Text.Quoted

/-!
# Rows and changes

A row of a key list is named by its parent and its place under it. A `Change` tells observers what
happens to rows: an announcement comes before the deed, everything else after it.
-/
namespace KeyForest

/-- Whether two optional fingerprints are equal, letter case aside. -/
def sameParent : Option Fingerprint → Option Fingerprint → Bool
  | none, none => true
  | some a, some b => a == b
  | _, _ => false

/-- The place of a row: the key it is listed under, or none at the top level, and its number. -/
structure RowIndex where
  parent : Option Fingerprint
  row : Nat
deriving DecidableEq

namespace RowIndex

/-- A row at the top level. -/
def top (row : Nat) : RowIndex := ⟨none, row⟩

/-- Whether two indexes name the same row, in whatever spelling. -/
def same (a b : RowIndex) : Bool := sameParent a.parent b.parent && a.row == b.row

end RowIndex

/-- What happens to a key list. Ranges of rows are inclusive. -/
inductive Change where
  | aboutToInsert (parent : Option Fingerprint) (first last : Nat)
  | inserted (parent : Option Fingerprint) (first last : Nat)
  | aboutToRemove (parent : Option Fingerprint) (first last : Nat)
  | removed (parent : Option Fingerprint) (first last : Nat)
  /-- The key at the row was replaced, or what follows from it has changed. -/
  | dataChanged (parent : Option Fingerprint) (row : Nat)
  /-- The row leaves its place to be listed under an issuer that has arrived. -/
  | aboutToMove (parent : Option Fingerprint) (row : Nat)
  /-- The row announced to move is listed here now. -/
  | moved (parent : Option Fingerprint) (row : Nat)
  | aboutToReset
  | reset
deriving DecidableEq

/-- A fingerprint as a structured log writes it. -/
def Fingerprint.described (fingerprint : Fingerprint) : String :=
  s!"Fingerprint({Text.quoted fingerprint.text})"

/-- A parent as a structured log writes it. -/
def describeParent : Option Fingerprint → String
  | none => "None"
  | some fingerprint => s!"Some({fingerprint.described})"

namespace Change

def describeRange (name : String) (parent : Option Fingerprint) (first last : Nat) : String :=
  name ++ " \x7b parent: " ++ describeParent parent ++ s!", first: {first}, last: {last} " ++ "\x7d"

def describeRow (name : String) (parent : Option Fingerprint) (row : Nat) : String :=
  name ++ " \x7b parent: " ++ describeParent parent ++ s!", row: {row} " ++ "\x7d"

/-- The change as a structured log writes it. -/
def described : Change → String
  | aboutToInsert parent first last => describeRange "RowsAboutToBeInserted" parent first last
  | inserted parent first last => describeRange "RowsInserted" parent first last
  | aboutToRemove parent first last => describeRange "RowsAboutToBeRemoved" parent first last
  | removed parent first last => describeRange "RowsRemoved" parent first last
  | dataChanged parent row => describeRow "DataChanged" parent row
  | aboutToMove parent row => describeRow "RowAboutToBeMoved" parent row
  | moved parent row => describeRow "RowMoved" parent row
  | aboutToReset => "ModelAboutToBeReset"
  | reset => "ModelReset"

def isDataChanged : Change → Bool
  | dataChanged .. => true
  | _ => false

end Change

end KeyForest
