import KeyForest.Listing
import KeyForest.LogEvent

/-!
# Journals

A journal is a key list together with what has been reported about it so far. Every change is
recorded with the key list as its observers see it at that moment: `announce` records, `update`
changes the key list without a word, and `check` records an assumption that turns out not to hold.
-/
namespace KeyForest

/-- What the program takes for granted at some of its steps. -/
inductive Assumption where
  /-- A batch that is merged is a sorted list. -/
  | sortedBatch
  /-- The keys of a flat list are a sorted list. -/
  | sortedKeys
  /-- Putting issuers first leaves no key out. -/
  | completeOrder
  /-- A key that waits for its issuer is listed at the top level. -/
  | waitingAtTop
  /-- A forest has no defect. -/
  | soundForest
deriving DecidableEq

/-- What has been reported: a change with the key list at that moment, an event for the log, or an
assumption that did not hold. -/
inductive Entry (σ : Type) where
  | notice (change : Change) (seen : σ)
  | log (event : LogEvent)
  | broken (assumption : Assumption)

structure Journal (σ : Type) where
  state : σ
  /-- The entries, last first. -/
  history : List (Entry σ)

namespace Journal

variable {σ : Type}

/-- A journal without entries. -/
def ofState (state : σ) : Journal σ := ⟨state, []⟩

/-- Tells the observers of a change. -/
def announce (journal : Journal σ) (change : Change) : Journal σ :=
  { journal with history := .notice change journal.state :: journal.history }

def log (journal : Journal σ) (event : LogEvent) : Journal σ :=
  { journal with history := .log event :: journal.history }

def update (journal : Journal σ) (f : σ → σ) : Journal σ :=
  { journal with state := f journal.state }

/-- Records the assumption unless it holds. -/
def check (journal : Journal σ) (assumption : Assumption) (holds : Bool) : Journal σ :=
  if holds then journal else { journal with history := .broken assumption :: journal.history }

@[simp] theorem state_announce (journal : Journal σ) (change : Change) :
    (journal.announce change).state = journal.state := rfl

@[simp] theorem state_log (journal : Journal σ) (event : LogEvent) :
    (journal.log event).state = journal.state := rfl

@[simp] theorem state_check (journal : Journal σ) (assumption : Assumption) (holds : Bool) :
    (journal.check assumption holds).state = journal.state := by
  unfold check; split <;> rfl

@[simp] theorem state_update (journal : Journal σ) (f : σ → σ) :
    (journal.update f).state = f journal.state := rfl

@[simp] theorem history_update (journal : Journal σ) (f : σ → σ) :
    (journal.update f).history = journal.history := rfl

/-- The entries in the order in which they were made. -/
def entries (journal : Journal σ) : List (Entry σ) := journal.history.reverse

/-- The changes, each with the key list at its moment, in their order. -/
def notices (journal : Journal σ) : List (Change × σ) :=
  journal.entries.filterMap fun entry =>
    match entry with
    | .notice change seen => some (change, seen)
    | _ => none

def changes (journal : Journal σ) : List Change := journal.notices.map (·.1)

/-- The assumptions that did not hold, in the order in which they were met. -/
def broken (journal : Journal σ) : List Assumption :=
  journal.entries.filterMap fun entry =>
    match entry with
    | .broken assumption => some assumption
    | _ => none

/-- The events for the log, leaving the changes out. -/
def quietLog (journal : Journal σ) : List LogEvent :=
  journal.entries.filterMap fun entry =>
    match entry with
    | .log event => some event
    | _ => none

/-- The events for the log, each change among them under the label. -/
def fullLog [Listing σ] (label : String) (journal : Journal σ) : List LogEvent :=
  journal.entries.filterMap fun entry =>
    match entry with
    | .notice change seen =>
      some (.listChanged label change (Listing.size seen) (Listing.rowCount seen none))
    | .log event => some event
    | .broken _ => none

/-- Merges keys in whatever order and number, by way of `merge`, which takes a bucket. Nothing is
done when no key is left of them. -/
def addBy (merge : Journal σ → Bucket → Journal σ × List RowIndex) (journal : Journal σ)
    (keys : List Key) : Journal σ × List RowIndex :=
  let batch := Bucket.ofBatch keys
  if batch.isEmpty then (journal, []) else merge (journal.log (.addingKeys batch.length)) batch

end Journal

/-- A key list that can be changed. All operations record what they do. -/
class KeyList (σ : Type) extends Listing σ where
  /-- The key list without keys. -/
  empty : σ
  /-- Merges a bucket and answers where its keys are listed then. -/
  merge : Journal σ → Bucket → Journal σ × List RowIndex
  /-- Removes the key with the fingerprint, if there is one. -/
  remove : Journal σ → Fingerprint → Journal σ
  /-- Drops all keys, telling of a single reset. -/
  clear : Journal σ → Journal σ

namespace KeyList

variable {σ : Type} [KeyList σ]

/-- Merges keys; keys that are stored already are updated in place, and of keys with equal
fingerprints the last counts. -/
def add (journal : Journal σ) (keys : List Key) : Journal σ × List RowIndex :=
  journal.addBy merge keys

/-- Merges one key. -/
def addOne (journal : Journal σ) (key : Key) : Journal σ × Option RowIndex :=
  let (journal, indexes) := add journal [key]
  (journal, indexes.head?)

/-- Puts keys in place of all that is there. -/
def set (journal : Journal σ) (keys : List Key) : Journal σ := (add (clear journal) keys).1

/-- The key list without keys, and nothing reported. -/
def fresh : Journal σ := .ofState empty

end KeyList

/-- What can be done to a key list. -/
inductive Operation where
  | add (keys : List Key)
  | addOne (key : Key)
  | set (keys : List Key)
  | remove (fingerprint : Fingerprint)
  | clear

/-- The journal after an operation. -/
def Operation.apply {σ : Type} [KeyList σ] (journal : Journal σ) : Operation → Journal σ
  | add keys => (KeyList.add journal keys).1
  | addOne key => (KeyList.addOne journal key).1
  | set keys => KeyList.set journal keys
  | remove fingerprint => KeyList.remove journal fingerprint
  | clear => KeyList.clear journal

/-- The journal after a run of operations on an empty key list. -/
def Operation.run {σ : Type} [KeyList σ] (operations : List Operation) : Journal σ :=
  operations.foldl Operation.apply KeyList.fresh

end KeyForest
