import KeyForest.FlatList
import KeyForest.Proofs.Batch
import KeyForest.Proofs.Journal
import KeyForest.Proofs.Table

/-!
# Other spellings

A `Respelling` spells every fingerprint in some other way and leaves everything else as it is. What
is done to buckets, tables and journals does not depend on spellings: done to things that are
respelled, it answers what it answers otherwise, respelled. A key list of which this is true is
`Indifferent`, and a run on it is respelled by respelling its operations (`Indifferent.run`).
-/
namespace KeyForest

/-- The indexes that an operation answers with. -/
def Operation.answer {σ : Type} [KeyList σ] (journal : Journal σ) : Operation → List RowIndex
  | add keys => (KeyList.add journal keys).2
  | addOne key => (KeyList.addOne journal key).2.toList
  | set _ | remove _ | clear => []

/-- A choice of another spelling for each fingerprint. -/
structure Respelling where
  spell : Fingerprint → Fingerprint
  ident_spell : ∀ f, (spell f).ident = f.ident

namespace Respelling

attribute [simp] ident_spell

variable (r : Respelling)

@[simp] theorem compare_spell (a b : Fingerprint) :
    compare (r.spell a) (r.spell b) = compare a b := by
  have hident (f : Fingerprint) : (r.spell f).hashBytes = f.hashBytes := r.ident_spell f
  rw [Fingerprint.compare_def, hident, hident]
  rfl

@[simp] theorem beq_spell (a b : Fingerprint) : (r.spell a == r.spell b) = (a == b) := by
  rw [Fingerprint.beq_eq_decide, Fingerprint.beq_eq_decide, ident_spell, ident_spell]

@[simp] theorem isEmpty_spell (f : Fingerprint) : (r.spell f).isEmpty = f.isEmpty := by
  rw [Bool.eq_iff_iff, Fingerprint.isEmpty_iff, Fingerprint.isEmpty_iff, ident_spell]

/-- A respelled parent. -/
def parent (parent : Option Fingerprint) : Option Fingerprint := parent.map r.spell

@[simp] theorem parent_none : r.parent none = none := rfl

@[simp] theorem parent_some (f : Fingerprint) : r.parent (some f) = some (r.spell f) := rfl

@[simp] theorem isNone_parent (parent : Option Fingerprint) :
    (r.parent parent).isNone = parent.isNone := by
  cases parent <;> rfl

@[simp] theorem sameParent_parent (a b : Option Fingerprint) :
    sameParent (r.parent a) (r.parent b) = sameParent a b := by
  cases a <;> cases b <;> simp [sameParent]

/-! ### Keys -/

def key (key : Key) : Key :=
  { key with fingerprint := r.spell key.fingerprint, chainId := key.chainId.map r.spell }

@[simp] theorem fingerprint_key (key : Key) : (r.key key).fingerprint = r.spell key.fingerprint :=
  rfl

@[simp] theorem isNull_key (key : Key) : (r.key key).isNull = key.isNull :=
  r.isEmpty_spell key.fingerprint

@[simp] theorem cleanIssuer_key (key : Key) :
    (r.key key).cleanIssuer = r.parent key.cleanIssuer := by
  have hclean :
      (fun issuer => !issuer.isEmpty && !(issuer == r.spell key.fingerprint)) ∘ r.spell =
      fun issuer => !issuer.isEmpty && !(issuer == key.fingerprint) := by
    funext issuer
    rw [Function.comp_apply, isEmpty_spell, beq_spell]
  simp only [Key.cleanIssuer, Respelling.key, parent, Option.filter_map, hclean]
  split <;> rfl

/-- A fold does not depend on spellings if no step of it does. -/
theorem foldl_map_hom {α β σ τ : Type} {act : σ → τ} {spell : α → β} {f : σ → α → σ}
    {f' : τ → β → τ} (hstep : ∀ state x, f' (act state) (spell x) = act (f state x)) (state : σ)
    (xs : List α) : (xs.map spell).foldl f' (act state) = act (xs.foldl f state) := by
  rw [List.foldl_map]
  exact List.foldl_hom act hstep

/-! ### Buckets -/

section Buckets

open Bucket

variable (keys : Bucket) (f : Fingerprint) (key : Key)

@[simp] theorem narrow_map (base size : ℕ) :
    narrow (keys.map r.key) (r.spell f) base size = narrow keys f base size := by
  fun_induction narrow keys f base size with
  | case1 base size hsize middle above ih =>
    rw [narrow, if_pos hsize]
    simp only [List.getElem?_map, Option.any_map, fingerprint_key, compare_spell]
    exact ih
  | case2 base size hsize => rw [narrow, if_neg hsize]

@[simp] theorem search_map : search (keys.map r.key) (r.spell f) = search keys f := by
  simp only [search, narrow_map, List.length_map, List.getElem?_map]
  cases keys[narrow keys f 0 keys.length]? with
  | none => rfl
  | some key => simp only [Option.map_some, fingerprint_key, compare_spell]

@[simp] theorem rowOf?_map : rowOf? (keys.map r.key) (r.spell f) = rowOf? keys f := by
  rw [rowOf?, search_map, rowOf?]

@[simp] theorem has_map : has (keys.map r.key) (r.spell f) = has keys f := by
  rw [has, search_map, has]

@[simp] theorem lookup_map : lookup (keys.map r.key) (r.spell f) = (lookup keys f).map r.key := by
  rw [lookup, rowOf?_map, lookup]
  cases rowOf? keys f with
  | none => rfl
  | some row => exact List.getElem?_map

@[simp] theorem putAt_map (slot : Slot) :
    putAt (keys.map r.key) (r.key key) slot = (putAt keys key slot).map r.key := by
  cases slot with
  | taken row => exact List.map_set.symm
  | free row => exact (List.map_insertIdx r.key keys row key).symm

@[simp] theorem put_map : put (keys.map r.key) (r.key key) = (put keys key).map r.key := by
  rw [put, fingerprint_key, search_map, putAt_map, put]

@[simp] theorem erase_map : erase (keys.map r.key) (r.spell f) = (erase keys f).map r.key := by
  unfold erase
  rw [rowOf?_map]
  cases rowOf? keys f with
  | none => rfl
  | some row => exact List.eraseIdx_map r.key keys row

@[simp] theorem foldl_erase_map (gone : List Key) :
    (gone.map r.key).foldl (fun (keys : Bucket) key => keys.erase key.fingerprint)
        (keys.map r.key) =
      (gone.foldl (fun (keys : Bucket) key => keys.erase key.fingerprint) keys).map r.key :=
  foldl_map_hom (fun keys key => r.erase_map keys key.fingerprint) keys gone

@[simp] theorem foldl_put_map (new : List Key) :
    (new.map r.key).foldl put (keys.map r.key) = (new.foldl put keys).map r.key :=
  foldl_map_hom r.put_map keys new

@[simp] theorem isSorted_map : isSorted (keys.map r.key) = isSorted keys := by
  fun_induction isSorted keys with
  | case1 a b rest ih =>
    rw [List.map_cons, List.map_cons, isSorted, fingerprint_key, fingerprint_key, compare_spell,
      ← List.map_cons, ih]
  | case2 keys hshort =>
    rcases eq_nil_or_singleton hshort with rfl | ⟨key, rfl⟩ <;> rfl

theorem lastOfRuns_map : lastOfRuns (keys.map r.key) = (lastOfRuns keys).map r.key := by
  fun_induction lastOfRuns keys with
  | case1 a b rest hab ih =>
    rw [List.map_cons, List.map_cons, lastOfRuns, fingerprint_key, fingerprint_key, beq_spell,
      if_pos hab, ← List.map_cons, ih]
  | case2 a b rest hab ih =>
    rw [List.map_cons, List.map_cons, lastOfRuns, fingerprint_key, fingerprint_key, beq_spell,
      if_neg hab, ← List.map_cons, ih, List.map_cons]
  | case3 keys hshort =>
    rcases eq_nil_or_singleton hshort with rfl | ⟨key, rfl⟩ <;> rfl

@[simp] theorem ofBatch_map : ofBatch (keys.map r.key) = (ofBatch keys).map r.key := by
  have hnull : ((fun key : Key => !key.isNull) ∘ r.key) = fun key => !key.isNull := by
    funext key
    rw [Function.comp_apply, isNull_key]
  rw [ofBatch, List.filter_map, hnull, ofBatch, ← lastOfRuns_map]
  refine congrArg lastOfRuns (List.map_mergeSort fun a _ b _ => ?_).symm
  rw [fingerprint_key, fingerprint_key, compare_spell]

theorem lastRowOf?_map : lastRowOf? (keys.map r.key) (r.spell f) = lastRowOf? keys f := by
  rw [lastRowOf?, List.zipIdx_map, ← List.map_reverse, List.find?_map, Option.map_map, lastRowOf?]
  simp only [Function.comp_def, Prod.map_fst, Prod.map_snd, fingerprint_key, beq_spell, id]

theorem issuerRow?_map (row : ℕ) : issuerRow? (keys.map r.key) row = issuerRow? keys row := by
  rw [issuerRow?, List.getElem?_map, issuerRow?]
  cases keys[row]? with
  | none => rfl
  | some key =>
    rw [Option.map_some, Option.bind_some, Option.bind_some, cleanIssuer_key]
    cases key.cleanIssuer with
    | none => rfl
    | some issuer => exact r.lastRowOf?_map keys issuer

theorem climb_map (seen : List ℕ) (steps : ℕ) (next : Option ℕ) (path : List ℕ) :
    climb (keys.map r.key) seen steps next path = climb keys seen steps next path := by
  induction steps generalizing next path with
  | zero => rfl
  | succ steps ih =>
    cases next with
    | none => rfl
    | some row => rw [climb, climb, issuerRow?_map, ih]

@[simp] theorem issuersFirst_map :
    issuersFirst (keys.map r.key) = (issuersFirst keys).map r.key := by
  have horder : issuerOrder (keys.map r.key) = issuerOrder keys := by
    simp only [issuerOrder, climb_map, List.length_map]
  rw [issuersFirst, horder, issuersFirst, List.map_filterMap]
  simp only [List.getElem?_map]

end Buckets

/-! ### Tables -/

section Tables

variable {α β : Type}

/-- A table with respelled fingerprints and values. -/
def table (g : α → β) (table : Table α) : Table β :=
  table.map fun entry => (r.spell entry.1, g entry.2)

variable (g : α → β) (table : Table α) (f : Fingerprint) (value : α)

@[simp] theorem length_table : (r.table g table).length = table.length := List.length_map _

@[simp] theorem get?_table : (r.table g table).get? (r.spell f) = (table.get? f).map g := by
  rw [Table.get?, Respelling.table, List.find?_map, Option.map_map, Table.get?, Option.map_map]
  simp only [Function.comp_def, beq_spell]

@[simp] theorem has_table : (r.table g table).has (r.spell f) = table.has f := by
  rw [Table.has, Respelling.table, List.any_map, Table.has]
  simp only [Function.comp_def, beq_spell]

@[simp] theorem put_table :
    (r.table g table).put (r.spell f) (g value) = r.table g (table.put f value) := by
  induction table with
  | nil => rfl
  | cons entry rest ih =>
    simp only [Respelling.table, List.map_cons, Table.put, compare_spell]
    cases compare f entry.1 with
    | lt => rfl
    | eq => rfl
    | gt => exact congrArg _ ih

@[simp] theorem erase_table : (r.table g table).erase (r.spell f) = r.table g (table.erase f) := by
  rw [Table.erase, Respelling.table, List.filter_map, Table.erase, Respelling.table]
  simp only [Function.comp_def, beq_spell]

@[simp] theorem fingerprints_table :
    (r.table g table).fingerprints = table.fingerprints.map r.spell := by
  rw [Table.fingerprints, Respelling.table, Table.fingerprints, List.map_map, List.map_map]
  rfl

@[simp] theorem total_table (table : Table Bucket) :
    Table.total (r.table (List.map r.key) table) = Table.total table := by
  induction table with
  | nil => rfl
  | cons entry rest ih =>
    have hlength : (entry.2.map r.key).length = entry.2.length := List.length_map r.key
    exact congrArg₂ (· + ·) hlength ih

end Tables

/-! ### Reports -/

section Reports

def index (index : RowIndex) : RowIndex := ⟨r.parent index.parent, index.row⟩

@[simp] theorem parent_index (index : RowIndex) :
    (r.index index).parent = r.parent index.parent := rfl

@[simp] theorem row_index (index : RowIndex) : (r.index index).row = index.row := rfl

def change : Change → Change
  | .aboutToInsert parent first last => .aboutToInsert (r.parent parent) first last
  | .inserted parent first last => .inserted (r.parent parent) first last
  | .aboutToRemove parent first last => .aboutToRemove (r.parent parent) first last
  | .removed parent first last => .removed (r.parent parent) first last
  | .dataChanged parent row => .dataChanged (r.parent parent) row
  | .aboutToMove parent row => .aboutToMove (r.parent parent) row
  | .moved parent row => .moved (r.parent parent) row
  | .aboutToReset => .aboutToReset
  | .reset => .reset

def logEvent : LogEvent → LogEvent
  | .rebuildingForest removed remaining => .rebuildingForest (r.spell removed) remaining
  | .listChanged label change keys topRows => .listChanged label (r.change change) keys topRows
  | event => event

variable {σ : Type}

def entry (g : σ → σ) : Entry σ → Entry σ
  | .notice change seen => .notice (r.change change) (g seen)
  | .log event => .log (r.logEvent event)
  | .broken assumption => .broken assumption

/-- A journal of a key list that `g` respells. -/
def journal (g : σ → σ) (journal : Journal σ) : Journal σ :=
  ⟨g journal.state, journal.history.map (r.entry g)⟩

variable (g : σ → σ) (journal : Journal σ)

@[simp] theorem state_journal : (r.journal g journal).state = g journal.state := rfl

theorem announce_journal (change : Change) :
    (r.journal g journal).announce (r.change change) = r.journal g (journal.announce change) := rfl

@[simp] theorem check_journal (assumption : Assumption) (holds : Bool) :
    (r.journal g journal).check assumption holds =
      r.journal g (journal.check assumption holds) := by
  cases holds <;> rfl

theorem update_journal (f f' : σ → σ) (h : f' (g journal.state) = g (f journal.state)) :
    (r.journal g journal).update f' = r.journal g (journal.update f) := by
  simp only [Journal.update, Respelling.journal, h]

/-- The same changes are told, respelled, and the observers see the key list respelled. -/
theorem notices_journal : (r.journal g journal).notices =
    journal.notices.map fun notice => (r.change notice.1, g notice.2) := by
  simp only [Journal.notices, Journal.entries, Respelling.journal, ← List.map_reverse,
    List.filterMap_map, List.map_filterMap]
  refine List.filterMap_congr fun entry _ => ?_
  cases entry <;> rfl

/-- Merging by way of `merge` is indifferent to spellings if `merge` is. -/
theorem addBy_journal {merge : Journal σ → Bucket → Journal σ × List RowIndex}
    (hmerge : ∀ journal batch, merge (r.journal g journal) (batch.map r.key) =
      (r.journal g (merge journal batch).1, (merge journal batch).2.map r.index))
    (keys : List Key) : (r.journal g journal).addBy merge (keys.map r.key) =
      (r.journal g (journal.addBy merge keys).1, (journal.addBy merge keys).2.map r.index) := by
  simp only [Journal.addBy, ofBatch_map, List.isEmpty_map, List.length_map]
  split
  · rfl
  · exact hmerge (journal.log (.addingKeys (Bucket.ofBatch keys).length)) (Bucket.ofBatch keys)

end Reports

/-! ### Runs -/

def operation : Operation → Operation
  | .add keys => .add (keys.map r.key)
  | .addOne key => .addOne (r.key key)
  | .set keys => .set (keys.map r.key)
  | .remove f => .remove (r.spell f)
  | .clear => .clear

section Runs

variable {σ : Type} [KeyList σ] {g : σ → σ}

/-- Whether what is done to a key list that `g` respells does not depend on spellings. -/
structure Indifferent (r : Respelling) (g : σ → σ) : Prop where
  rows : ∀ state parent,
    Listing.rows (g state) (r.parent parent) = (Listing.rows state parent).map r.key
  stored : ∀ state, Listing.stored (g state) = (Listing.stored state).map r.key
  empty : g KeyList.empty = KeyList.empty
  merge : ∀ journal batch, KeyList.merge (r.journal g journal) (batch.map r.key) =
    (r.journal g (KeyList.merge journal batch).1, (KeyList.merge journal batch).2.map r.index)
  remove : ∀ journal f,
    KeyList.remove (r.journal g journal) (r.spell f) = r.journal g (KeyList.remove journal f)
  clear : ∀ journal, KeyList.clear (r.journal g journal) = r.journal g (KeyList.clear journal)

variable {r} (h : r.Indifferent g) (journal : Journal σ)
include h

theorem Indifferent.add (keys : List Key) :
    KeyList.add (r.journal g journal) (keys.map r.key) =
      (r.journal g (KeyList.add journal keys).1, (KeyList.add journal keys).2.map r.index) :=
  r.addBy_journal g journal h.merge keys

theorem Indifferent.addOne (key : Key) :
    KeyList.addOne (r.journal g journal) (r.key key) =
      (r.journal g (KeyList.addOne journal key).1,
        (KeyList.addOne journal key).2.map r.index) := by
  have hadd := h.add journal [key]
  rw [List.map_singleton] at hadd
  simp only [KeyList.addOne, hadd, List.head?_map]

theorem Indifferent.apply (operation : Operation) :
    (r.operation operation).apply (r.journal g journal) =
      r.journal g (operation.apply journal) := by
  cases operation with
  | add keys => exact congrArg Prod.fst (h.add journal keys)
  | addOne key => exact congrArg Prod.fst (h.addOne journal key)
  | set keys =>
    simp only [Respelling.operation, Operation.apply, KeyList.set, h.clear, h.add]
  | remove f => exact h.remove journal f
  | clear => exact h.clear journal

theorem Indifferent.answer (operation : Operation) :
    (r.operation operation).answer (r.journal g journal) =
      (operation.answer journal).map r.index := by
  cases operation with
  | add keys => exact congrArg Prod.snd (h.add journal keys)
  | addOne key =>
    rw [Respelling.operation, Operation.answer, h.addOne, Operation.answer, Option.toList_map]
  | set _ | remove _ | clear => rfl

omit journal in
/-- A run of respelled operations is the run of the operations, respelled. -/
theorem Indifferent.run (operations : List Operation) :
    (Operation.run (operations.map r.operation) : Journal σ) =
      r.journal g (Operation.run operations) := by
  have hfresh : (KeyList.fresh : Journal σ) = r.journal g KeyList.fresh :=
    congrArg Journal.ofState h.empty.symm
  rw [Operation.run, hfresh]
  exact foldl_map_hom h.apply KeyList.fresh operations

end Runs

/-! ### Flat lists -/

section FlatLists

variable (journal : Journal FlatList)

def flatList (list : FlatList) : FlatList := ⟨list.keys.map r.key⟩

theorem keys_flatList (list : FlatList) : (r.flatList list).keys = list.keys.map r.key := rfl

theorem put_flatList (key : Key) : FlatList.put (r.journal r.flatList journal) (r.key key) =
    r.journal r.flatList (FlatList.put journal key) := by
  have hplace (slot : Slot) (journal : Journal FlatList) : (r.journal r.flatList journal).update
      (fun list => ⟨list.keys.putAt (r.key key) slot⟩) =
        r.journal r.flatList (journal.update fun list => ⟨list.keys.putAt key slot⟩) :=
    r.update_journal _ _ _ _ (congrArg FlatList.mk (r.putAt_map journal.state.keys key slot))
  simp only [FlatList.put, state_journal, flatList, fingerprint_key, search_map]
  cases journal.state.keys.search key.fingerprint with
  | taken row => exact congrArg (·.announce (.dataChanged none row)) (hplace (.taken row) journal)
  | free row =>
    exact congrArg (·.announce (.inserted none row row))
      (hplace (.free row) (journal.announce (.aboutToInsert none row row)))

theorem foldl_put_flatList (batch : Bucket) :
    (batch.map r.key).foldl FlatList.put (r.journal r.flatList journal) =
      r.journal r.flatList (batch.foldl FlatList.put journal) :=
  foldl_map_hom r.put_flatList journal batch

theorem placeOf_flatList (list : FlatList) (f : Fingerprint) :
    Listing.placeOf (r.flatList list) (r.spell f) = (Listing.placeOf list f).map r.index := by
  simp only [Listing.placeOf, keys_flatList, rowOf?_map, Option.map_map]
  rfl

theorem merge_flatList (batch : Bucket) :
    FlatList.merge (r.journal r.flatList journal) (batch.map r.key) =
      (r.journal r.flatList (FlatList.merge journal batch).1,
        (FlatList.merge journal batch).2.map r.index) := by
  simp only [FlatList.merge, isSorted_map, check_journal, foldl_put_flatList, state_journal,
    Journal.state_check, List.filterMap_map, List.map_filterMap, Function.comp_def,
    fingerprint_key, placeOf_flatList]
  rw [keys_flatList, isSorted_map]

theorem remove_flatList (f : Fingerprint) :
    FlatList.remove (r.journal r.flatList journal) (r.spell f) =
      r.journal r.flatList (FlatList.remove journal f) := by
  simp only [FlatList.remove, state_journal, flatList, rowOf?_map]
  cases journal.state.keys.rowOf? f with
  | none => rfl
  | some row =>
    have herase : ((r.journal r.flatList journal).announce (.aboutToRemove none row row)).update
        (fun list => ⟨list.keys.eraseIdx row⟩) =
          r.journal r.flatList ((journal.announce (.aboutToRemove none row row)).update
            fun list => ⟨list.keys.eraseIdx row⟩) :=
      r.update_journal r.flatList (journal.announce (.aboutToRemove none row row)) _ _
        (congrArg FlatList.mk (List.eraseIdx_map r.key journal.state.keys row))
    exact congrArg (·.announce (.removed none row row)) herase

theorem indifferent_flatList : r.Indifferent r.flatList where
  rows _ parent := by cases parent <;> rfl
  stored _ := rfl
  empty := rfl
  merge := r.merge_flatList
  remove := r.remove_flatList
  clear _ := rfl

end FlatLists

end Respelling

end KeyForest
