import KeyForest.Forest.Update
import KeyForest.Proofs.Forest.Walks

/-!
# Forests at every moment

`Arranged` holds of a forest also while keys are taken out of their places: these `loose` keys
have no place, what hangs below them keeps its rows, and stored is exactly what can be reached
from the top level. Taking a row out makes its key loose (`Arranged.takeOut`), and bringing a
loose key in under an attached parent ends that (`Arranged.bringIn`).
-/
namespace KeyForest.Forest

open Placements

structure Arranged (forest : Forest) (loose : Set Ident) : Prop where
  parents_sorted : forest.parents.IsSorted
  children_sorted : forest.children.IsSorted
  /-- Only parents that have rows have an entry. -/
  children_nonempty : ∀ entry ∈ forest.children, entry.2 ≠ []
  stored_sorted : Bucket.IsSorted forest.stored
  rows_sorted : ∀ parent, Bucket.IsSorted (forest.under parent)
  rowsMatch : forest.RowsMatch
  named : ∀ parent, ∀ key ∈ forest.under parent, key.ident ≠ []
  issued : ∀ x, ∀ key ∈ forest.under (some x), key.issuer = some x
  vacant : ∀ x ∈ loose, forest.placed x = none
  /-- Every way up leads to the top level or to a loose key. -/
  grounded : ∀ x, (forest.placed x).isSome →
    Attached forest.placed x ∨ ∃ r ∈ loose, Hangs forest.placed r x
  stored_iff : ∀ key, key ∈ forest.stored ↔
    ∃ parent, key ∈ forest.under parent ∧ Attached forest.placed key.ident

variable {forest other : Forest} {loose : Set Ident} {f : Fingerprint} {x r : Ident}
  {parent : Option Fingerprint} {key : Key} {row : ℕ} {index : RowIndex} {slot : Slot}

theorem arranged_empty : Arranged {} ∅ where
  parents_sorted := List.Pairwise.nil
  children_sorted := List.Pairwise.nil
  children_nonempty := by simp
  stored_sorted := List.Pairwise.nil
  rows_sorted parent := by cases parent <;> exact List.Pairwise.nil
  rowsMatch x parent := by cases parent <;> simp [placed, under]
  named parent := by cases parent <;> simp [under]
  issued x := by simp [under]
  vacant := by simp
  grounded x := by simp [placed]
  stored_iff key := by
    simp only [List.not_mem_nil, false_iff, not_exists, not_and]
    intro parent
    cases parent <;> simp [under]

namespace Arranged

/-- Waiting keys and keys on the move are no part of the arrangement. -/
theorem frame (h : forest.Arranged loose) (hstored : other.stored = forest.stored)
    (htop : other.topLevel = forest.topLevel) (hchildren : other.children = forest.children)
    (hparents : other.parents = forest.parents) : other.Arranged loose := by
  cases forest
  cases other
  subst hstored htop hchildren hparents
  exact ⟨h.1, h.2, h.3, h.4, h.5, h.6, h.7, h.8, h.9, h.10, h.11⟩

theorem acyclic (h : forest.Arranged loose) : Acyclic forest.placed := by
  intro x
  cases hx : forest.placed x with
  | none => exact ⟨0, .here fun p => by simp [hx]⟩
  | some parent =>
    rcases h.grounded x (by simp [hx]) with hattached | ⟨r, hr, hrx⟩
    · exact hattached.ends
    · obtain ⟨m, hm, -⟩ := hrx.ends (.here fun p => by simp [h.vacant r hr])
      exact ⟨m, hm⟩

theorem not_attached (h : forest.Arranged loose) (hr : r ∈ loose) (hrx : Hangs forest.placed r x) :
    ¬ Attached forest.placed x := by
  intro hx
  have := (hrx.attached_iff.mp hx).isSome
  simp [h.vacant r hr] at this

theorem placed_of_mem (h : forest.Arranged loose) {o : Option Ident} (hkey : key ∈ forest.under o) :
    forest.placed key.ident = some o := (h.rowsMatch _ _).mpr ⟨key, hkey, rfl⟩

/-- A loose key has no row. -/
theorem ident_ne_of_loose (h : forest.Arranged loose) (hr : r ∈ loose) {o : Option Ident}
    (hkey : key ∈ forest.under o) : key.ident ≠ r := by
  rintro rfl
  have hplaced := h.placed_of_mem hkey
  rw [h.vacant _ hr] at hplaced
  contradiction

/-- A key has one row. -/
theorem row_unique (h : forest.Arranged loose) {a b : Key} {o o' : Option Ident}
    (ha : a ∈ forest.under o) (hb : b ∈ forest.under o') (hab : a.ident = b.ident) :
    o = o' ∧ a = b := by
  have ho : o = o' := by
    have hplaced := h.placed_of_mem ha
    rw [hab, h.placed_of_mem hb] at hplaced
    exact (Option.some.inj hplaced).symm
  subst ho
  exact ⟨rfl, (h.rows_sorted o).eq_of_ident ha hb hab⟩

theorem attached_of_mem (h : forest.Arranged loose) (hkey : key ∈ forest.stored) :
    Attached forest.placed key.ident := by
  obtain ⟨o, -, hattached⟩ := (h.stored_iff key).mp hkey
  exact hattached

/-- Where a placed key is found. -/
theorem exists_placeOf (h : forest.Arranged loose) {o : Option Ident}
    (ho : forest.placed f.ident = some o) : ∃ index, forest.placeOf f = some index ∧
      index.parent.map Fingerprint.ident = o := by
  obtain ⟨parent, hparent, rfl⟩ := Option.map_eq_some_iff.mp ho
  obtain ⟨key, hkey, hident⟩ := (h.rowsMatch _ _).mp ho
  rw [← rows_eq] at hkey
  have hsorted := h.rows_sorted (parent.map Fingerprint.ident)
  rw [← rows_eq] at hsorted
  obtain ⟨row, hrow⟩ := Option.isSome_iff_exists.mp
    ((Bucket.isSome_rowOf? hsorted).mpr ⟨key, hkey, hident⟩)
  refine ⟨⟨parent, row⟩, ?_, rfl⟩
  rw [placeOf, Table.get?_eq, hparent]
  simp [hrow]

end Arranged

theorem placeOf_eq_some (hindex : forest.placeOf f = some index) :
    forest.parents.get? f = some index.parent ∧
      (forest.rows index.parent).rowOf? f = some index.row := by
  simp only [placeOf, Option.bind_eq_bind, Option.bind_eq_some_iff] at hindex
  obtain ⟨parent, hparent, row, hrow, heq⟩ := hindex
  cases heq
  exact ⟨hparent, hrow⟩

theorem placed_of_placeOf (hindex : forest.placeOf f = some index) :
    forest.placed f.ident = some (index.parent.map Fingerprint.ident) :=
  placed_of_get? (placeOf_eq_some hindex).1

/-- The row at which a key is found holds the key. -/
theorem Arranged.getElem?_placeOf (h : forest.Arranged loose)
    (hindex : forest.placeOf f = some index) :
    ∃ key, (forest.rows index.parent)[index.row]? = some key ∧ key.ident = f.ident := by
  have hsorted := h.rows_sorted (index.parent.map Fingerprint.ident)
  rw [← rows_eq] at hsorted
  exact (Bucket.rowOf?_eq_some hsorted).mp (placeOf_eq_some hindex).2

/-! ### What the changes of a forest do to its rows and placements -/

theorem under_setRows (forest : Forest) (parent : Option Fingerprint) (keys : Bucket)
    (o : Option Ident) : (forest.setRows parent keys).under o =
      if o = parent.map Fingerprint.ident then keys else forest.under o := by
  cases parent with
  | none => cases o <;> simp [setRows, under]
  | some f =>
    by_cases hempty : keys.isEmpty
    · simp only [setRows, hempty, if_true]
      cases o with
      | none => simp
      | some x =>
        by_cases hx : f.ident = x
        · simp [under, Table.value?_erase, hx, List.isEmpty_iff.mp hempty]
        · simp [under, Table.value?_erase, hx, Ne.symm hx]
    · simp only [setRows, hempty, if_false, Bool.false_eq_true]
      cases o with
      | none => simp
      | some x =>
        by_cases hx : f.ident = x
        · simp [under, Table.value?_put, hx]
        · simp [under, Table.value?_put, hx, Ne.symm hx]

theorem placed_store (forest : Forest) (parent : Option Fingerprint) (key : Key) :
    (forest.store parent key).placed =
      settle forest.placed key.ident (parent.map Fingerprint.ident) := by
  funext x
  by_cases hx : x = key.ident
  · subst hx
    simp [placed, store, Table.value?_put]
  · have hx' : key.ident ≠ x := Ne.symm hx
    simp [placed, store, Table.value?_put, hx, hx']

theorem children_setRows_sorted (h : forest.children.IsSorted) (parent : Option Fingerprint)
    (keys : Bucket) : (forest.setRows parent keys).children.IsSorted := by
  cases parent with
  | none => exact h
  | some f =>
    simp only [setRows]
    split
    · exact h.erase f
    · exact h.put f keys

theorem children_setRows_nonempty (h : ∀ entry ∈ forest.children, entry.2 ≠ [])
    (parent : Option Fingerprint) (keys : Bucket) :
    ∀ entry ∈ (forest.setRows parent keys).children, entry.2 ≠ [] := by
  cases parent with
  | none => exact h
  | some f =>
    simp only [setRows]
    split
    · exact fun entry hentry => h entry (Table.mem_of_mem_erase hentry)
    · rename_i hkeys
      intro entry hentry
      rcases Table.mem_put hentry with hnew | hold
      · rw [hnew]
        exact fun hempty => hkeys (List.isEmpty_iff.mpr hempty)
      · exact h entry hold

@[simp] theorem stored_setRows (forest : Forest) (parent : Option Fingerprint) (keys : Bucket) :
    (forest.setRows parent keys).stored = forest.stored := by
  cases parent with
  | none => rfl
  | some f => simp only [setRows]; split <;> rfl

@[simp] theorem parents_setRows (forest : Forest) (parent : Option Fingerprint) (keys : Bucket) :
    (forest.setRows parent keys).parents = forest.parents := by
  cases parent with
  | none => rfl
  | some f => simp only [setRows]; split <;> rfl

@[simp] theorem waiting_setRows (forest : Forest) (parent : Option Fingerprint) (keys : Bucket) :
    (forest.setRows parent keys).waiting = forest.waiting := by
  cases parent with
  | none => rfl
  | some f => simp only [setRows]; split <;> rfl

@[simp] theorem inTransit_setRows (forest : Forest) (parent : Option Fingerprint) (keys : Bucket) :
    (forest.setRows parent keys).inTransit = forest.inTransit := by
  cases parent with
  | none => rfl
  | some f => simp only [setRows]; split <;> rfl

@[simp] theorem placed_setRows (forest : Forest) (parent : Option Fingerprint) (keys : Bucket) :
    (forest.setRows parent keys).placed = forest.placed := by
  unfold placed
  rw [parents_setRows]

theorem under_putRow (forest : Forest) (parent : Option Fingerprint) (key : Key) (slot : Slot)
    (o : Option Ident) : (forest.putRow parent key slot).under o =
      if o = parent.map Fingerprint.ident then (forest.under o).putAt key slot
      else forest.under o := by
  have hunder : (forest.putRow parent key slot).under =
      (forest.setRows parent ((forest.rows parent).putAt key slot)).under := under_congr rfl rfl
  rw [hunder, under_setRows, rows_eq]
  by_cases ho : o = parent.map Fingerprint.ident <;> simp [ho]

theorem placed_putRow (forest : Forest) (parent : Option Fingerprint) (key : Key) (slot : Slot) :
    (forest.putRow parent key slot).placed =
      settle forest.placed key.ident (parent.map Fingerprint.ident) := by
  rw [putRow, placed_store, placed_setRows]

theorem parents_putRow (forest : Forest) (parent : Option Fingerprint) (key : Key) (slot : Slot) :
    (forest.putRow parent key slot).parents = forest.parents.put key.fingerprint parent := by
  rw [putRow, store, parents_setRows]

theorem stored_putRow (forest : Forest) (parent : Option Fingerprint) (key : Key) (slot : Slot) :
    (forest.putRow parent key slot).stored = forest.stored.put key := by
  rw [putRow, store, stored_setRows]

theorem under_detach (forest : Forest) (index : RowIndex) (f : Fingerprint) (o : Option Ident) :
    (forest.detach index f).under o =
      if o = index.parent.map Fingerprint.ident then (forest.under o).eraseIdx index.row
      else forest.under o := by
  have hunder : (forest.detach index f).under =
      (forest.setRows index.parent ((forest.rows index.parent).eraseIdx index.row)).under :=
    under_congr rfl rfl
  rw [hunder, under_setRows, rows_eq]
  by_cases ho : o = index.parent.map Fingerprint.ident <;> simp [ho]

theorem parents_detach (forest : Forest) (index : RowIndex) (f : Fingerprint) :
    (forest.detach index f).parents = forest.parents.erase f := by
  simp [detach]

theorem stored_detach (forest : Forest) (index : RowIndex) (f : Fingerprint) :
    (forest.detach index f).stored = forest.stored := stored_setRows _ _ _

theorem placed_detach (forest : Forest) (index : RowIndex) (f : Fingerprint) :
    (forest.detach index f).placed = vacate forest.placed f.ident := by
  funext x
  by_cases hx : x = f.ident
  · subst hx
    simp [placed, detach, Table.value?_erase]
  · have hx' : f.ident ≠ x := Ne.symm hx
    simp [placed, detach, Table.value?_erase, hx, hx']

/-! ### Putting a row in -/

section PutRow

/-- A row that is put in takes the place of a row with its identity. -/
theorem Arranged.mem_under_putRow (h : forest.Arranged loose)
    (hslot : (forest.rows parent).search key.fingerprint = slot)
    (hplaced : ∀ o ∈ forest.placed key.ident, o = parent.map Fingerprint.ident)
    {o : Option Ident} {child : Key} : child ∈ (forest.putRow parent key slot).under o ↔
      child = key ∧ o = parent.map Fingerprint.ident ∨
        child ∈ forest.under o ∧ child.ident ≠ key.ident := by
  rw [under_putRow]
  split
  · rename_i ho
    have hput : (forest.under o).putAt key slot = (forest.under o).put key := by
      rw [Bucket.put, ← hslot, rows_eq, ho]
    rw [hput, Bucket.mem_put (h.rows_sorted o)]
    simp [ho]
  · rename_i ho
    simp only [ho, and_false, false_or]
    refine ⟨fun hchild => ⟨hchild, fun hident => ?_⟩, And.left⟩
    have hchild' := h.placed_of_mem hchild
    rw [hident] at hchild'
    exact ho (hplaced o hchild')

theorem Arranged.rows_sorted_putRow (h : forest.Arranged loose)
    (hslot : (forest.rows parent).search key.fingerprint = slot) (o : Option Ident) :
    Bucket.IsSorted ((forest.putRow parent key slot).under o) := by
  rw [under_putRow]
  split
  · rename_i ho
    have hput : (forest.under o).putAt key slot = (forest.under o).put key := by
      rw [Bucket.put, ← hslot, rows_eq, ho]
    rw [hput]
    exact (h.rows_sorted o).put key
  · exact h.rows_sorted o

theorem Arranged.rowsMatch_putRow (h : forest.Arranged loose)
    (hslot : (forest.rows parent).search key.fingerprint = slot)
    (hplaced : ∀ o ∈ forest.placed key.ident, o = parent.map Fingerprint.ident) :
    (forest.putRow parent key slot).RowsMatch := by
  intro x o
  simp only [h.mem_under_putRow hslot hplaced, placed_putRow]
  by_cases hx : x = key.ident
  · subst hx
    rw [settle, Function.update_self, Option.some.injEq]
    constructor
    · rintro rfl
      exact ⟨key, .inl ⟨rfl, rfl⟩, rfl⟩
    · rintro ⟨child, ⟨-, ho⟩ | ⟨-, hne⟩, hident⟩
      · exact ho.symm
      · exact absurd hident hne
  · rw [settle, Function.update_of_ne hx, h.rowsMatch x o]
    constructor
    · rintro ⟨child, hchild, rfl⟩
      exact ⟨child, .inr ⟨hchild, hx⟩, rfl⟩
    · rintro ⟨child, ⟨rfl, -⟩ | ⟨hchild, -⟩, rfl⟩
      · exact absurd rfl hx
      · exact ⟨child, hchild, rfl⟩

/-- Whatever is put in where it belongs, what does not depend on stored keys is kept. -/
theorem Arranged.children_putRow (h : forest.Arranged loose) (parent : Option Fingerprint)
    (key : Key) (slot : Slot) : (forest.putRow parent key slot).children.IsSorted ∧
      ∀ entry ∈ (forest.putRow parent key slot).children, entry.2 ≠ [] :=
  ⟨children_setRows_sorted h.children_sorted _ _, children_setRows_nonempty h.children_nonempty _ _⟩

theorem placed_of_taken (h : forest.Arranged loose)
    (hslot : (forest.rows parent).search key.fingerprint = .taken row) :
    forest.placed key.ident = some (parent.map Fingerprint.ident) := by
  have hsorted := h.rows_sorted (parent.map Fingerprint.ident)
  have hfits := Bucket.search_spec hsorted key.fingerprint
  rw [← rows_eq, hslot] at hfits
  obtain ⟨front, old, back, hrows, -, hident⟩ := hfits
  refine (h.rowsMatch _ _).mpr ⟨old, ?_, hident⟩
  rw [← rows_eq, hrows]
  simp

/-- A row replaced in its place changes no placement. -/
theorem placed_putRow_of_taken (h : forest.Arranged loose)
    (hslot : (forest.rows parent).search key.fingerprint = .taken row) :
    (forest.putRow parent key (.taken row)).placed = forest.placed := by
  rw [placed_putRow, settle, ← placed_of_taken h hslot, Function.update_eq_self]

theorem Arranged.named_putRow (h : forest.Arranged loose) (hnamed : key.ident ≠ [])
    (hslot : (forest.rows parent).search key.fingerprint = slot)
    (hplaced : ∀ o ∈ forest.placed key.ident, o = parent.map Fingerprint.ident) :
    ∀ o, ∀ child ∈ (forest.putRow parent key slot).under o, child.ident ≠ [] := by
  intro o child hchild
  rcases (h.mem_under_putRow hslot hplaced).mp hchild with ⟨rfl, -⟩ | ⟨hchild, -⟩
  · exact hnamed
  · exact h.named o child hchild

theorem Arranged.issued_putRow (h : forest.Arranged loose)
    (hissued : ∀ x ∈ parent.map Fingerprint.ident, key.issuer = some x)
    (hslot : (forest.rows parent).search key.fingerprint = slot)
    (hplaced : ∀ o ∈ forest.placed key.ident, o = parent.map Fingerprint.ident) :
    ∀ x, ∀ child ∈ (forest.putRow parent key slot).under (some x), child.issuer = some x := by
  intro x child hchild
  rcases (h.mem_under_putRow hslot hplaced).mp hchild with ⟨rfl, ho⟩ | ⟨hchild, -⟩
  · exact hissued x ho.symm
  · exact h.issued x child hchild

/-- Replacing an attached key in its row keeps the arrangement. -/
theorem Arranged.putRow (h : forest.Arranged loose)
    (hslot : (forest.rows parent).search key.fingerprint = .taken row)
    (hattached : Attached forest.placed key.ident)
    (hissued : ∀ x ∈ parent.map Fingerprint.ident, key.issuer = some x) :
    (forest.putRow parent key (.taken row)).Arranged loose := by
  have htaken := placed_of_taken h hslot
  have hplaced : ∀ o ∈ forest.placed key.ident, o = parent.map Fingerprint.ident := by
    intro o ho
    rw [htaken] at ho
    exact (Option.some.inj ho).symm
  have hnamed : key.ident ≠ [] := by
    obtain ⟨old, hold, hident⟩ := (h.rowsMatch _ _).mp htaken
    rw [← hident]
    exact h.named _ old hold
  have hstored (child : Key) : child ∈ (forest.putRow parent key (.taken row)).stored ↔
      ∃ o, child ∈ (forest.putRow parent key (.taken row)).under o ∧
        Attached forest.placed child.ident := by
    simp only [stored_putRow, Bucket.mem_put h.stored_sorted, h.stored_iff,
      h.mem_under_putRow hslot hplaced]
    constructor
    · rintro (rfl | ⟨⟨o, hchild, hatt⟩, hne⟩)
      · exact ⟨_, .inl ⟨rfl, rfl⟩, hattached⟩
      · exact ⟨o, .inr ⟨hchild, hne⟩, hatt⟩
    · rintro ⟨o, ⟨rfl, -⟩ | ⟨hchild, hne⟩, hatt⟩
      · exact .inl rfl
      · exact .inr ⟨⟨o, hchild, hatt⟩, hne⟩
  exact
    { parents_sorted := by rw [parents_putRow]; exact h.parents_sorted.put _ _
      children_sorted := (h.children_putRow _ _ _).1
      children_nonempty := (h.children_putRow _ _ _).2
      stored_sorted := by rw [stored_putRow]; exact h.stored_sorted.put key
      rows_sorted := h.rows_sorted_putRow hslot
      rowsMatch := h.rowsMatch_putRow hslot hplaced
      named := h.named_putRow hnamed hslot hplaced
      issued := h.issued_putRow hissued hslot hplaced
      vacant := by rw [placed_putRow_of_taken h hslot]; exact h.vacant
      grounded := by rw [placed_putRow_of_taken h hslot]; exact h.grounded
      stored_iff := by rw [placed_putRow_of_taken h hslot]; exact hstored }

end PutRow

/-! ### Bringing a loose key in -/

section BringIn

theorem under_bringIn (forest : Forest) (parent : Option Fingerprint) (key : Key) (slot : Slot) :
    (forest.bringIn parent key slot).under = (forest.putRow parent key slot).under :=
  under_congr rfl rfl

theorem placed_bringIn (forest : Forest) (parent : Option Fingerprint) (key : Key) (slot : Slot) :
    (forest.bringIn parent key slot).placed =
      settle forest.placed key.ident (parent.map Fingerprint.ident) :=
  placed_putRow forest parent key slot

theorem stored_bringIn (forest : Forest) (parent : Option Fingerprint) (key : Key) (slot : Slot) :
    (forest.bringIn parent key slot).stored =
      (forest.subtree key.fingerprint).foldl Bucket.put (forest.stored.put key) := by
  simp only [bringIn, subtree_walks, stored_putRow]

/-- Below a loose key is found what hangs below it. -/
theorem Arranged.mem_subtree_of_loose (h : forest.Arranged loose) (hloose : f.ident ∈ loose) {child : Key} :
    child ∈ forest.subtree f ↔
      ∃ o, child ∈ forest.under o ∧ Hangs forest.placed f.ident child.ident := by
  rw [mem_subtree h.rowsMatch h.acyclic]
  constructor
  · rintro ⟨p, hp, hchild⟩
    exact ⟨some p, hchild, .child (h.placed_of_mem hchild) hp⟩
  · rintro ⟨o, hchild, hhangs⟩
    have hplaced := h.placed_of_mem hchild
    rcases hhangs.eq_or_child with heq | ⟨p, hp, hhangs⟩
    · exact absurd heq (h.ident_ne_of_loose hloose hchild)
    · rw [hplaced] at hp
      cases hp
      exact ⟨p, hhangs, hchild⟩

/-- Brought in with a key are the key and all keys that hang below it. -/
theorem Arranged.mem_stored_bringIn (h : forest.Arranged loose) (hloose : key.ident ∈ loose)
    {child : Key} : child ∈ (forest.bringIn parent key slot).stored ↔
      child = key ∨ child ∈ forest.stored ∨
        ∃ o, child ∈ forest.under o ∧ Hangs forest.placed key.ident child.ident := by
  have hsub {child : Key} := @Arranged.mem_subtree_of_loose forest loose key.fingerprint h hloose child
  have hunique : ∀ a ∈ forest.subtree key.fingerprint, ∀ b ∈ forest.subtree key.fingerprint,
      a.ident = b.ident → a = b := by
    intro a ha b hb hab
    obtain ⟨o, ha, -⟩ := hsub.mp ha
    obtain ⟨o', hb, -⟩ := hsub.mp hb
    exact (h.row_unique ha hb hab).2
  have hapart : ∀ child ∈ forest.subtree key.fingerprint, child.ident ≠ key.ident ∧
      ∀ other ∈ forest.stored, other.ident ≠ child.ident := by
    intro child hchild
    obtain ⟨o, hunder, hbelow⟩ := hsub.mp hchild
    refine ⟨h.ident_ne_of_loose hloose hunder, fun other hother heq => ?_⟩
    have hattached := h.attached_of_mem hother
    rw [heq] at hattached
    exact h.not_attached hloose hbelow hattached
  rw [stored_bringIn, Bucket.mem_foldl_put (h.stored_sorted.put key) hunique, Bucket.mem_put h.stored_sorted, ← hsub]
  constructor
  · rintro (hchild | ⟨rfl | ⟨hchild, -⟩, -⟩)
    · exact .inr (.inr hchild)
    · exact .inl rfl
    · exact .inr (.inl hchild)
  · rintro (rfl | hchild | hchild)
    · exact .inr ⟨.inl rfl, fun other hother => (hapart other hother).1.symm⟩
    · obtain ⟨o, hunder, -⟩ := (h.stored_iff child).mp hchild
      exact .inr ⟨.inr ⟨hchild, h.ident_ne_of_loose hloose hunder⟩, fun other hother =>
        (hapart other hother).2 child hchild⟩
    · exact .inl hchild

/-- When a loose key takes a place, what hangs below it can be reached again. -/
theorem Arranged.grounded_settle (h : forest.Arranged loose) (hloose : x ∈ loose) {o : Option Ident}
    (hparent : ∀ p ∈ o, Attached forest.placed p) {y : Ident}
    (hy : (settle forest.placed x o y).isSome) : Attached (settle forest.placed x o) y ∨
      ∃ r ∈ loose \ {x}, Hangs (settle forest.placed x o) r y := by
  have hvacant := h.vacant x hloose
  have hattached (y : Ident) := attached_settle (x := y) hvacant hparent
  by_cases hyx : y = x
  · rw [hyx]
    exact .inl ((hattached x).mpr (.inr .self))
  · rw [settle, Function.update_of_ne hyx] at hy
    rcases h.grounded y hy with hatt | ⟨r, hr, hry⟩
    · exact .inl (hatt.settle hvacant)
    · by_cases hrx : r = x
      · rw [hrx] at hry
        exact .inl ((hattached y).mpr (.inr hry))
      · exact .inr ⟨r, ⟨hr, hrx⟩, hry.settle hvacant⟩

/-- Bringing in a loose key under an attached parent makes it attached. -/
theorem Arranged.bringIn (h : forest.Arranged loose) (hloose : key.ident ∈ loose)
    (hslot : (forest.rows parent).search key.fingerprint = slot) (hnamed : key.ident ≠ [])
    (hparent : ∀ x ∈ parent.map Fingerprint.ident, Attached forest.placed x ∧ key.issuer = some x) :
    (forest.bringIn parent key slot).Arranged (loose \ {key.ident}) := by
  have hvacant := h.vacant _ hloose
  have hplaced : ∀ o ∈ forest.placed key.ident, o = parent.map Fingerprint.ident := by
    simp [hvacant]
  have hunder := under_bringIn forest parent key slot
  have hsettled := placed_bringIn forest parent key slot
  have hattached (x : Ident) := attached_settle (x := x) hvacant fun p hp => (hparent p hp).1
  have hstored (child : Key) : child ∈ (forest.bringIn parent key slot).stored ↔
      ∃ o, child ∈ (forest.putRow parent key slot).under o ∧
        Attached (settle forest.placed key.ident (parent.map Fingerprint.ident)) child.ident := by
    simp only [h.mem_stored_bringIn hloose, h.mem_under_putRow hslot hplaced, hattached, h.stored_iff]
    constructor
    · rintro (rfl | ⟨o, hchild, hatt⟩ | ⟨o, hchild, hhangs⟩)
      · exact ⟨_, .inl ⟨rfl, rfl⟩, .inr .self⟩
      · exact ⟨o, .inr ⟨hchild, h.ident_ne_of_loose hloose hchild⟩, .inl hatt⟩
      · exact ⟨o, .inr ⟨hchild, h.ident_ne_of_loose hloose hchild⟩, .inr hhangs⟩
    · rintro ⟨o, ⟨rfl, -⟩ | ⟨hchild, -⟩, hatt | hhangs⟩
      · exact .inl rfl
      · exact .inl rfl
      · exact .inr (.inl ⟨o, hchild, hatt⟩)
      · exact .inr (.inr ⟨o, hchild, hhangs⟩)
  exact
    { parents_sorted := by rw [Forest.bringIn, parents_putRow]; exact h.parents_sorted.put _ _
      children_sorted := (h.children_putRow _ _ _).1
      children_nonempty := (h.children_putRow _ _ _).2
      stored_sorted := by
        rw [stored_bringIn]
        exact Bucket.isSorted_foldl_put (h.stored_sorted.put key) _
      rows_sorted := by rw [hunder]; exact h.rows_sorted_putRow hslot
      rowsMatch := by
        rw [RowsMatch, hunder]
        exact h.rowsMatch_putRow hslot hplaced
      named := by rw [hunder]; exact h.named_putRow hnamed hslot hplaced
      issued := by
        rw [hunder]
        exact h.issued_putRow (fun x hx => (hparent x hx).2) hslot hplaced
      vacant := by
        rintro x ⟨hx, hne⟩
        rw [hsettled, settle, Function.update_of_ne hne]
        exact h.vacant x hx
      grounded := by
        rw [hsettled]
        exact fun x => h.grounded_settle hloose fun p hp => (hparent p hp).1
      stored_iff := by rw [hunder, hsettled]; exact hstored }

end BringIn

/-! ### Taking a row out -/

section TakeOut

theorem Arranged.mem_under_detach (h : forest.Arranged loose)
    (hindex : forest.placeOf f = some index) {o : Option Ident} {child : Key} :
    child ∈ (forest.detach index f).under o ↔ child ∈ forest.under o ∧ child.ident ≠ f.ident := by
  rw [under_detach]
  split
  · rename_i ho
    have hrow := (placeOf_eq_some hindex).2
    rw [rows_eq, ← ho] at hrow
    rw [Bucket.erase_eq_of_row hrow, Bucket.mem_erase (h.rows_sorted o)]
  · rename_i ho
    refine ⟨fun hchild => ⟨hchild, fun hident => ho ?_⟩, And.left⟩
    have hplaced := h.placed_of_mem hchild
    rw [hident, placed_of_placeOf hindex] at hplaced
    exact (Option.some.inj hplaced).symm

theorem Arranged.rowsMatch_detach (h : forest.Arranged loose)
    (hindex : forest.placeOf f = some index) : (forest.detach index f).RowsMatch := by
  intro x o
  simp only [h.mem_under_detach hindex, placed_detach]
  by_cases hx : x = f.ident
  · subst hx
    simp only [vacate, Function.update_self, reduceCtorEq, false_iff, not_exists, not_and]
    exact fun child hchild heq => hchild.2 heq
  · rw [vacate, Function.update_of_ne hx, h.rowsMatch x o]
    constructor
    · rintro ⟨child, hchild, rfl⟩
      exact ⟨child, ⟨hchild, hx⟩, rfl⟩
    · rintro ⟨child, ⟨hchild, -⟩, rfl⟩
      exact ⟨child, hchild, rfl⟩

theorem under_dropRow (forest : Forest) (index : RowIndex) (f : Fingerprint) :
    (forest.dropRow index f).under = (forest.detach index f).under := under_congr rfl rfl

theorem stored_dropRow (forest : Forest) (index : RowIndex) (f : Fingerprint) :
    (forest.dropRow index f).stored = forest.stored.erase f :=
  congrArg (·.erase f) (stored_detach forest index f)

theorem under_takeOut (forest : Forest) (index : RowIndex) (f : Fingerprint) :
    (forest.takeOut index f).under = (forest.detach index f).under := under_congr rfl rfl

theorem placed_takeOut (forest : Forest) (index : RowIndex) (f : Fingerprint) :
    (forest.takeOut index f).placed = vacate forest.placed f.ident := placed_detach forest index f

theorem parents_takeOut (forest : Forest) (index : RowIndex) (f : Fingerprint) :
    (forest.takeOut index f).parents = forest.parents.erase f := parents_detach forest index f

theorem stored_takeOut (forest : Forest) (index : RowIndex) (f : Fingerprint) :
    (forest.takeOut index f).stored = ((forest.detach index f).subtree f).foldl
      (fun keys key => keys.erase key.fingerprint) (forest.stored.erase f) := by
  have hsubtree : (forest.dropRow index f).subtree f = (forest.detach index f).subtree f :=
    subtree_congr rfl rfl
  rw [takeOut, subtree_walks, hsubtree, stored_dropRow]

/-- Taken out with a key are the key and all keys that hang below it. -/
theorem Arranged.mem_stored_takeOut (h : forest.Arranged loose)
    (hindex : forest.placeOf f = some index) {child : Key} :
    child ∈ (forest.takeOut index f).stored ↔
      child ∈ forest.stored ∧ ¬ Hangs forest.placed f.ident child.ident := by
  have hacyclic : Acyclic (forest.detach index f).placed := by
    rw [placed_detach]
    exact h.acyclic.vacate f.ident
  have hsub := @mem_subtree (forest.detach index f) f (h.rowsMatch_detach hindex) hacyclic
  rw [stored_takeOut, Bucket.mem_foldl_erase (h.stored_sorted.erase f), Bucket.mem_erase h.stored_sorted, and_assoc]
  refine and_congr_right fun hchild => ?_
  obtain ⟨o, hunder, -⟩ := (h.stored_iff child).mp hchild
  constructor
  · rintro ⟨hne, hall⟩ hhangs
    rcases hhangs.eq_or_child with heq | ⟨p, hp, hhangs⟩
    · exact hne heq
    · have hplaced := h.placed_of_mem hunder
      rw [hp] at hplaced
      cases hplaced
      refine hall child (hsub.mpr ⟨p, ?_, (h.mem_under_detach hindex).mpr ⟨hunder, hne⟩⟩) rfl
      rw [placed_detach, hangs_vacate]
      exact hhangs
  · intro hhangs
    refine ⟨fun heq => hhangs (heq ▸ .self), fun other hother heq => hhangs ?_⟩
    obtain ⟨p, hp, hother⟩ := hsub.mp hother
    rw [placed_detach, hangs_vacate] at hp
    have hother' := (h.mem_under_detach hindex).mp hother
    rw [heq]
    exact .child (h.placed_of_mem hother'.1) hp

/-- When an attached key gives up its place, what hangs below it hangs below a loose key. -/
theorem Arranged.grounded_vacate (h : forest.Arranged loose) (hattached : Attached forest.placed x)
    {y : Ident} (hy : (vacate forest.placed x y).isSome) : Attached (vacate forest.placed x) y ∨
      ∃ r ∈ insert x loose, Hangs (vacate forest.placed x) r y := by
  have hyx : y ≠ x := by
    rintro rfl
    simp [vacate] at hy
  rw [vacate, Function.update_of_ne hyx] at hy
  rcases h.grounded y hy with hatt | ⟨r, hr, hry⟩
  · by_cases hhangs : Hangs forest.placed x y
    · exact .inr ⟨x, Set.mem_insert _ _, hangs_vacate.mpr hhangs⟩
    · exact .inl (attached_vacate.mpr ⟨hatt, hhangs⟩)
  · refine .inr ⟨r, Set.mem_insert_of_mem _ hr, hry.vacate fun hhangs => ?_⟩
    exact h.not_attached hr hry (hhangs.attached_iff.mpr hattached)

/-- Taking out the row of an attached key makes the key loose. -/
theorem Arranged.takeOut (h : forest.Arranged loose) (hindex : forest.placeOf f = some index)
    (hattached : Attached forest.placed f.ident) :
    (forest.takeOut index f).Arranged (insert f.ident loose) := by
  have hmem := @Arranged.mem_under_detach _ _ _ _ h hindex
  have hunder := under_takeOut forest index f
  have hvacated := placed_takeOut forest index f
  have hstored (child : Key) : child ∈ (forest.takeOut index f).stored ↔
      ∃ o, child ∈ (forest.detach index f).under o ∧
        Attached (vacate forest.placed f.ident) child.ident := by
    simp only [h.mem_stored_takeOut hindex, hmem, attached_vacate, h.stored_iff]
    constructor
    · rintro ⟨⟨o, hchild, hatt⟩, hhangs⟩
      exact ⟨o, ⟨hchild, fun heq => hhangs (heq ▸ .self)⟩, hatt, hhangs⟩
    · rintro ⟨o, ⟨hchild, -⟩, hatt, hhangs⟩
      exact ⟨⟨o, hchild, hatt⟩, hhangs⟩
  exact
    { parents_sorted := by rw [parents_takeOut]; exact h.parents_sorted.erase f
      children_sorted := children_setRows_sorted h.children_sorted _ _
      children_nonempty := children_setRows_nonempty h.children_nonempty _ _
      stored_sorted := by
        rw [stored_takeOut]
        exact Bucket.isSorted_foldl_erase (h.stored_sorted.erase f) _
      rows_sorted := by
        intro o
        rw [hunder, under_detach]
        split
        · exact (h.rows_sorted o).sublist (List.eraseIdx_sublist _ _)
        · exact h.rows_sorted o
      rowsMatch := by rw [RowsMatch, hunder]; exact h.rowsMatch_detach hindex
      named := by
        rw [hunder]
        exact fun o child hchild => h.named o child (hmem.mp hchild).1
      issued := by
        rw [hunder]
        exact fun x child hchild => h.issued x child (hmem.mp hchild).1
      vacant := by
        intro x hx
        rw [hvacated]
        by_cases hxf : x = f.ident
        · rw [hxf, vacate, Function.update_self]
        · rw [vacate, Function.update_of_ne hxf]
          exact h.vacant x (hx.resolve_left hxf)
      grounded := by rw [hvacated]; exact fun x => h.grounded_vacate hattached
      stored_iff := by rw [hunder, hvacated]; exact hstored }

end TakeOut

/-! ### Becoming loose without leaving a row -/

/-- A key without a place may count as loose. -/
theorem Arranged.loosen (h : forest.Arranged loose) (hx : forest.placed x = none) :
    forest.Arranged (insert x loose) := by
  refine { h with vacant := ?_, grounded := fun y hy => ?_ }
  · rintro y (rfl | hy)
    · exact hx
    · exact h.vacant y hy
  · rcases h.grounded y hy with hatt | ⟨r, hr, hry⟩
    · exact .inl hatt
    · exact .inr ⟨r, Set.mem_insert_of_mem _ hr, hry⟩

/-- A loose key under which nothing is listed need not count as loose. -/
theorem Arranged.tighten (h : forest.Arranged loose) (hx : forest.under (some x) = []) :
    forest.Arranged (loose \ {x}) := by
  refine { h with vacant := fun y hy => h.vacant y hy.1, grounded := fun y hy => ?_ }
  rcases h.grounded y hy with hatt | ⟨r, hr, hry⟩
  · exact .inl hatt
  · by_cases hrx : r = x
    · rcases hry.from_root with rfl | ⟨c, hc, -⟩
      · simp [h.vacant _ hr] at hy
      · obtain ⟨child, hchild, -⟩ := (h.rowsMatch _ _).mp hc
        rw [hrx, hx] at hchild
        contradiction
    · exact .inr ⟨r, ⟨hr, hrx⟩, hry⟩

end KeyForest.Forest
