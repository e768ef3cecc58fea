import KeyForest.Proofs.Bucket

/-!
# Sorted lists of keys as finite maps

On a sorted list the operations on buckets are those of a finite map from fingerprints, taken
without letter case, to keys (`IsMap`, `isMap_of_isSorted`). Besides what the map holds afterwards
this settles the rows: where a fingerprint is found or missed, at which slot a key is put, and which
row is taken out. Edits at different fingerprints commute, because sorted lists with the same lookups
are equal.
-/
namespace KeyForest.Bucket

variable {keys : Bucket} {f g : Fingerprint} {key : Key} {row : ℕ}

/-! ### Rows -/

theorem taken?_search : (search keys f).taken? = rowOf? keys f := rfl

theorem search_eq_taken (h : IsSorted keys) :
    search keys f = .taken row ↔ ∃ key, keys[row]? = some key ∧ key.ident = f.ident := by
  rw [← rowOf?_eq_some h, ← taken?_search]
  cases search keys f <;> simp [Slot.taken?]

/-- A fingerprint that is missing would go behind the keys below it. -/
theorem search_eq_free (h : IsSorted keys) : search keys f = .free row ↔
    (∀ key ∈ keys, key.ident ≠ f.ident) ∧
      row = keys.countP fun key => compare key.fingerprint f == .lt := by
  have hmiss {row : ℕ} (hslot : search keys f = .free row) :
      (∀ key ∈ keys, key.ident ≠ f.ident) ∧
        row = keys.countP fun key => compare key.fingerprint f == .lt := by
    have hfits := search_spec h f
    rw [hslot] at hfits
    obtain ⟨front, back, rfl, rfl, hfront, hback⟩ := hfits
    have hbelow : front.countP (fun key => compare key.fingerprint f == .lt) = front.length :=
      List.countP_eq_length.mpr fun key hkey => beq_iff_eq.mpr (hfront key hkey)
    have habove : back.countP (fun key => compare key.fingerprint f == .lt) = 0 :=
      List.countP_eq_zero.mpr fun key hkey hlt => (hback key hkey).asymm (beq_iff_eq.mp hlt)
    refine ⟨List.forall_mem_append.mpr
      ⟨fun key hkey => (hfront key hkey).ne, fun key hkey => (hback key hkey).ne.symm⟩, ?_⟩
    rw [List.countP_append, hbelow, habove, Nat.add_zero]
  refine ⟨hmiss, fun ⟨habsent, hrow⟩ => ?_⟩
  cases hslot : search keys f with
  | taken found =>
    obtain ⟨key, hkey, hident⟩ := (search_eq_taken h).mp hslot
    exact absurd hident (habsent key (List.mem_of_getElem? hkey))
  | free found => rw [(hmiss hslot).2, hrow]

/-- A key that is put stands at the row of its slot. -/
theorem getElem?_upsert (h : IsSorted keys) (key : Key) :
    (upsert keys key).1[(upsert keys key).2.row]? = some key := by
  have hfits := search_spec h key.fingerprint
  unfold upsert
  dsimp only
  cases hslot : search keys key.fingerprint with
  | taken row =>
    rw [hslot] at hfits
    obtain ⟨front, old, back, rfl, rfl, -⟩ := hfits
    rw [putAt_taken]
    simp [Slot.row]
  | free row =>
    rw [hslot] at hfits
    obtain ⟨front, back, rfl, rfl, -⟩ := hfits
    rw [putAt_free]
    simp [Slot.row]

/-- What is taken out is the key with the fingerprint, from the row that is answered. -/
theorem remove_eq_some (h : IsSorted keys) : (remove keys f).2 = some (row, key) ↔
    keys[row]? = some key ∧ key.ident = f.ident := by
  unfold remove
  cases hrow : rowOf? keys f with
  | none =>
    refine iff_of_false (fun hnone => nomatch hnone) fun ⟨hkey, hident⟩ => ?_
    rw [(rowOf?_eq_some h).mpr ⟨key, hkey, hident⟩] at hrow
    contradiction
  | some found =>
    obtain ⟨old, hold, hident⟩ := (rowOf?_eq_some h).mp hrow
    simp only [hold, Option.map_some, Option.some.injEq, Prod.mk.injEq]
    constructor
    · rintro ⟨rfl, rfl⟩
      exact ⟨hold, hident⟩
    · rintro ⟨hkey, hsame⟩
      rw [(rowOf?_eq_some h).mpr ⟨key, hkey, hsame⟩, Option.some.injEq] at hrow
      subst hrow
      rw [hkey, Option.some.injEq] at hold
      exact ⟨rfl, hold.symm⟩

theorem eraseIdx_of_remove (hsome : (remove keys f).2 = some (row, key)) :
    (remove keys f).1 = keys.eraseIdx row := by
  unfold remove at hsome ⊢
  cases hrow : rowOf? keys f with
  | none => simp [hrow] at hsome
  | some found =>
    rw [hrow] at hsome
    obtain ⟨old, -, heq⟩ := Option.map_eq_some_iff.mp hsome
    rw [(Prod.mk.inj heq).1]

/-- Nothing is taken out exactly if the fingerprint is missing, and then nothing changes. -/
theorem remove_eq_none (h : IsSorted keys) :
    (remove keys f).2 = none ↔ ∀ key ∈ keys, key.ident ≠ f.ident := by
  rw [← not_iff_not, ← ne_eq, Option.ne_none_iff_exists', Prod.exists]
  push Not
  constructor
  · rintro ⟨row, key, hsome⟩
    obtain ⟨hkey, hident⟩ := (remove_eq_some h).mp hsome
    exact ⟨key, List.mem_of_getElem? hkey, hident⟩
  · rintro ⟨key, hmem, hident⟩
    obtain ⟨row, hkey⟩ := List.mem_iff_getElem?.mp hmem
    exact ⟨row, key, (remove_eq_some h).mpr ⟨hkey, hident⟩⟩

theorem remove_of_absent (h : IsSorted keys) (habsent : ∀ key ∈ keys, key.ident ≠ f.ident) :
    (remove keys f).1 = keys := by
  rw [fst_remove]
  refine (h.erase f).ext h fun key => ?_
  rw [mem_erase h]
  exact and_iff_left_of_imp (habsent key)

/-! ### Lookups -/

theorem lookup_eq_some (h : IsSorted keys) :
    lookup keys f = some key ↔ key ∈ keys ∧ key.ident = f.ident := by
  rw [lookup_eq h, h.key?_eq_some]

/-- A change at one fingerprint. -/
inductive Edit where
  | upsert (key : Key)
  | remove (fingerprint : Fingerprint)

namespace Edit

variable {edit other : Edit}

def fingerprint : Edit → Fingerprint
  | upsert key => key.fingerprint
  | remove fingerprint => fingerprint

/-- The bucket after the edit. -/
def apply (keys : Bucket) : Edit → Bucket
  | upsert key => (keys.upsert key).1
  | remove fingerprint => (keys.remove fingerprint).1

/-- What is found at the fingerprint after the edit. -/
def left : Edit → Option Key
  | upsert key => some key
  | remove _ => none

theorem isSorted_apply (h : IsSorted keys) (edit : Edit) : IsSorted (edit.apply keys) := by
  cases edit with
  | upsert key => exact h.put key
  | remove f =>
    rw [apply, fst_remove]
    exact h.erase f

/-- An edit changes what is found at its fingerprint, and nothing else. -/
theorem key?_apply (h : IsSorted keys) (edit : Edit) (x : Ident) : (edit.apply keys).key? x =
    if edit.fingerprint.ident = x then edit.left else keys.key? x := by
  cases edit with
  | upsert key => exact key?_put h key x
  | remove f =>
    rw [apply, fst_remove, key?_erase h]
    simp only [fingerprint, left, eq_comm]

theorem lookup_apply (h : IsSorted keys) (edit : Edit) (f : Fingerprint) :
    lookup (edit.apply keys) f =
      if edit.fingerprint == f then edit.left else lookup keys f := by
  rw [lookup_eq (isSorted_apply h edit), key?_apply h, lookup_eq h]
  simp

/-- Edits at different fingerprints may be made in either order. -/
theorem apply_comm (h : IsSorted keys)
    (hne : edit.fingerprint.ident ≠ other.fingerprint.ident) :
    edit.apply (other.apply keys) = other.apply (edit.apply keys) := by
  have hedit := isSorted_apply h edit
  have hother := isSorted_apply h other
  refine (isSorted_apply hother edit).ext_key? (isSorted_apply hedit other) (funext fun x => ?_)
  rw [key?_apply hother, key?_apply h, key?_apply hedit, key?_apply h]
  by_cases hx : edit.fingerprint.ident = x
  · rw [if_pos hx, if_neg fun hx' => hne (hx.trans hx'.symm), if_pos hx]
  · rw [if_neg hx, if_neg hx]

end Edit

/-- What is true of the operations on a bucket that is a finite map by fingerprints. -/
structure IsMap (keys : Bucket) : Prop where
  /-- A fingerprint is found at the row of its key. -/
  search_taken : ∀ f row, search keys f = .taken row ↔
    ∃ key, keys[row]? = some key ∧ (key.fingerprint == f) = true
  /-- A missing fingerprint would go to the row behind all keys below it. -/
  search_free : ∀ f row, search keys f = .free row ↔
    (∀ key ∈ keys, (key.fingerprint == f) = false) ∧
      row = keys.countP fun key => compare key.fingerprint f == .lt
  has : ∀ f, keys.has f = true ↔ ∃ key ∈ keys, (key.fingerprint == f) = true
  lookup : ∀ f key, keys.lookup f = some key ↔ key ∈ keys ∧ (key.fingerprint == f) = true
  /-- A key goes to the slot that the search announces, and stands there afterwards. -/
  upsert_slot : ∀ key, (upsert keys key).2 = search keys key.fingerprint ∧
    (upsert keys key).1[(upsert keys key).2.row]? = some key
  /-- The key that is taken out is the one with the fingerprint, at the row that is answered, and
  no other row goes. -/
  remove_some : ∀ f row key, (remove keys f).2 = some (row, key) ↔
    keys[row]? = some key ∧ (key.fingerprint == f) = true
  remove_row : ∀ f row key, (remove keys f).2 = some (row, key) →
    (remove keys f).1 = keys.eraseIdx row
  remove_none : ∀ f, (remove keys f).2 = none ↔ ∀ key ∈ keys, (key.fingerprint == f) = false
  remove_absent : ∀ f, (remove keys f).2 = none → (remove keys f).1 = keys
  edit_sorted : ∀ edit : Edit, isSorted (edit.apply keys) = true
  /-- An edit settles what is found at its fingerprint, in whatever spelling, and nothing else. -/
  edit_lookup : ∀ (edit : Edit) f, Bucket.lookup (edit.apply keys) f =
    if edit.fingerprint == f then edit.left else Bucket.lookup keys f
  edit_comm : ∀ edit other : Edit, (edit.fingerprint == other.fingerprint) = false →
    edit.apply (other.apply keys) = other.apply (edit.apply keys)

/-- On every list of keys that ascends strictly the operations on buckets are those of a finite
map. -/
theorem isMap_of_isSorted (h : isSorted keys = true) : IsMap keys := by
  rw [isSorted_eq_true] at h
  exact
    { search_taken := fun f row => by simpa using search_eq_taken h
      search_free := fun f row => by simpa using search_eq_free h
      has := fun f => by simpa using has_iff h
      lookup := fun f key => by simpa using lookup_eq_some h
      upsert_slot := fun key => ⟨rfl, getElem?_upsert h key⟩
      remove_some := fun f row key => by simpa using remove_eq_some h
      remove_row := fun f row key => eraseIdx_of_remove
      remove_none := fun f => by simpa using remove_eq_none h
      remove_absent := fun f hnone => remove_of_absent h ((remove_eq_none h).mp hnone)
      edit_sorted := fun edit => isSorted_eq_true.mpr (edit.isSorted_apply h)
      edit_lookup := fun edit f => edit.lookup_apply h f
      edit_comm := fun edit other hne => Edit.apply_comm h (Fingerprint.beq_false_iff.mp hne) }

/-- A fingerprint that is found in another spelling, one that would go in between, and one that would
go behind all others. -/
theorem isMap_of_isSorted_spellings :
    let keys := [Key.ofFingerprint (.ofText "ab"), Key.ofFingerprint (.ofText "Cd")]
    isSorted keys = true ∧ IsMap keys ∧ search keys (.ofText "AB") = .taken 0 ∧
      search keys (.ofText "c") = .free 1 ∧ search keys (.ofText "cd0") = .free 2 ∧
      (remove keys (.ofText "CD")).2 = some (1, Key.ofFingerprint (.ofText "Cd")) := by
  intro keys
  have hsorted : isSorted keys = true := by decide +kernel
  have hmap := isMap_of_isSorted hsorted
  have hfound : search keys (.ofText "AB") = .taken 0 :=
    (hmap.search_taken _ _).mpr ⟨_, rfl, by decide +kernel⟩
  refine ⟨hsorted, hmap, hfound, (hmap.search_free _ _).mpr (by decide +kernel),
    (hmap.search_free _ _).mpr (by decide +kernel), ?_⟩
  exact (hmap.remove_some _ _ _).mpr ⟨rfl, by decide +kernel⟩

end KeyForest.Bucket
