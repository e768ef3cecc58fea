import KeyForest.FlatList
import KeyForest.Proofs.Batch
import KeyForest.Proofs.Journal

/-!
# The flat list at every moment

A flat list of sorted keys is a consistent view, and every operation keeps it one while it reports
nothing but sound changes.
-/
namespace KeyForest.FlatList

open Listing

variable {list : FlatList} {journal : Journal FlatList}

/-- The keys ascend, and none of them is a null key. -/
structure Tidy (list : FlatList) : Prop where
  sorted : Bucket.IsSorted list.keys
  named : ∀ key ∈ list.keys, key.ident ≠ []

theorem eq_top_of_visible {depth : ℕ} {above : Option RowIndex} {index : RowIndex} {key : Key}
    (h : Visible list depth above index key) :
    depth = 0 ∧ above = none ∧ index.parent = none ∧ list.keys[index.row]? = some key := by
  cases h with
  | top hrow => exact ⟨rfl, rfl, rfl, hrow⟩
  | child _ hrow => simp [rows] at hrow

theorem Tidy.consistent (h : Tidy list) : Consistent list := by
  refine consistent_of h.sorted (fun key => ?_) h.sorted (fun _ _ => List.Pairwise.nil)
    (fun {depth above index key} hkey => ?_) fun hkey => ?_
  · constructor
    · intro hkey
      obtain ⟨row, hrow⟩ := List.mem_iff_getElem?.mp hkey
      exact ⟨0, none, ⟨none, row⟩, .top hrow⟩
    · rintro ⟨depth, above, index, hkey⟩
      exact List.mem_of_getElem? (eq_top_of_visible hkey).2.2.2
  · obtain ⟨-, -, hparent, hrow⟩ := eq_top_of_visible hkey
    have hnull : key.isNull = false := by
      rw [← Bool.not_eq_true, Key.isNull_iff]
      exact h.named key (List.mem_of_getElem? hrow)
    have hplace : list.keys.rowOf? key.fingerprint = some index.row :=
      (Bucket.rowOf?_eq_some h.sorted).mpr ⟨key, hrow, rfl⟩
    simp [indexOf, hnull, placeOf, hplace, RowIndex.top, RowIndex.spot, hparent]
  · rw [(eq_top_of_visible hkey).2.1]
    rfl

theorem Tidy.put (h : Tidy list) {key : Key} (hkey : key.ident ≠ []) :
    Tidy ⟨list.keys.put key⟩ := by
  refine ⟨h.sorted.put key, fun other hother => ?_⟩
  rcases (Bucket.mem_put h.sorted).mp hother with rfl | ⟨hother, -⟩
  · exact hkey
  · exact h.named other hother

theorem state_put (journal : Journal FlatList) (key : Key) :
    (put journal key).state = ⟨journal.state.keys.put key⟩ := by
  unfold put Bucket.put
  cases journal.state.keys.search key.fingerprint <;> rfl

theorem faultless_put (h : journal.Faultless) (hstate : Tidy journal.state) {key : Key}
    (hkey : key.ident ≠ []) : (put journal key).Faultless := by
  have hafter := (hstate.put hkey).consistent
  have hfits := Bucket.search_spec hstate.sorted key.fingerprint
  unfold Bucket.put at hafter
  unfold put
  cases hslot : journal.state.keys.search key.fingerprint with
  | taken row =>
    rw [hslot] at hafter hfits
    obtain ⟨front, old, back, hkeys, rfl, -⟩ := hfits
    refine (h.update _).announce hafter ⟨key, ?_, ?_⟩
    · simp [stored, hkeys, Bucket.putAt_taken]
    · simp [keyAt, rows, hkeys, Bucket.putAt_taken]
  | free row =>
    rw [hslot] at hafter hfits
    obtain ⟨front, back, hkeys, rfl, -⟩ := hfits
    refine h.insert hstate.consistent hafter ?_
    simp only [rowCount, rows, hkeys, Bucket.putAt_free, Option.isNone_none, if_true,
      List.length_append, List.length_cons]
    omega

theorem merge_spec (h : journal.Faultless) (hstate : Tidy journal.state) {batch : Bucket}
    (hsorted : Bucket.IsSorted batch) (hnamed : ∀ key ∈ batch, key.ident ≠ []) :
    (merge journal batch).1.Faultless ∧ Tidy (merge journal batch).1.state := by
  have hfold (keys : List Key) (hkeys : ∀ key ∈ keys, key.ident ≠ []) :
      (keys.foldl put journal).Faultless ∧ Tidy (keys.foldl put journal).state := by
    induction keys using List.reverseRecOn with
    | nil => exact ⟨h, hstate⟩
    | append_singleton keys key ih =>
      obtain ⟨hjournal, htidy⟩ := ih fun other hother => hkeys other (by simp [hother])
      rw [List.foldl_append, List.foldl_cons, List.foldl_nil]
      refine ⟨faultless_put hjournal htidy (hkeys key (by simp)), ?_⟩
      rw [state_put]
      exact htidy.put (hkeys key (by simp))
  obtain ⟨hjournal, htidy⟩ := hfold batch hnamed
  unfold merge
  rw [Journal.check_of_holds (Bucket.isSorted_eq_true.mpr hsorted)]
  dsimp only
  rw [Journal.check_of_holds (Bucket.isSorted_eq_true.mpr htidy.sorted)]
  exact ⟨hjournal, htidy⟩

theorem add_spec (h : journal.Faultless) (hstate : Tidy journal.state) (keys : List Key) :
    (KeyList.add journal keys).1.Faultless ∧ Tidy (KeyList.add journal keys).1.state := by
  rcases KeyList.add_cases journal keys with ⟨-, hadd⟩ | hadd
  · rw [hadd]
    exact ⟨h, hstate⟩
  · rw [hadd]
    exact merge_spec (h.log _) hstate (Bucket.isSorted_ofBatch keys)
      fun key hkey => (Bucket.mem_of_mem_ofBatch hkey).2

theorem remove_spec (h : journal.Faultless) (hstate : Tidy journal.state) (f : Fingerprint) :
    (remove journal f).Faultless ∧ Tidy (remove journal f).state := by
  unfold remove
  split
  · exact ⟨h, hstate⟩
  · rename_i row hrow
    obtain ⟨key, hkey, -⟩ := (Bucket.rowOf?_eq_some hstate.sorted).mp hrow
    obtain ⟨hlt, -⟩ := List.getElem?_eq_some_iff.mp hkey
    have htidy : Tidy ⟨journal.state.keys.eraseIdx row⟩ :=
      ⟨hstate.sorted.sublist (List.eraseIdx_sublist _ _), fun other hother =>
        hstate.named other (List.mem_of_mem_eraseIdx hother)⟩
    refine ⟨h.remove hstate.consistent htidy.consistent ?_, htidy⟩
    simp only [rowCount, rows, Option.isNone_none, if_true, List.length_eraseIdx, if_pos hlt]
    omega

theorem tidy_nil : Tidy ⟨[]⟩ := ⟨List.Pairwise.nil, by simp⟩

theorem clear_spec (h : journal.Faultless) (hstate : Tidy journal.state) :
    (clear journal).Faultless ∧ Tidy (clear journal).state :=
  ⟨h.reset hstate.consistent tidy_nil.consistent, tidy_nil⟩

/-- After any run the flat list is tidy, and all that it reported was sound. -/
theorem run_spec (operations : List Operation) :
    (Operation.run operations : Journal FlatList).Faultless ∧
      Tidy (Operation.run operations : Journal FlatList).state := by
  induction operations using List.reverseRecOn with
  | nil => exact ⟨Journal.faultless_ofState _, tidy_nil⟩
  | append_singleton operations operation ih =>
    obtain ⟨h, hstate⟩ := ih
    rw [Operation.run_concat]
    cases operation with
    | add keys => exact add_spec h hstate keys
    | addOne key => exact add_spec h hstate [key]
    | set keys =>
      obtain ⟨h, hstate⟩ := clear_spec h hstate
      exact add_spec h hstate keys
    | remove f => exact remove_spec h hstate f
    | clear => exact clear_spec h hstate

end KeyForest.FlatList
