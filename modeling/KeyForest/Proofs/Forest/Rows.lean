import KeyForest.Proofs.Forest.View
import KeyForest.Proofs.Forest.Waiting
import KeyForest.Proofs.Journal

/-!
# Rows that come and go

`Listed` and `Unlisted` say how a forest differs from the forest before when a key has been
listed, or has lost its row. Both happen between changes that are sound (`listRow_spec`,
`unlistRow_spec`), and so a key finds its new place, whether it had one before or not
(`relist_spec`).
-/
namespace KeyForest.Forest

open Placements

variable {before after : Forest} {loose : Set Ident} {f : Fingerprint} {key : Key}
  {parent : Option Fingerprint} {o : Option Ident} {journal : Journal Forest} {row : ℕ}
  {index : RowIndex} {slot : Slot}

/-- The key is listed under the parent now, and otherwise nothing has changed. -/
structure Listed (before after : Forest) (key : Key) (parent : Option Ident) : Prop where
  placed_eq : after.placed = settle before.placed key.ident parent
  mem_under : ∀ {o child}, child ∈ after.under o ↔
    child = key ∧ o = parent ∨ child ∈ before.under o ∧ child.ident ≠ key.ident
  waiting_eq : after.waiting = before.waiting
  inTransit_eq : after.inTransit = before.inTransit

/-- The key has no row any more, and otherwise nothing has changed. -/
structure Unlisted (before after : Forest) (x : Ident) : Prop where
  placed_eq : after.placed = vacate before.placed x
  mem_under : ∀ {o child}, child ∈ after.under o ↔ child ∈ before.under o ∧ child.ident ≠ x
  waiting_eq : after.waiting = before.waiting
  inTransit_eq : after.inTransit = before.inTransit

/-- Listed are the key and all other keys that were listed before. -/
theorem Listed.exists_under (h : Listed before after key o) {child : Key} :
    (∃ o, child ∈ after.under o) ↔
      child = key ∨ (∃ o, child ∈ before.under o) ∧ child.ident ≠ key.ident := by
  constructor
  · rintro ⟨o', ho'⟩
    rcases h.mem_under.mp ho' with ⟨rfl, -⟩ | ⟨ho', hne⟩
    · exact .inl rfl
    · exact .inr ⟨⟨o', ho'⟩, hne⟩
  · rintro (rfl | ⟨⟨o', ho'⟩, hne⟩)
    · exact ⟨o, h.mem_under.mpr (.inl ⟨rfl, rfl⟩)⟩
    · exact ⟨o', h.mem_under.mpr (.inr ⟨ho', hne⟩)⟩

theorem waiting_putRow (forest : Forest) (parent : Option Fingerprint) (key : Key) (slot : Slot) :
    (forest.putRow parent key slot).waiting = forest.waiting := waiting_setRows _ _ _

theorem inTransit_putRow (forest : Forest) (parent : Option Fingerprint) (key : Key) (slot : Slot) :
    (forest.putRow parent key slot).inTransit = forest.inTransit := inTransit_setRows _ _ _

theorem waiting_detach (forest : Forest) (index : RowIndex) (f : Fingerprint) :
    (forest.detach index f).waiting = forest.waiting := waiting_setRows _ _ _

theorem inTransit_detach (forest : Forest) (index : RowIndex) (f : Fingerprint) :
    (forest.detach index f).inTransit = forest.inTransit := inTransit_setRows _ _ _

theorem listed_putRow (h : before.Arranged loose)
    (hslot : (before.rows parent).search key.fingerprint = slot)
    (hplaced : ∀ o ∈ before.placed key.ident, o = parent.map Fingerprint.ident) :
    Listed before (before.putRow parent key slot) key (parent.map Fingerprint.ident) where
  placed_eq := placed_putRow _ _ _ _
  mem_under := h.mem_under_putRow hslot hplaced
  waiting_eq := waiting_putRow _ _ _ _
  inTransit_eq := inTransit_putRow _ _ _ _

theorem listed_bringIn (h : before.Arranged loose)
    (hslot : (before.rows parent).search key.fingerprint = slot)
    (hplaced : ∀ o ∈ before.placed key.ident, o = parent.map Fingerprint.ident) :
    Listed before (before.bringIn parent key slot) key (parent.map Fingerprint.ident) where
  placed_eq := placed_bringIn _ _ _ _
  mem_under := by
    intro o child
    rw [under_bringIn]
    exact h.mem_under_putRow hslot hplaced
  waiting_eq := waiting_putRow _ _ _ _
  inTransit_eq := inTransit_putRow _ _ _ _

theorem unlisted_takeOut (h : before.Arranged loose) (hindex : before.placeOf f = some index) :
    Unlisted before (before.takeOut index f) f.ident where
  placed_eq := placed_takeOut _ _ _
  mem_under := by
    intro o child
    rw [under_takeOut]
    exact h.mem_under_detach hindex
  waiting_eq := waiting_detach before index f
  inTransit_eq := inTransit_detach before index f

/-- The row that is replaced holds the key. -/
theorem getElem?_rows_putRow (h : before.Arranged loose)
    (hslot : (before.rows parent).search key.fingerprint = .taken row) :
    ((before.putRow parent key (.taken row)).rows parent)[row]? = some key := by
  have hfits := Bucket.search_spec (h.rows_sorted (parent.map Fingerprint.ident)) key.fingerprint
  rw [← rows_eq, hslot] at hfits
  obtain ⟨front, old, back, hrows, rfl, -⟩ := hfits
  rw [rows_eq, under_putRow, if_pos rfl, ← rows_eq, hrows, Bucket.putAt_taken]
  simp

/-- The row that is made holds the key. -/
theorem getElem?_rows_bringIn (h : before.Arranged loose)
    (hslot : (before.rows parent).search key.fingerprint = .free row) :
    ((before.bringIn parent key (.free row)).rows parent)[row]? = some key := by
  have hfits := Bucket.search_spec (h.rows_sorted (parent.map Fingerprint.ident)) key.fingerprint
  rw [← rows_eq, hslot] at hfits
  obtain ⟨front, back, hrows, rfl, -, -⟩ := hfits
  rw [rows_eq, under_bringIn, under_putRow, if_pos rfl, ← rows_eq, hrows, Bucket.putAt_free]
  simp

theorem length_rows_bringIn (h : before.Arranged loose)
    (hslot : (before.rows parent).search key.fingerprint = .free row) :
    ((before.bringIn parent key (.free row)).rows parent).length =
      (before.rows parent).length + 1 := by
  have hfits := Bucket.search_spec (h.rows_sorted (parent.map Fingerprint.ident)) key.fingerprint
  rw [← rows_eq, hslot] at hfits
  obtain ⟨front, back, hrows, rfl, -, -⟩ := hfits
  rw [rows_eq, under_bringIn, under_putRow, if_pos rfl, ← rows_eq, hrows, Bucket.putAt_free]
  simp only [List.length_append, List.length_cons]
  omega

/-- A key that finds a free slot under a parent is not placed there. -/
theorem not_placed_of_free (h : before.Arranged loose)
    (hslot : (before.rows parent).search key.fingerprint = .free row) :
    before.placed key.ident ≠ some (parent.map Fingerprint.ident) := by
  intro hplaced
  have hfits := Bucket.search_spec (h.rows_sorted (parent.map Fingerprint.ident)) key.fingerprint
  rw [← rows_eq, hslot] at hfits
  obtain ⟨front, back, hrows, -, hfront, hback⟩ := hfits
  obtain ⟨old, hold, hident⟩ := (h.rowsMatch _ _).mp hplaced
  rw [← rows_eq, hrows] at hold
  rcases List.mem_append.mp hold with hold | hold
  · exact (hfront old hold).ne hident
  · exact (hback old hold).ne hident.symm

theorem length_rows_takeOut (hkey : (before.rows index.parent)[index.row]? = some key) :
    ((before.takeOut index f).rows index.parent).length + 1 =
      (before.rows index.parent).length := by
  obtain ⟨hlt, -⟩ := List.getElem?_eq_some_iff.mp hkey
  rw [rows_eq, under_takeOut, under_detach, if_pos rfl, ← rows_eq, List.length_eraseIdx,
    if_pos hlt]
  omega

/-- Listing a key replaces its row, or brings it in when it is loose. -/
theorem listRow_spec (parent : Option Fingerprint) (key : Key) (h : journal.Faultless)
    (hstate : journal.state.Arranged loose)
    (hkey : key.ident ∈ loose ∨ journal.state.placed key.ident =
      some (parent.map Fingerprint.ident) ∧ Attached journal.state.placed key.ident)
    (hnamed : key.ident ≠ [])
    (hparent : ∀ x ∈ parent.map Fingerprint.ident,
      Attached journal.state.placed x ∧ key.issuer = some x) :
    (listRow journal parent key).1.Faultless ∧
      (listRow journal parent key).1.state.Arranged (loose \ {key.ident}) ∧
      Listed journal.state (listRow journal parent key).1.state key
        (parent.map Fingerprint.ident) := by
  have hplaced : ∀ o ∈ journal.state.placed key.ident, o = parent.map Fingerprint.ident := by
    intro o ho
    rcases hkey with hloose | ⟨hplaced, -⟩
    · rw [hstate.vacant _ hloose] at ho
      contradiction
    · rw [hplaced] at ho
      exact (Option.some.inj ho).symm
  unfold listRow
  cases hslot : (journal.state.rows parent).search key.fingerprint with
  | taken row =>
    have htaken := placed_of_taken hstate hslot
    have hnot : key.ident ∉ loose := fun hloose => by
      rw [hstate.vacant _ hloose] at htaken
      contradiction
    have hafter := hstate.putRow hslot (hkey.resolve_left hnot).2 fun x hx => (hparent x hx).2
    have hstored : key ∈ (journal.state.putRow parent key (.taken row)).stored := by
      rw [stored_putRow, Bucket.mem_put hstate.stored_sorted]
      exact .inl rfl
    rw [Set.sdiff_singleton_eq_self hnot]
    exact ⟨(h.update _).announce hafter.consistent
      ⟨key, hstored, getElem?_rows_putRow hstate hslot⟩, hafter, listed_putRow hstate hslot hplaced⟩
  | free row =>
    have hloose : key.ident ∈ loose :=
      hkey.resolve_right fun hplaced => not_placed_of_free hstate hslot hplaced.1
    have hafter := hstate.bringIn hloose hslot hnamed hparent
    exact ⟨h.insert hstate.consistent hafter.consistent (length_rows_bringIn hstate hslot), hafter,
      listed_bringIn hstate hslot hplaced⟩

/-- Taking out the row of an attached key makes the key loose. -/
theorem unlistRow_spec (h : journal.Faultless) (hstate : journal.state.Arranged loose)
    (hkey : key ∈ journal.state.under o) (hattached : Attached journal.state.placed key.ident)
    (hf : f.ident = key.ident) :
    (unlistRow journal f).2 = some key ∧ (unlistRow journal f).1.Faultless ∧
      (unlistRow journal f).1.state.Arranged (insert f.ident loose) ∧
      Unlisted journal.state (unlistRow journal f).1.state f.ident := by
  have hplaced := hstate.placed_of_mem hkey
  rw [← hf] at hattached hplaced
  obtain ⟨index, hindex, rfl⟩ := hstate.exists_placeOf hplaced
  obtain ⟨found, hrow, hfound⟩ := hstate.getElem?_placeOf hindex
  have hrow' := hrow
  rw [rows_eq] at hrow'
  obtain rfl : found = key :=
    (hstate.rows_sorted _).eq_of_ident (List.mem_of_getElem? hrow') hkey (hfound.trans hf)
  have hafter := hstate.takeOut hindex hattached
  unfold unlistRow
  rw [hindex]
  exact ⟨hrow, h.remove hstate.consistent hafter.consistent (length_rows_takeOut hrow), hafter,
    unlisted_takeOut hstate hindex⟩

/-! ### Finding a new place -/

theorem placed_rewait (forest : Forest) (former : Option Fingerprint) (target : Target) (key : Key) :
    (forest.rewait former target key).placed = forest.placed := by
  rw [rewait_eq]
  rfl

theorem under_rewait (forest : Forest) (former : Option Fingerprint) (target : Target) (key : Key) :
    (forest.rewait former target key).under = forest.under := by
  rw [rewait_eq]
  exact under_congr rfl rfl

theorem inTransit_rewait (forest : Forest) (former : Option Fingerprint) (target : Target)
    (key : Key) : (forest.rewait former target key).inTransit = forest.inTransit := by
  rw [rewait_eq]

theorem Arranged.rewait (h : before.Arranged loose) (former : Option Fingerprint) (target : Target)
    (key : Key) : (before.rewait former target key).Arranged loose := by
  rw [rewait_eq]
  exact h.frame rfl rfl rfl rfl

/-- Where a key waits depends on the table of waiting keys only. -/
theorem waiting_rewait (h : after.waiting = before.waiting) (former : Option Fingerprint)
    (target : Target) (key : Key) :
    (after.rewait former target key).waiting = (before.rewait former target key).waiting := by
  have hforget (issuer f : Fingerprint) :
      (after.forgetOrphan issuer f).waiting = (before.forgetOrphan issuer f).waiting := by
    have hwaiting : after.waitingFor issuer = before.waitingFor issuer := by
      rw [waitingFor, waitingFor, h]
    simp only [forgetOrphan, hwaiting]
    by_cases hempty : ((before.waitingFor issuer).erase f).isEmpty <;> simp [hempty, h]
  have hended (issuer : Option Fingerprint) (f : Fingerprint) :
      (after.endWait issuer f).waiting = (before.endWait issuer f).waiting := by
    cases issuer with
    | none => exact h
    | some issuer => exact hforget issuer f
  cases target with
  | orphan issuer => simp only [Forest.rewait, await, waitingFor, hended]
  | topLevel | under issuer => exact hended _ _

/-- A key without a place has no row either. -/
theorem unlisted_self (h : before.Arranged loose) (hplaced : before.placed f.ident = none) :
    Unlisted before before f.ident where
  placed_eq := by rw [vacate, ← hplaced, Function.update_eq_self]
  mem_under := by
    intro o child
    refine ⟨fun hchild => ⟨hchild, fun hident => ?_⟩, And.left⟩
    have hplaced' := h.placed_of_mem hchild
    rw [hident, hplaced] at hplaced'
    contradiction
  waiting_eq := rfl
  inTransit_eq := rfl

/-- A key stays where its target has it, and has no row otherwise. -/
theorem leaveOldPlace_spec (target : Target) (h : journal.Faultless)
    (hstate : journal.state.Arranged loose)
    (hplaced : (journal.state.placed f.ident).isSome → Attached journal.state.placed f.ident) :
    leaveOldPlace journal f target = journal ∧
        journal.state.placed f.ident = some (target.parent.map Fingerprint.ident) ∨
      (leaveOldPlace journal f target).Faultless ∧
        (leaveOldPlace journal f target).state.Arranged (insert f.ident loose) ∧
        Unlisted journal.state (leaveOldPlace journal f target).state f.ident := by
  unfold leaveOldPlace
  cases hget : journal.state.parents.get? f with
  | none =>
    have hnone := get?_parents_eq_none.mp hget
    exact .inr ⟨h, hstate.loosen hnone, unlisted_self hstate hnone⟩
  | some parent =>
    have hplaced' := placed_of_get? hget
    dsimp only
    split
    · rename_i hsame
      rw [hplaced', sameParent_iff.mp hsame]
      exact .inl ⟨rfl, rfl⟩
    · obtain ⟨old, hold, hident⟩ := (hstate.rowsMatch _ _).mp hplaced'
      have hattached := hplaced (by rw [hplaced']; rfl)
      exact .inr (unlistRow_spec h hstate hold (hident ▸ hattached) hident.symm).2

/-- A key that had no place, or an attached one, finds its new place. -/
theorem relist_spec (former : Option Fingerprint) (target : Target) (h : journal.Faultless)
    (hstate : journal.state.Arranged loose) (hnamed : key.ident ≠ [])
    (hplaced : (journal.state.placed key.ident).isSome → Attached journal.state.placed key.ident)
    (hparent : ∀ x ∈ target.parent.map Fingerprint.ident, Attached journal.state.placed x ∧
      ¬ Hangs journal.state.placed key.ident x ∧ key.issuer = some x) :
    (relist journal former target key).1.Faultless ∧
      (relist journal former target key).1.state.Arranged (loose \ {key.ident}) ∧
      Listed (journal.state.rewait former target key)
        (relist journal former target key).1.state key (target.parent.map Fingerprint.ident) := by
  unfold relist
  rcases leaveOldPlace_spec target h hstate hplaced with
    ⟨hstays, hthere⟩ | ⟨hfaultless, harranged, hunlisted⟩
  · rw [hstays]
    refine listRow_spec _ _ (h.update _) (hstate.rewait former target key) (.inr ?_) hnamed
      fun x hx => ?_
    · rw [Journal.state_update, placed_rewait]
      exact ⟨hthere, hplaced (by rw [hthere]; rfl)⟩
    · rw [Journal.state_update, placed_rewait]
      exact ⟨(hparent x hx).1, (hparent x hx).2.2⟩
  · obtain ⟨hfaultless', harranged', hlisted⟩ := listRow_spec target.parent key
      (hfaultless.update (·.rewait former target key))
      (harranged.rewait former target key) (.inl (Set.mem_insert _ _)) hnamed fun x hx => by
        obtain ⟨hx, hnot, hissuer⟩ := hparent x hx
        rw [Journal.state_update, placed_rewait, hunlisted.placed_eq]
        exact ⟨attached_vacate.mpr ⟨hx, hnot⟩, hissuer⟩
    rw [Set.insert_sdiff_of_mem _ (Set.mem_singleton _)] at harranged'
    refine ⟨hfaultless', harranged', ?_, fun {o child} => ?_, ?_, ?_⟩
    · rw [hlisted.placed_eq, Journal.state_update, placed_rewait, hunlisted.placed_eq,
        placed_rewait]
      exact Function.update_idem _ _ _
    · rw [hlisted.mem_under, Journal.state_update, under_rewait, hunlisted.mem_under, under_rewait]
      tauto
    · rw [hlisted.waiting_eq, Journal.state_update]
      exact waiting_rewait hunlisted.waiting_eq _ _ _
    · rw [hlisted.inTransit_eq, Journal.state_update, inTransit_rewait, hunlisted.inTransit_eq,
        inTransit_rewait]

end KeyForest.Forest
