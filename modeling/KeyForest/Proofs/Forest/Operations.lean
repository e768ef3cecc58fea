import KeyForest.Forest.Update
import KeyForest.Proofs.Forest.Defects

/-!
# Operations on a forest

Every operation takes a faultless journal of a forest at rest to a faultless journal of a forest at
rest, which shows the outline after the operation (`run_spec`).
-/
namespace KeyForest.Forest

open Placements

variable {forest : Forest} {outline : Outline} {journal : Journal Forest} {f : Fingerprint}
  {key : Key} {there : Set Ident} {index : RowIndex} {x : Ident}

theorem check_sound (hstate : journal.state.Settled outline) (hproper : outline.Proper) :
    checkSound journal = journal := by
  rw [checkSound, hstate.firstDefect_eq_none hproper]
  rfl

/-! ### Adding -/

theorem foldl_deliver_spec {placing : Placing} (h : placing.journal.Faultless)
    (hstate : placing.journal.state.Settled outline) (hproper : outline.Proper) {keys : List Key}
    (hkeys : ∀ key ∈ keys, key.ident ≠ []) :
    (keys.foldl deliver placing).journal.Faultless ∧
      (keys.foldl deliver placing).journal.state.Settled (keys.foldl Outline.deliver outline) := by
  induction keys generalizing placing outline with
  | nil => exact ⟨h, hstate⟩
  | cons key keys ih =>
    obtain ⟨hkey, hkeys⟩ := List.forall_mem_cons.mp hkeys
    obtain ⟨hfaultless, hsettled⟩ := deliver_spec h hstate hproper hkey
    exact ih hfaultless hsettled (hproper.deliver hkey) hkeys

theorem state_announceData (journal : Journal Forest) (f : Fingerprint) :
    (announceData journal f).state = journal.state := by
  unfold announceData
  split <;> rfl

/-- A key that is told to have changed is stored. -/
theorem faultless_announceData (h : journal.Faultless) (hstate : journal.state.Settled outline)
    (f : Fingerprint) : (announceData journal f).Faultless := by
  unfold announceData
  split
  · rename_i index hindex
    obtain ⟨key, hkey, -⟩ := hstate.arranged.getElem?_placeOf hindex
    refine h.announce hstate.arranged.consistent ⟨key, ?_, hkey⟩
    rw [rows_eq] at hkey
    exact hstate.mem_stored.mpr ⟨_, List.mem_of_getElem? hkey⟩
  · exact h

theorem foldl_announceData_spec (h : journal.Faultless) (hstate : journal.state.Settled outline)
    (fingerprints : List Fingerprint) :
    (fingerprints.foldl announceData journal).Faultless ∧
      (fingerprints.foldl announceData journal).state = journal.state := by
  induction fingerprints generalizing journal with
  | nil => exact ⟨h, rfl⟩
  | cons f fingerprints ih =>
    have hstate' : (announceData journal f).state.Settled outline := by
      rwa [state_announceData]
    obtain ⟨hfaultless, hsame⟩ := ih (faultless_announceData h hstate f) hstate'
    exact ⟨hfaultless, hsame.trans (state_announceData journal f)⟩

/-- The notice that the row of a key has changed, if it has one. -/
def dataNotice? (forest : Forest) (f : Fingerprint) : Option (Change × Forest) :=
  (forest.placeOf f).map fun index => (.dataChanged index.parent index.row, forest)

/-- Keys are told to have changed one after the other, and nothing else is done. -/
theorem foldl_announceData_eq (journal : Journal Forest) (fingerprints : List Fingerprint) :
    (fingerprints.foldl announceData journal).state = journal.state ∧
      (fingerprints.foldl announceData journal).entries = journal.entries ++
        (fingerprints.filterMap journal.state.dataNotice?).map
          fun notice => .notice notice.1 notice.2 := by
  induction fingerprints generalizing journal with
  | nil => simp
  | cons f fingerprints ih =>
    obtain ⟨hstate, hentries⟩ := ih (announceData journal f)
    have hfirst : (announceData journal f).entries = journal.entries ++
        (journal.state.dataNotice? f).toList.map fun notice => .notice notice.1 notice.2 := by
      unfold announceData dataNotice?
      cases journal.state.placeOf f <;> simp
    rw [state_announceData] at hstate hentries
    refine ⟨hstate, ?_⟩
    rw [List.foldl_cons, hentries, hfirst, List.filterMap_cons, List.append_assoc]
    cases journal.state.dataNotice? f <;> rfl

/-- The placing after all keys of a batch have been delivered. -/
def delivered (journal : Journal Forest) (keys : List Key) : Placing :=
  (Bucket.issuersFirst (Bucket.ofBatch keys)).foldl deliver ⟨journal, [], []⟩

/-- A batch is in order, and no key of it is left out. -/
theorem merge_ofBatch (journal : Journal Forest) (keys : List Key) :
    (merge journal (Bucket.ofBatch keys)).1 =
      checkSound ((delivered journal keys).touched.fingerprints.foldl announceData
        (delivered journal keys).journal) := by
  have hperm := Bucket.issuersFirst_perm (Bucket.ofBatch keys)
  have hlength : ((Bucket.issuersFirst (Bucket.ofBatch keys)).length ==
      (Bucket.ofBatch keys).length) = true := beq_iff_eq.mpr hperm.length_eq
  unfold merge
  rw [Journal.check_of_holds (Bucket.isSorted_eq_true.mpr (Bucket.isSorted_ofBatch keys))]
  dsimp only
  rw [Journal.check_of_holds hlength]
  rfl

theorem named_of_mem_issuersFirst {keys : List Key}
    (hkey : key ∈ Bucket.issuersFirst (Bucket.ofBatch keys)) : key.ident ≠ [] :=
  (Bucket.mem_of_mem_ofBatch ((Bucket.issuersFirst_perm _).mem_iff.mp hkey)).2

theorem delivered_spec (h : journal.Faultless) (hstate : journal.state.Settled outline)
    (hproper : outline.Proper) (keys : List Key) :
    (delivered journal keys).journal.Faultless ∧
      (delivered journal keys).journal.state.Settled (outline.add keys) :=
  @foldl_deliver_spec outline ⟨journal, [], []⟩ h hstate hproper _
    fun _ hkey => named_of_mem_issuersFirst hkey

theorem merge_spec (h : journal.Faultless) (hstate : journal.state.Settled outline)
    (hproper : outline.Proper) (keys : List Key) :
    (merge journal (Bucket.ofBatch keys)).1.Faultless ∧
      (merge journal (Bucket.ofBatch keys)).1.state.Settled (outline.add keys) := by
  obtain ⟨hfaultless, hsettled⟩ := delivered_spec h hstate hproper keys
  obtain ⟨htold, hsame⟩ := foldl_announceData_spec hfaultless hsettled
    (delivered journal keys).touched.fingerprints
  rw [merge_ofBatch, check_sound (hsame ▸ hsettled) (hproper.add keys)]
  exact ⟨htold, hsame ▸ hsettled⟩

theorem add_spec (h : journal.Faultless) (hstate : journal.state.Settled outline)
    (hproper : outline.Proper) (keys : List Key) :
    (KeyList.add journal keys).1.Faultless ∧
      (KeyList.add journal keys).1.state.Settled (outline.add keys) := by
  rcases KeyList.add_cases journal keys with ⟨hempty, hadd⟩ | hadd
  · have hsame : outline.add keys = outline := by
      rw [Outline.add, hempty]
      rfl
    rw [hadd, hsame]
    exact ⟨h, hstate⟩
  · rw [hadd]
    exact merge_spec (h.log _) hstate hproper keys

theorem clear_spec (h : journal.Faultless) (hstate : journal.state.Settled outline) :
    (clear journal).Faultless ∧ (clear journal).state.Settled {} :=
  ⟨h.reset hstate.arranged.consistent settled_empty.arranged.consistent, settled_empty⟩

/-! ### Removing a key without children -/

theorem subtree_of_leaf (hleaf : forest.under (some f.ident) = []) : forest.subtree f = [] := by
  unfold subtree
  cases forest.parents.length with
  | zero => rfl
  | succ levels => simp [below, childrenOf_eq, hleaf]

theorem dropLeaf_eq (hleaf : forest.under (some f.ident) = []) (index : RowIndex)
    (issuer : Option Fingerprint) :
    forest.dropLeaf index f issuer = (forest.takeOut index f).endWait issuer f := by
  have hdropped : (forest.dropRow index f).under (some f.ident) = [] := by
    rw [under_dropRow, under_detach, hleaf]
    split <;> rfl
  rw [dropLeaf, takeOut, subtree_walks, subtree_of_leaf hdropped]
  rfl

theorem Settled.under_eq_nil_iff (hstate : forest.Settled outline) :
    forest.under (some x) = [] ↔ ∀ y, outline.up y ≠ some (some x) := by
  rw [← hstate.placed_eq, List.eq_nil_iff_forall_not_mem]
  refine ⟨fun hnone y hy => ?_, fun hnone child hchild => ?_⟩
  · obtain ⟨child, hchild, -⟩ := (hstate.arranged.rowsMatch _ _).mp hy
    exact hnone child hchild
  · exact hnone _ (hstate.arranged.placed_of_mem hchild)

/-- Without the row of a leaf, the forest shows the outline without the leaf. -/
theorem Settled.shows_takeOut (hstate : forest.Settled outline) (hproper : outline.Proper)
    (hleaf : forest.under (some f.ident) = []) (hindex : forest.placeOf f = some index)
    (hf : outline.Has f.ident) {waiting : Table Bucket}
    (hwaits : ({ forest.takeOut index f with waiting := waiting } : Forest).Waits
      (outline.drop f).keys there) :
    ({ forest.takeOut index f with waiting := waiting } : Forest).Shows (outline.drop f) []
      there := by
  have harranged : forest.Arranged ∅ := by simpa using hstate.arranged
  have hunlisted := unlisted_takeOut harranged hindex
  have hleaf' : (forest.takeOut index f).under (some f.ident) = [] :=
    List.eq_nil_iff_forall_not_mem.mpr fun child hchild => by
      have := (hunlisted.mem_under.mp hchild).1
      simp [hleaf] at this
  have htaken := (harranged.takeOut hindex (hstate.attached_iff.mpr hf)).tighten hleaf'
  have hset : (insert f.ident ∅ : Set Ident) \ {f.ident} =
      { x | ∃ key ∈ ([] : List Key), key.ident = x } := by simp
  have hplaced (x : Ident) : (forest.takeOut index f).placed x = (outline.drop f).up x := by
    rw [hunlisted.placed_eq, hstate.placed_eq]
    by_cases hx : x = f.ident
    · rw [hx, vacate, Function.update_self, eq_comm, Outline.up_eq_none, Outline.has_drop hproper]
      simp
    · rw [vacate, Function.update_of_ne hx,
        Outline.up_drop hproper (hstate.under_eq_nil_iff.mp hleaf) hx]
  have hkeys {child : Key} : child ∈ (outline.drop f).keys ↔
      (∃ o, child ∈ (forest.takeOut index f).under o) ∨ child ∈ [] := by
    rw [Outline.drop, Bucket.mem_erase hproper.sorted, hstate.mem_keys]
    simp only [hunlisted.mem_under, exists_and_right, List.not_mem_nil, or_false]
  exact
    { arranged := by
        rw [hset] at htaken
        exact htaken.frame rfl rfl rfl rfl
      isMoving_iff := by
        intro x
        rw [← hstate.isMoving_iff, IsMoving, IsMoving]
        exact iff_of_eq (congrArg (fun marks => x ∈ Table.idents marks) hunlisted.inTransit_eq)
      placed_eq := fun {x} _ => hplaced x
      mem_keys := hkeys.trans (or_congr_left (exists_under_congr rfl rfl))
      waits := hwaits }

/-- The keys cut from a dropped leaf still have to be parked. -/
theorem shows_dropLeaf (hstate : forest.Settled outline) (hproper : outline.Proper)
    (hleaf : forest.under (some f.ident) = []) (hindex : forest.placeOf f = some index)
    (hkey : (forest.rows index.parent)[index.row]? = some key) :
    (forest.dropLeaf index f key.cleanIssuer).Shows (outline.drop f) [] { x | outline.Has x } := by
  have hident : f.ident = key.ident := by
    obtain ⟨found, hfound, hident⟩ := hstate.arranged.getElem?_placeOf hindex
    rw [hkey] at hfound
    cases hfound
    exact hident.symm
  have hmem : key ∈ outline.keys := by
    rw [rows_eq] at hkey
    exact hstate.mem_keys.mpr (.inl ⟨_, List.mem_of_getElem? hkey⟩)
  have hwaits : (forest.takeOut index f).Waits outline.keys { x | outline.Has x } :=
    hstate.waits.frame (unlisted_takeOut hstate.arranged hindex).waiting_eq
  have hforgot := hwaits.forget hproper.sorted hmem hident
  rw [endWait_eq] at hforgot
  rw [dropLeaf_eq hleaf, endWait_eq]
  exact hstate.shows_takeOut hproper hleaf hindex ⟨key, hmem, hident.symm⟩ hforgot

/-- The keys that name a key that is gone are at the top level. -/
theorem Shows.mem_filter_top (hshows : forest.Shows outline [] there) (hproper : outline.Proper)
    (hgone : ¬ outline.Has f.ident) {child : Key} :
    child ∈ forest.topLevel.filter (fun key => sameParent key.cleanIssuer (some f)) ↔
      child ∈ outline.keys ∧ child.issuer = some f.ident := by
  rw [List.mem_filter, sameParent_iff, ← under_none, hshows.mem_keys]
  simp only [List.not_mem_nil, or_false]
  refine ⟨fun ⟨hchild, hissuer⟩ => ⟨⟨none, hchild⟩, hissuer⟩, fun ⟨⟨o, hchild⟩, hissuer⟩ => ?_⟩
  have hplaced := hshows.arranged.placed_of_mem hchild
  have hkey : child ∈ outline.keys := hshows.mem_keys.mpr (.inl ⟨o, hchild⟩)
  have htop : outline.up child.ident = some none :=
    (Outline.up_eq_top hproper.sorted hkey).mpr (.inr fun p hp => by
      rw [hissuer] at hp
      cases hp
      exact hgone)
  rw [hshows.placed_eq (by simp), htop] at hplaced
  cases hplaced
  exact ⟨hchild, hissuer⟩

/-- The keys that name a key that is gone wait for it. -/
theorem park_spec (h : journal.Faultless) (hshows : journal.state.Shows outline [] there)
    (hproper : outline.Proper)
    (hthere : there \ {f.ident} = { x | outline.Has x }) :
    (park journal f).Faultless ∧ (park journal f).state.Settled outline := by
  have hgone : ¬ outline.Has f.ident := fun hhas => by
    have : f.ident ∈ there \ {f.ident} := by rwa [hthere]
    exact this.2 rfl
  have hmem (child : Key) : child ∈ journal.state.topLevel.filter
      (fun key => sameParent key.cleanIssuer (some f)) ↔
        child ∈ outline.keys ∧ child.issuer = some f.ident :=
    hshows.mem_filter_top hproper hgone
  unfold park
  generalize hcut : (journal.state.topLevel.filter fun key =>
    sameParent key.cleanIssuer (some f)) = cut at hmem ⊢
  dsimp only
  split
  · rename_i hempty
    have hnone (child : Key) (hchild : child ∈ outline.keys) : child.issuer ≠ some f.ident := by
      intro hissuer
      have hmem' := (hmem child).mpr ⟨hchild, hissuer⟩
      rw [List.isEmpty_iff.mp hempty] at hmem'
      contradiction
    have hwaits : journal.state.Waits outline.keys (there \ {f.ident}) := by
      refine ⟨hshows.waits.sorted, hshows.waits.nonempty, hshows.waits.ascends, fun {x child} => ?_⟩
      refine hshows.waits.awaiting_iff.trans (and_congr_right fun hchild => ?_)
      refine and_congr_right fun hissuer => not_congr ?_
      have hne : x ≠ f.ident := fun heq => hnone child hchild (heq ▸ hissuer)
      simp [hne]
    exact ⟨h, hshows.frame hshows.isMoving_iff (hthere ▸ hwaits)⟩
  · rename_i hnonempty
    have hsorted : Bucket.IsSorted cut := by
      rw [← hcut]
      exact (hshows.arranged.rows_sorted none).filter _
    have hwaits := hshows.waits.depart hsorted (fun hnil => hnonempty (by rw [hnil]; rfl)) hmem
    have hparked : ({ journal.state with waiting := journal.state.waiting.put f cut } :
        Forest).Settled outline := hshows.frame hshows.isMoving_iff (hthere ▸ hwaits)
    obtain ⟨hfaultless, hsame⟩ := foldl_announceData_spec
      (h.update fun forest => { forest with waiting := forest.waiting.put f cut }) hparked
      (cut.map (·.fingerprint))
    exact ⟨hfaultless, by rw [hsame]; exact hparked⟩

theorem removeLeaf_spec (h : journal.Faultless) (hstate : journal.state.Settled outline)
    (hproper : outline.Proper) (hf : outline.Has f.ident)
    (hleaf : journal.state.under (some f.ident) = []) :
    (removeLeaf journal f).Faultless ∧ (removeLeaf journal f).state.Settled (outline.drop f) := by
  have hattached := hstate.attached_iff.mpr hf
  obtain ⟨o, ho⟩ := Option.isSome_iff_exists.mp hattached.isSome
  obtain ⟨index, hindex, -⟩ := hstate.arranged.exists_placeOf ho
  obtain ⟨key, hkey, -⟩ := hstate.arranged.getElem?_placeOf hindex
  have hkeyAt : Listing.keyAt journal.state index = some key := hkey
  have hshows := shows_dropLeaf hstate hproper hleaf hindex hkey
  have hcount : ((journal.state.dropLeaf index f key.cleanIssuer).rows index.parent).length + 1 =
      (journal.state.rows index.parent).length := by
    have hunder : (journal.state.dropLeaf index f key.cleanIssuer).under =
        (journal.state.takeOut index f).under := by
      rw [dropLeaf_eq hleaf, endWait_eq]
      exact under_congr rfl rfl
    rw [rows_eq, hunder, ← rows_eq]
    exact length_rows_takeOut hkey
  have hremoved : (((journal.announce (.aboutToRemove index.parent index.row index.row)).update
      (·.dropLeaf index f key.cleanIssuer)).announce
        (.removed index.parent index.row index.row)).Faultless :=
    h.remove hstate.arranged.consistent hshows.arranged.consistent hcount
  have hthere : { x | outline.Has x } \ {f.ident} = { x | (outline.drop f).Has x } := by
    ext x
    simp [Outline.has_drop hproper]
  obtain ⟨hfaultless, hsettled⟩ := park_spec hremoved hshows (hproper.drop f) hthere
  unfold removeLeaf
  rw [hindex]
  dsimp only
  rw [hkeyAt, Option.bind_some, check_sound hsettled (hproper.drop f)]
  exact ⟨hfaultless, hsettled⟩

theorem remove_spec (h : journal.Faultless) (hstate : journal.state.Settled outline)
    (hproper : outline.Proper) (f : Fingerprint) :
    (remove journal f).Faultless ∧ (remove journal f).state.Settled (outline.remove f) := by
  have hrows : (journal.state.under (some f.ident)).isEmpty = true ↔
      ¬ ∃ x, outline.up x = some (some f.ident) := by
    rw [List.isEmpty_iff, hstate.under_eq_nil_iff, not_exists]
  unfold remove Outline.remove
  rw [childrenOf_eq]
  by_cases hf : outline.Has f.ident
  · rw [hstate.has_stored.mpr hf, Bool.not_true, if_neg Bool.false_ne_true]
    by_cases hleaf : (journal.state.under (some f.ident)).isEmpty
    · rw [if_pos hleaf, if_neg (hrows.mp hleaf)]
      exact removeLeaf_spec h hstate hproper hf (List.isEmpty_iff.mp hleaf)
    · rw [if_neg hleaf, if_pos (not_not.mp (mt hrows.mpr hleaf))]
      obtain ⟨hcleared, hempty⟩ := clear_spec (h.log (.rebuildingForest f
        (journal.state.stored.filter fun key => !(key.fingerprint == f)).length)) hstate
      rw [← hstate.stored_eq hproper.sorted]
      exact add_spec hcleared hempty Outline.proper_empty _
  · have hstored : journal.state.stored.has f = false :=
      Bool.not_eq_true _ ▸ mt hstate.has_stored.mp hf
    have hnone : ¬ ∃ x, outline.up x = some (some f.ident) := by
      rintro ⟨x, hx⟩
      obtain ⟨key, hkey, rfl⟩ := Outline.isSome_up.mp (Option.isSome_iff_exists.mpr ⟨_, hx⟩)
      exact hf ((Outline.up_eq_under hproper.sorted hkey).mp hx).2.1
    rw [hstored, if_neg hnone, Outline.drop_of_not_has hproper hf]
    exact ⟨h, hstate⟩

/-! ### Runs -/

/-- After any run the forest is at rest and shows the outline after the run, all changes on the way
were sound, and no assumption failed. -/
theorem run_spec (operations : List Operation) :
    (Operation.run operations : Journal Forest).Faultless ∧
      (Operation.run operations : Journal Forest).state.Settled (Outline.afterRun operations) := by
  induction operations using List.reverseRecOn with
  | nil => exact ⟨Journal.faultless_ofState _, settled_empty⟩
  | append_singleton operations operation ih =>
    obtain ⟨h, hstate⟩ := ih
    have hproper := Outline.proper_afterRun operations
    rw [Operation.run_concat, Outline.afterRun_concat]
    cases operation with
    | add keys => exact add_spec h hstate hproper keys
    | addOne key => exact add_spec h hstate hproper [key]
    | set keys =>
      obtain ⟨hcleared, hempty⟩ := clear_spec h hstate
      exact add_spec hcleared hempty Outline.proper_empty keys
    | remove f => exact remove_spec h hstate hproper f
    | clear => exact clear_spec h hstate

end KeyForest.Forest
