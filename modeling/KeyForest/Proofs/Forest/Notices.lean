import KeyForest.Proofs.Forest.Steps

/-!
# What is told when a key is delivered

Every function that writes to the journal of a forest tells of certain changes, and the journal
before is a beginning of the journal after. A key that sets out is told in three notices
(`promote_tells`), and so is a moving key that is listed again (`place_promoted_tells`). In between
no notice speaks of a move (`Quiet`).
-/
namespace KeyForest.Forest

open Placements Listing

variable {forest : Forest} {outline : Outline} {journal : Journal Forest} {placing : Placing}
  {loose : Set Ident} {moving orphans rest : List Key} {there : Set Ident} {key orphan : Key}
  {parent : Option Fingerprint} {f : Fingerprint} {p : Ident} {row : ℕ} {index : RowIndex}
  {told : List (Change × Forest)}

/-- No row is told to set out or to have arrived. -/
def Quiet (told : List (Change × Forest)) : Prop := ∀ notice ∈ told, ¬ notice.1.IsRemark

/-! ### Rows -/

theorem unlistRow_of_place (hindex : journal.state.placeOf f = some index) :
    unlistRow journal f = (((journal.announce
      (.aboutToRemove index.parent index.row index.row)).update (·.takeOut index f)).announce
        (.removed index.parent index.row index.row), keyAt journal.state index) := by
  unfold unlistRow
  rw [hindex]

theorem listRow_of_free (hslot : (journal.state.rows parent).search key.fingerprint = .free row) :
    listRow journal parent key = (((journal.announce (.aboutToInsert parent row row)).update
      (·.bringIn parent key (.free row))).announce (.inserted parent row row), row) := by
  unfold listRow
  rw [hslot]

theorem leaveOldPlace_of_vacant (hplaced : journal.state.placed f.ident = none) (target : Target) :
    leaveOldPlace journal f target = journal := by
  unfold leaveOldPlace
  rw [get?_parents_eq_none.mpr hplaced]

/-- The last notice shows the row as it is listed. -/
theorem listRow_tells (journal : Journal Forest) (parent : Option Fingerprint) (key : Key) :
    ∃ told, (listRow journal parent key).1.notices = journal.notices ++ told ∧ Quiet told ∧
      (listRow journal parent key).1.state ∈ told.map (·.2) := by
  unfold listRow
  cases (journal.state.rows parent).search key.fingerprint with
  | taken row =>
    refine ⟨_, Journal.notices_announce _ _, ?_, ?_⟩ <;> simp [Quiet, Change.IsRemark]
  | free row =>
    refine ⟨[(.aboutToInsert parent row row, journal.state), (.inserted parent row row,
      journal.state.bringIn parent key (.free row))], ?_, ?_, ?_⟩ <;>
      simp [Quiet, Change.IsRemark]

theorem leaveOldPlace_tells (journal : Journal Forest) (f : Fingerprint) (target : Target) :
    ∃ told, (leaveOldPlace journal f target).notices = journal.notices ++ told ∧ Quiet told := by
  unfold leaveOldPlace
  split
  · split
    · exact ⟨[], by simp, by simp [Quiet]⟩
    · cases hindex : journal.state.placeOf f with
      | none => exact ⟨[], by simp [unlistRow, hindex], by simp [Quiet]⟩
      | some index =>
        rw [unlistRow_of_place hindex]
        refine ⟨[(.aboutToRemove index.parent index.row index.row, journal.state),
          (.removed index.parent index.row index.row, journal.state.takeOut index f)], ?_, ?_⟩ <;>
          simp [Quiet, Change.IsRemark]
  · exact ⟨[], by simp, by simp [Quiet]⟩

theorem relist_tells (journal : Journal Forest) (former : Option Fingerprint) (target : Target)
    (key : Key) : ∃ told, (relist journal former target key).1.notices = journal.notices ++ told ∧
      Quiet told ∧ (relist journal former target key).1.state ∈ told.map (·.2) := by
  obtain ⟨gone, hgone, hquiet⟩ := leaveOldPlace_tells journal key.fingerprint target
  obtain ⟨come, hcome, hquiet', hlast⟩ := listRow_tells
    ((leaveOldPlace journal key.fingerprint target).update (·.rewait former target key))
    target.parent key
  refine ⟨gone ++ come, ?_, List.forall_mem_append.mpr ⟨hquiet, hquiet'⟩, ?_⟩
  · rw [← List.append_assoc, ← hgone]
    exact hcome
  · rw [List.map_append]
    exact List.mem_append_right _ hlast

/-! ### Setting out -/

/-- The row of a key that sets out is seen at the top level, and goes. -/
theorem promote_tells (hshows : placing.journal.state.Shows outline moving there)
    (horphan : orphan ∈ outline.keys)
    (hplaced : placing.journal.state.placed orphan.ident = some none) :
    ∃ row gone, keyAt placing.journal.state (.top row) = some orphan ∧
      (promote placing orphan).journal.notices = placing.journal.notices ++
        [(.aboutToMove none row, placing.journal.state),
          (.aboutToRemove none row row, placing.journal.state), (.removed none row row, gone)] := by
  have harranged := hshows.arranged
  obtain ⟨⟨parent, row⟩, hindex, hparent⟩ :=
    harranged.exists_placeOf (f := orphan.fingerprint) hplaced
  obtain rfl : parent = none := Option.map_eq_none_iff.mp hparent
  obtain ⟨found, hrow, hident⟩ := harranged.getElem?_placeOf hindex
  obtain rfl := (harranged.row_unique (o := none) (List.mem_of_getElem? hrow)
    (hshows.mem_under_of_placed horphan hplaced) hident).2
  have hkey : keyAt placing.journal.state ⟨none, row⟩ = some found := hrow
  have hunlist := @unlistRow_of_place (placing.journal.announce (.aboutToMove none row)) _ _ hindex
  refine ⟨row, placing.journal.state.takeOut (.top row) found.fingerprint, hkey, ?_⟩
  unfold promote
  rw [hindex]
  dsimp only
  rw [Option.isNone_none, Journal.check_of_holds rfl, hunlist]
  dsimp only
  rw [Journal.state_announce, hkey]
  simp [RowIndex.top]

/-! ### Being listed -/

/-- For a loose key there is a free slot under every parent. -/
theorem exists_free_slot (h : forest.Arranged loose) (hloose : key.ident ∈ loose)
    (parent : Option Fingerprint) :
    ∃ row, (forest.rows parent).search key.fingerprint = .free row := by
  cases hslot : (forest.rows parent).search key.fingerprint with
  | free row => exact ⟨row, rfl⟩
  | taken row =>
    have hplaced := placed_of_taken h hslot
    rw [h.vacant _ hloose] at hplaced
    contradiction

/-- A moving key that is placed is listed under its issuer, in the spelling in which it names it. -/
theorem place_promoted_tells (h : placing.journal.Faultless)
    (hshows : placing.journal.state.Shows outline (key :: rest) { x | outline.Has x })
    (hnodup : ((key :: rest).map Key.ident).Nodup) (hissuer : key.issuer = some p)
    (hp : Attached placing.journal.state.placed p) :
    ∃ issuer row seen, key.cleanIssuer = some issuer ∧
      keyAt (place placing key .promoted).journal.state ⟨some issuer, row⟩ = some key ∧
      (place placing key .promoted).journal.notices = placing.journal.notices ++
        [(.aboutToInsert (some issuer) row row, seen),
          (.inserted (some issuer) row row, (place placing key .promoted).journal.state),
          (.moved (some issuer) row, (place placing key .promoted).journal.state)] := by
  obtain ⟨hfaultless, hreadies, hplaced, hqueue⟩ := started_promoted h hshows hnodup
  have hself : outline.Has key.ident := ⟨key, hshows.mem_keys.mpr (.inr List.mem_cons_self), rfl⟩
  have hnotices : (started placing key).journal.notices = placing.journal.notices := by
    rw [started_of_nobody (hshows.awaiting_eq_nil hself)]
    rfl
  rw [← hplaced] at hp
  rw [journal_place, if_pos rfl, listed, ← hnotices]
  generalize started placing key = started at *
  obtain ⟨issuer, htarget, -⟩ := Option.map_eq_some_iff.mp (hreadies.parent_target hissuer hp)
  have hclean := cleanIssuer_of_parent_targetOf htarget
  have harranged := hreadies.arranged.rewait (started.journal.state.formerIssuer key)
    (started.journal.state.targetOf key) key
  obtain ⟨row, hslot⟩ := exists_free_slot harranged ⟨key, List.mem_cons_self, rfl⟩ (some issuer)
  have hlist := @listRow_of_free (started.journal.update (·.rewait
    (started.journal.state.formerIssuer key) (started.journal.state.targetOf key) key)) _ _ _ hslot
  rw [relist, leaveOldPlace_of_vacant hreadies.vacant, htarget, hlist]
  refine ⟨issuer, row, started.journal.state.rewait (started.journal.state.formerIssuer key)
    (started.journal.state.targetOf key) key, hclean, getElem?_rows_bringIn harranged hslot, ?_⟩
  simp

/-! ### Batches -/

/-- The keys of a batch are delivered one by one, and then all rows are told to have changed below
which something was listed. -/
theorem add_tells (h : journal.Faultless) (hstate : journal.state.Settled outline)
    (hproper : outline.Proper) (keys : List Key) :
    ∃ logged : Journal Forest, logged.Faultless ∧ logged.state = journal.state ∧
      logged.notices = journal.notices ∧
      (KeyList.add journal keys).1.state = (delivered logged keys).journal.state ∧
      (KeyList.add journal keys).1.notices = (delivered logged keys).journal.notices ++
        (delivered logged keys).touched.fingerprints.filterMap
          (delivered logged keys).journal.state.dataNotice? := by
  rcases KeyList.add_cases journal keys with ⟨hempty, hadd⟩ | hadd
  · have hdelivered : delivered journal keys = ⟨journal, [], []⟩ := by
      rw [delivered, hempty]
      rfl
    rw [hadd]
    refine ⟨journal, h, rfl, rfl, ?_⟩
    rw [hdelivered]
    simp [Table.fingerprints]
  · have hlogged := h.log (.addingKeys (Bucket.ofBatch keys).length)
    refine ⟨journal.log (.addingKeys (Bucket.ofBatch keys).length), hlogged, rfl, by simp, ?_⟩
    have hlog : (journal.log (.addingKeys (Bucket.ofBatch keys).length)).state = journal.state := rfl
    rw [← hlog] at hstate
    generalize journal.log (.addingKeys (Bucket.ofBatch keys).length) = logged at *
    obtain ⟨-, hsettled⟩ := delivered_spec hlogged hstate hproper keys
    obtain ⟨hsame, hentries⟩ := foldl_announceData_eq (delivered logged keys).journal
      (delivered logged keys).touched.fingerprints
    have hmerge : (KeyList.add journal keys).1 =
        (delivered logged keys).touched.fingerprints.foldl announceData
          (delivered logged keys).journal := by
      rw [hadd]
      refine (merge_ofBatch logged keys).trans (check_sound ?_ (hproper.add keys))
      rw [hsame]
      exact hsettled
    rw [hmerge]
    exact ⟨hsame, Journal.notices_of_entries hentries⟩

end KeyForest.Forest
