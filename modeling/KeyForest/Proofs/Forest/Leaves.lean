import KeyForest.Proofs.Forest.Canonical
import KeyForest.Proofs.Forest.Steps

/-!
# Removing a key without children

When a key is removed that has no children, its row goes and no other row moves (`LacksLeaf`). The
keys that name it as their issuer wait for it from then on. These can only have been cut from a
cycle: the others that name it would be its children. The observers are told of the row that goes
and then of the keys that wait (`run_removeLeaf`).
-/
namespace KeyForest

namespace Bucket

variable {keys : Bucket} {key : Key} {f : Fingerprint}

/-- The keys without the one that has the fingerprint. -/
def others (keys : Bucket) (f : Fingerprint) : Bucket :=
  keys.filter fun key => !(key.fingerprint == f)

/-- The keys that name the fingerprint as their issuer. -/
def naming (keys : Bucket) (f : Fingerprint) : Bucket :=
  keys.filter fun key => sameParent key.cleanIssuer (some f)

/-- The entry for a list of keys in a table; there is none for no keys. -/
def filed? (keys : Bucket) : Option Bucket := if keys.isEmpty then none else some keys

theorem mem_others : key ∈ keys.others f ↔ key ∈ keys ∧ key.ident ≠ f.ident := by
  simp [others, List.mem_filter]

theorem mem_naming : key ∈ keys.naming f ↔ key ∈ keys ∧ key.issuer = some f.ident := by
  rw [naming, List.mem_filter, sameParent_iff]
  rfl

theorem IsSorted.others (h : keys.IsSorted) (f : Fingerprint) : (keys.others f).IsSorted :=
  h.filter _

theorem IsSorted.naming (h : keys.IsSorted) (f : Fingerprint) : (keys.naming f).IsSorted :=
  h.filter _

end Bucket

/-- A table without empty lists has an entry for every list that is not empty. -/
theorem Table.value?_eq_filed? {table : Table Bucket} (h : ∀ entry ∈ table, entry.2 ≠ [])
    (x : Ident) : table.value? x = Bucket.filed? ((table.value? x).getD []) := by
  cases hvalue : table.value? x with
  | none => rfl
  | some keys =>
    obtain ⟨f, hmem, -⟩ := Table.exists_mem_of_value? hvalue
    rw [Option.getD_some, Bucket.filed?, if_neg]
    exact fun hempty => h _ hmem (List.isEmpty_iff.mp hempty)

namespace Forest

open Placements

variable {forest before after : Forest} {outline : Outline} {journal : Journal Forest}
  {f : Fingerprint} {key : Key} {index : RowIndex}

/-- A forest after the removal of a leaf. -/
structure LacksLeaf (before after : Forest) (f : Fingerprint) : Prop where
  stored_eq : after.stored = before.stored.others f
  topLevel_eq : after.topLevel = before.topLevel.others f
  /-- A parent that has lost its only child has no entry. -/
  children_eq : ∀ parent,
    after.children.get? parent = ((before.childrenOf parent).others f).filed?
  parents_eq : after.parents = before.parents.erase f
  /-- No key waited for the leaf before; all keys that name it wait for it after. -/
  waiting_eq : before.waiting.get? f = none ∧ ∀ issuer, after.waiting.get? issuer =
    if issuer == f then (before.stored.naming f).filed?
    else ((before.waitingFor issuer).others f).filed?
  /-- No fingerprint has a second entry. -/
  sorted : after.children.IsSorted ∧ after.waiting.IsSorted
  inTransit_eq : after.inTransit = before.inTransit

/-- What is told when a leaf is removed: its row goes, and then the rows of the keys that wait for
it have changed. -/
structure TellsOfLeaf (before after : Journal Forest) (f : Fingerprint) (key : Key)
    (index : RowIndex) (seen : Forest) (rows : List ℕ) : Prop where
  index_eq : before.state.placeOf f = some index
  keyAt_eq : Listing.keyAt before.state index = some key
  /-- Once the row is gone, the rows are seen as they stay. -/
  seen_rows : SameRows seen after.state
  ascending : (before.state.stored.naming f).IsSorted
  /-- The rows told of are those of the keys that name the leaf, in their order. -/
  rows_eq : rows.map (fun row => Listing.keyAt after.state (.top row)) =
    (before.state.stored.naming f).map some
  entries_eq : after.entries = before.entries ++
    .notice (.aboutToRemove index.parent index.row index.row) before.state ::
    .notice (.removed index.parent index.row index.row) seen ::
    rows.map fun row => .notice (.dataChanged none row) after.state

/-! ### What is left -/

section Left

variable (h : before.Settled outline) (h' : after.Settled (outline.drop f))
  (hproper : outline.Proper)
include h h' hproper

theorem stored_drop : after.stored = before.stored.others f := by
  rw [h.stored_eq hproper.sorted, h'.stored_eq (hproper.drop f).sorted]
  refine (hproper.drop f).sorted.ext (hproper.sorted.others f) fun key => ?_
  rw [Outline.drop, Bucket.mem_erase hproper.sorted, Bucket.mem_others]

theorem under_drop (hleaf : before.under (some f.ident) = []) (o : Option Ident) :
    after.under o = (before.under o).others f := by
  refine (h'.arranged.rows_sorted o).ext ((h.arranged.rows_sorted o).others f) fun key => ?_
  rw [Bucket.mem_others, h'.mem_under, h.mem_under, Outline.drop,
    Bucket.mem_erase hproper.sorted, and_right_comm, and_congr_left_iff]
  intro hne
  rw [← Outline.drop, Outline.up_drop hproper (h.under_eq_nil_iff.mp hleaf) hne]

theorem awaiting_drop (issuer : Fingerprint) :
    after.awaiting issuer.ident = if issuer == f then before.stored.naming f
      else (before.awaiting issuer.ident).others f := by
  have hmem {key : Key} : key ∈ after.awaiting issuer.ident ↔ (key ∈ outline.keys ∧
      key.ident ≠ f.ident) ∧ key.issuer = some issuer.ident ∧
        ¬ (outline.Has issuer.ident ∧ issuer.ident ≠ f.ident) := by
    rw [h'.waits.awaiting_iff, Set.mem_ofPred_eq, Outline.has_drop hproper, Outline.drop,
      Bucket.mem_erase hproper.sorted]
  by_cases hissuer : issuer.ident = f.ident
  · rw [if_pos (Fingerprint.beq_iff.mpr hissuer)]
    refine (h'.waits.ascends _).ext (h.arranged.stored_sorted.naming f) fun key => ?_
    rw [hmem, Bucket.mem_naming, h.stored_eq hproper.sorted, hissuer]
    constructor
    · rintro ⟨⟨hkey, -⟩, hnames, -⟩
      exact ⟨hkey, hnames⟩
    · rintro ⟨hkey, hnames⟩
      exact ⟨⟨hkey, (Key.issuer_ne hnames).1.symm⟩, hnames, fun hnot => hnot.2 rfl⟩
  · rw [if_neg (mt Fingerprint.beq_iff.mp hissuer)]
    refine (h'.waits.ascends _).ext ((h.waits.ascends _).others f) fun key => ?_
    rw [hmem, Bucket.mem_others, h.waits.awaiting_iff, Set.mem_ofPred_eq]
    tauto

theorem lacksLeaf (hleaf : before.under (some f.ident) = []) (hf : outline.Has f.ident)
    (hparents : after.parents = before.parents.erase f) : before.LacksLeaf after f where
  stored_eq := stored_drop h h' hproper
  topLevel_eq := under_drop h h' hproper hleaf none
  children_eq parent := by
    rw [Table.get?_eq, Table.value?_eq_filed? h'.arranged.children_nonempty, childrenOf_eq,
      ← under_drop h h' hproper hleaf]
    rfl
  parents_eq := hparents
  waiting_eq := by
    refine ⟨?_, fun issuer => ?_⟩
    · rw [Table.get?_eq, Table.value?_eq_filed? h.waits.nonempty]
      exact congrArg Bucket.filed? (Shows.awaiting_eq_nil h hf)
    · rw [Table.get?_eq, Table.value?_eq_filed? h'.waits.nonempty, waitingFor_eq]
      refine (congrArg Bucket.filed? (awaiting_drop h h' hproper issuer)).trans ?_
      exact apply_ite Bucket.filed? _ _ _
  sorted := ⟨h'.arranged.children_sorted, h'.waits.sorted⟩
  inTransit_eq := by rw [h.inTransit_eq, h'.inTransit_eq]

end Left

/-! ### What is told -/

/-- The notices that rows at the top level have changed. -/
theorem filterMap_dataNotice?_top (h : forest.Settled outline) {keys : List Key}
    (hkeys : ∀ key ∈ keys, key ∈ forest.topLevel) : ∃ rows : List ℕ,
      rows.map (fun row => Listing.keyAt forest (.top row)) = keys.map some ∧
        (keys.map Key.fingerprint).filterMap forest.dataNotice? =
          rows.map fun row => (.dataChanged none row, forest) := by
  induction keys with
  | nil => exact ⟨[], rfl, rfl⟩
  | cons key keys ih =>
    obtain ⟨hkey, hkeys⟩ := List.forall_mem_cons.mp hkeys
    obtain ⟨rows, hrows, hnotices⟩ := ih hkeys
    obtain ⟨row, hrow⟩ := List.mem_iff_getElem?.mp hkey
    have hspot := h.arranged.spot_placeOf (o := none) hrow rfl
    obtain ⟨⟨parent, found⟩, hplace, hfound⟩ := Option.map_eq_some_iff.mp hspot
    simp only [RowIndex.spot, Prod.mk.injEq, Option.map_eq_none_iff] at hfound
    obtain ⟨rfl, rfl⟩ := hfound
    refine ⟨found :: rows, ?_, ?_⟩
    · rw [List.map_cons, List.map_cons, hrows]
      exact congrArg (· :: _) hrow
    · rw [List.map_cons, List.filterMap_cons, hnotices, dataNotice?, hplace]
      rfl

/-- Parking changes who waits, and tells of the keys that are parked. -/
theorem park_eq (journal : Journal Forest) (f : Fingerprint) :
    SameRows (park journal f).state journal.state ∧ (park journal f).entries = journal.entries ++
      (((journal.state.topLevel.naming f).map Key.fingerprint).filterMap
        (park journal f).state.dataNotice?).map fun notice => .notice notice.1 notice.2 := by
  have hpark : park journal f = if (journal.state.topLevel.naming f).isEmpty then journal else
      ((journal.state.topLevel.naming f).map Key.fingerprint).foldl announceData
        (journal.update fun forest =>
          { forest with waiting := forest.waiting.put f (journal.state.topLevel.naming f) }) := rfl
  rw [hpark]
  split
  · rename_i hempty
    rw [List.isEmpty_iff.mp hempty]
    exact ⟨⟨rfl, rfl, rfl, rfl⟩, by simp⟩
  · obtain ⟨hstate, hentries⟩ := foldl_announceData_eq (journal.update fun forest =>
      { forest with waiting := forest.waiting.put f (journal.state.topLevel.naming f) })
      ((journal.state.topLevel.naming f).map Key.fingerprint)
    rw [hstate, hentries]
    exact ⟨⟨rfl, rfl, rfl, rfl⟩, rfl⟩

/-- The keys that are parked are all that name the leaf. -/
theorem naming_dropLeaf (hstate : forest.Settled outline) (hproper : outline.Proper)
    (hleaf : forest.under (some f.ident) = []) (hindex : forest.placeOf f = some index)
    (hkey : Listing.keyAt forest index = some key) :
    (forest.dropLeaf index f key.cleanIssuer).topLevel.naming f = forest.stored.naming f := by
  have hshows := shows_dropLeaf hstate hproper hleaf hindex hkey
  have hgone : ¬ (outline.drop f).Has f.ident := by simp [Outline.has_drop hproper]
  refine ((hshows.arranged.rows_sorted none).naming f).ext
    (hstate.arranged.stored_sorted.naming f) fun child => ?_
  refine (hshows.mem_filter_top (hproper.drop f) hgone).trans ?_
  rw [Bucket.mem_naming, hstate.stored_eq hproper.sorted, Outline.drop,
    Bucket.mem_erase hproper.sorted]
  exact and_congr_left fun hissuer => and_iff_left (Key.issuer_ne hissuer).1.symm

/-- A leaf is removed in two steps: its row is taken out, and the keys that name it are parked. -/
theorem removeLeaf_eq_park (h : journal.Faultless) (hstate : journal.state.Settled outline)
    (hproper : outline.Proper) (hleaf : journal.state.under (some f.ident) = [])
    (hindex : journal.state.placeOf f = some index)
    (hkey : Listing.keyAt journal.state index = some key) : removeLeaf journal f = park
      (((journal.announce (.aboutToRemove index.parent index.row index.row)).update
        (·.dropLeaf index f key.cleanIssuer)).announce
          (.removed index.parent index.row index.row)) f := by
  have hf : outline.Has f.ident := by
    rw [← hstate.attached_iff]
    refine (hstate.arranged.grounded _ ?_).resolve_right (by simp)
    rw [placed_of_placeOf hindex, Option.isSome_some]
  have hsettled := (removeLeaf_spec h hstate hproper hf hleaf).2
  unfold removeLeaf at hsettled ⊢
  rw [hindex] at hsettled ⊢
  dsimp only at hsettled ⊢
  rw [hkey, Option.bind_some] at hsettled ⊢
  rw [checkSound, Journal.state_check] at hsettled
  exact check_sound hsettled (hproper.drop f)

theorem removeLeaf_told (h : journal.Faultless) (hstate : journal.state.Settled outline)
    (hproper : outline.Proper) (hleaf : journal.state.under (some f.ident) = [])
    (hkey : key ∈ journal.state.stored) (hident : key.ident = f.ident) :
    (removeLeaf journal f).state.parents = journal.state.parents.erase f ∧
      ∃ index seen rows, TellsOfLeaf journal (removeLeaf journal f) f key index seen rows := by
  obtain ⟨o, ho⟩ := hstate.mem_stored.mp hkey
  have hplaced := hstate.arranged.placed_of_mem ho
  rw [hident] at hplaced
  obtain ⟨index, hindex, rfl⟩ := hstate.arranged.exists_placeOf hplaced
  obtain ⟨found, hfound, hsame⟩ := hstate.arranged.getElem?_placeOf hindex
  have hrow := List.mem_of_getElem? hfound
  rw [rows_eq] at hrow
  obtain rfl := (hstate.arranged.row_unique hrow ho (hsame.trans hident.symm)).2
  have hf : outline.Has f.ident := by
    rw [hstate.stored_eq hproper.sorted] at hkey
    exact ⟨found, hkey, hident⟩
  have hsettled := (removeLeaf_spec h hstate hproper hf hleaf).2
  have hnaming := naming_dropLeaf hstate hproper hleaf hindex hfound
  rw [removeLeaf_eq_park h hstate hproper hleaf hindex hfound] at hsettled ⊢
  obtain ⟨hrows, hentries⟩ := park_eq (((journal.announce
    (.aboutToRemove index.parent index.row index.row)).update
      (·.dropLeaf index f found.cleanIssuer)).announce
        (.removed index.parent index.row index.row)) f
  generalize park _ f = after at hsettled hrows hentries ⊢
  rw [Journal.state_announce, Journal.state_update, Journal.state_announce] at hrows hentries
  rw [hnaming] at hentries
  have htop : ∀ child ∈ journal.state.stored.naming f, child ∈ after.state.topLevel := by
    intro child hchild
    rw [← hnaming, ← hrows.topLevel_eq] at hchild
    exact List.mem_of_mem_filter hchild
  obtain ⟨rows, hkeys, htold⟩ := filterMap_dataNotice?_top hsettled htop
  refine ⟨?_, index, _, rows, hindex, hfound, ⟨hrows.1.symm, hrows.2.symm, hrows.3.symm,
    hrows.4.symm⟩, hstate.arranged.stored_sorted.naming f, hkeys, ?_⟩
  · rw [hrows.parents_eq, dropLeaf, endWait_eq]
    exact parents_detach _ _ _
  · rw [hentries, htold]
    simp

/-! ### Runs -/

/-- After any run, removing a key without children, in whatever spelling, takes its row out, lets
the keys that name it wait for it, and tells of just that. Removing a key that is not there does
nothing. -/
theorem run_removeLeaf (operations : List Operation) (f : Fingerprint) :
    let before : Journal Forest := Operation.run operations
    let after : Journal Forest := Operation.run (operations ++ [.remove f])
    (∀ key ∈ before.state.stored, (key.fingerprint == f) = true →
      before.state.childrenOf f = [] → before.state.LacksLeaf after.state f ∧
        ∃ index seen rows, TellsOfLeaf before after f key index seen rows) ∧
    ((∀ key ∈ before.state.stored, (key.fingerprint == f) = false) ∨ f.isEmpty = true →
      after = before) := by
  intro before after
  obtain ⟨h, hstate⟩ := run_spec operations
  have hproper := Outline.proper_afterRun operations
  have hafter : after = remove before f := Operation.run_concat operations (.remove f)
  refine ⟨fun key hkey hf hleaf => ?_, fun hgone => ?_⟩
  · have hident := Fingerprint.beq_iff.mp hf
    have hstored := (Bucket.has_iff hstate.arranged.stored_sorted).mpr ⟨key, hkey, hident⟩
    have hhas := hstate.has_stored.mp hstored
    have hremove : after = removeLeaf before f := by
      rw [hafter, remove, hstored, hleaf]
      rfl
    rw [childrenOf_eq] at hleaf
    obtain ⟨hparents, htold⟩ := removeLeaf_told h hstate hproper hleaf hkey hident
    rw [hremove]
    exact ⟨lacksLeaf hstate (removeLeaf_spec h hstate hproper hhas hleaf).2 hproper hleaf hhas
      hparents, htold⟩
  · have hstored : before.state.stored.has f = false := by
      rw [← Bool.not_eq_true, Bucket.has_iff hstate.arranged.stored_sorted]
      rintro ⟨key, hkey, hident⟩
      rcases hgone with hgone | hempty
      · exact Fingerprint.beq_false_iff.mp (hgone key hkey) hident
      · rw [hstate.stored_eq hproper.sorted] at hkey
        rw [Fingerprint.isEmpty_iff.mp hempty] at hident
        exact hproper.named key hkey hident
    rw [hafter, remove, hstored]
    rfl

/-- Of two keys that name each other the second is cut when it comes. When the first is removed, the
second waits for it. -/
theorem run_removeLeaf_of_cycle :
    let first := (Key.ofFingerprint (.ofText "A")).issuedBy (.ofText "AB")
    let second := (Key.ofFingerprint (.ofText "AB")).issuedBy (.ofText "A")
    let before : Journal Forest := Operation.run [.addOne first, .addOne second]
    let after : Journal Forest :=
      Operation.run [.addOne first, .addOne second, .remove (.ofText "a")]
    before.state.LacksLeaf after.state (.ofText "a") ∧
      after.state.waitingFor (.ofText "A") = [second] := by
  intro first second before after
  have hmem : first ∈ before.state.stored := by decide +kernel
  have hleaf : before.state.childrenOf (.ofText "a") = [] := by decide +kernel
  obtain ⟨hlacks, -⟩ := (run_removeLeaf [.addOne first, .addOne second] (.ofText "a")).1 first hmem
    (by decide) hleaf
  exact ⟨hlacks, by decide +kernel⟩

end Forest

end KeyForest
