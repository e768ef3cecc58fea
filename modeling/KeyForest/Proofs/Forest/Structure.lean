import KeyForest.Proofs.Forest.Operations

/-!
# The structure of a forest after any run

A forest keeps its keys in several places at once: among the stored keys, in a row, and perhaps
among the keys that wait. After any run of operations these agree.
-/
namespace KeyForest.Forest

open Placements Listing

variable {forest : Forest} {outline : Outline}

/-- All parts of a forest agree. -/
structure Intact (forest : Forest) : Prop where
  noDefect : forest.firstDefect = none
  /-- A stored key has one row, and that can be reached from the top level. -/
  one_row : ∀ key ∈ forest.stored, ∃ index, (∃ depth above, Visible forest depth above index key) ∧
    ∀ other child, keyAt forest other = some child → (child.fingerprint == key.fingerprint) = true →
      other.same index = true
  /-- There are no other rows, and a row holds the key as it is stored. -/
  row_stored : ∀ parent, ∀ key ∈ forest.rows parent,
    forest.stored.lookup key.fingerprint = some key
  /-- A key is listed under no other key than its issuer. -/
  row_issued : ∀ parent, ∀ key ∈ forest.rows (some parent),
    sameParent key.cleanIssuer (some parent) = true
  /-- A key waits as it is stored. -/
  waiting_stored : ∀ issuer, ∀ key ∈ forest.waitingFor issuer,
    forest.stored.lookup key.fingerprint = some key

theorem Settled.lookup (h : forest.Settled outline) {key : Key} (hkey : key ∈ forest.stored) :
    forest.stored.lookup key.fingerprint = some key := by
  rw [Bucket.lookup_eq h.arranged.stored_sorted]
  exact h.arranged.stored_sorted.key?_eq_some.mpr ⟨hkey, rfl⟩

theorem Settled.mem_stored_of_row (h : forest.Settled outline) {parent : Option Fingerprint}
    {key : Key} (hkey : key ∈ forest.rows parent) : key ∈ forest.stored := by
  rw [rows_eq] at hkey
  exact h.mem_stored.mpr ⟨_, hkey⟩

/-- Rows that hold one key are the same row. -/
theorem Arranged.same_of_keyAt {loose : Set Ident} (h : forest.Arranged loose) {a b : RowIndex}
    {key other : Key} (ha : keyAt forest a = some key) (hb : keyAt forest b = some other)
    (hident : key.ident = other.ident) : a.same b = true := by
  have ha' : (forest.under (a.parent.map Fingerprint.ident))[a.row]? = some key := by
    rw [← rows_eq]
    exact ha
  have hb' : (forest.under (b.parent.map Fingerprint.ident))[b.row]? = some other := by
    rw [← rows_eq]
    exact hb
  have hspot := (h.spot_placeOf ha' rfl).symm.trans (h.spot_placeOf hb' hident)
  exact RowIndex.same_iff.mpr (Option.some.inj hspot)

theorem Settled.intact (h : forest.Settled outline) (hproper : outline.Proper) : forest.Intact where
  noDefect := h.firstDefect_eq_none hproper
  one_row key hkey := by
    obtain ⟨o, hrow⟩ := h.mem_stored.mp hkey
    obtain ⟨depth, above, index, hvisible⟩ :=
      h.arranged.exists_visible (h.arranged.attached_of_mem hkey) hrow rfl
    exact ⟨index, ⟨depth, above, hvisible⟩, fun other child hother hident =>
      h.arranged.same_of_keyAt hother hvisible.keyAt (Fingerprint.beq_iff.mp hident)⟩
  row_stored parent key hkey := h.lookup (h.mem_stored_of_row hkey)
  row_issued parent key hkey := by
    rw [rows_eq] at hkey
    exact sameParent_iff.mpr (h.arranged.issued _ key hkey)
  waiting_stored issuer key hkey := by
    rw [waitingFor_eq] at hkey
    refine h.lookup ?_
    rw [h.stored_eq hproper.sorted]
    exact (h.waits.awaiting_iff.mp hkey).1

/-- After any run of operations all parts of the forest agree, and no assumption has failed on the
way. -/
theorem run_intact (operations : List Operation) :
    (Operation.run operations : Journal Forest).state.Intact ∧
      (Operation.run operations : Journal Forest).broken = [] := by
  obtain ⟨hfaultless, hsettled⟩ := run_spec operations
  exact ⟨hsettled.intact (Outline.proper_afterRun operations), hfaultless.unbroken⟩

end KeyForest.Forest
