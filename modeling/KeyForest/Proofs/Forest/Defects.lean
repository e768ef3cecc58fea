import KeyForest.Proofs.Forest.Deliveries

/-!
# Forests at rest have no defect

`Settled.firstDefect` goes through the defects one by one. Sizes are compared by comparing the
keys: the listed rows and the placements are as many as the stored keys because they name the same
keys, each once.
-/
namespace KeyForest.Forest

open Placements

variable {forest : Forest} {outline : Outline} {f : Fingerprint} {key : Key}
  {parent : Option Fingerprint} {entry : Fingerprint × Bucket}

theorem isPlacedUnder_iff : forest.isPlacedUnder parent f = true ↔
    forest.placed f.ident = some (parent.map Fingerprint.ident) := by
  rw [isPlacedUnder, Table.get?_eq, Option.any_eq_true, placed]
  constructor
  · rintro ⟨found, hfound, hsame⟩
    rw [hfound, Option.map_some, sameParent_iff.mp hsame]
  · intro hplaced
    obtain ⟨found, hfound, hsame⟩ := Option.map_eq_some_iff.mp hplaced
    exact ⟨found, hfound, sameParent_iff.mpr hsame.symm⟩

variable (h : forest.Settled outline)
include h

namespace Settled

theorem mem_stored : key ∈ forest.stored ↔ ∃ o, key ∈ forest.under o := by
  rw [h.arranged.stored_iff]
  refine exists_congr fun o => and_iff_left_of_imp fun hkey => ?_
  exact h.attached_iff.mpr ⟨key, h.mem_keys.mpr (.inl ⟨o, hkey⟩), rfl⟩

theorem has_stored : forest.stored.has f = true ↔ outline.Has f.ident := by
  rw [Bucket.has_iff h.arranged.stored_sorted, Outline.Has]
  refine exists_congr fun key => and_congr_left fun _ => ?_
  rw [h.mem_stored, h.mem_keys]
  simp

theorem inTransit_eq : forest.inTransit = [] := by
  refine Table.eq_nil_of_value? fun x => ?_
  have hnone : ¬ forest.IsMoving x := by simp [h.isMoving_iff]
  rwa [IsMoving, Table.mem_idents, Option.not_isSome_iff_eq_none] at hnone

theorem length_parents : forest.parents.length = forest.stored.length := by
  have hperm : forest.parents.idents.Perm (forest.stored.map Key.ident) := by
    refine (List.perm_ext_iff_of_nodup h.arranged.parents_sorted.nodup_idents
      h.arranged.stored_sorted.nodup_idents).mpr fun x => ?_
    have hplaced : x ∈ forest.parents.idents ↔ (forest.placed x).isSome := by
      rw [Table.mem_idents, placed, Option.isSome_map]
    rw [hplaced, List.mem_map]
    constructor
    · intro hx
      obtain ⟨o, ho⟩ := Option.isSome_iff_exists.mp hx
      obtain ⟨key, hkey, hident⟩ := (h.arranged.rowsMatch _ _).mp ho
      exact ⟨key, h.mem_stored.mpr ⟨o, hkey⟩, hident⟩
    · rintro ⟨key, hkey, rfl⟩
      exact (h.arranged.attached_of_mem hkey).isSome
  simpa [Table.idents] using hperm.length_eq

theorem under_of_mem_children (hentry : entry ∈ forest.children) :
    forest.under (some entry.1.ident) = entry.2 := by
  rw [under, h.arranged.children_sorted.value?_of_mem hentry, Option.getD_some]

theorem bucketDefect_eq_none (hentry : entry ∈ forest.children) :
    forest.bucketDefect entry.1 entry.2 = none := by
  have hunder := h.under_of_mem_children hentry
  have hnonempty := h.arranged.children_nonempty entry hentry
  obtain ⟨child, hchild⟩ := List.exists_mem_of_ne_nil _ hnonempty
  have hparent : outline.Has entry.1.ident := by
    rw [← hunder] at hchild
    have hplaced := h.arranged.placed_of_mem hchild
    have hattached := h.arranged.attached_of_mem (h.mem_stored.mpr ⟨_, hchild⟩)
    exact h.attached_iff.mp (hattached.of_child hplaced)
  have hsorted := h.arranged.rows_sorted (some entry.1.ident)
  rw [hunder] at hsorted
  have hplaced : entry.2.find? (fun key => !forest.isPlacedUnder (some entry.1) key.fingerprint) =
      none := by
    rw [List.find?_eq_none]
    intro key hkey
    rw [← hunder] at hkey
    simpa using isPlacedUnder_iff.mpr (h.arranged.placed_of_mem hkey)
  simp [bucketDefect, hnonempty, h.has_stored.mpr hparent, Bucket.isSorted_eq_true.mpr hsorted,
    hplaced]

/-- The rows at the top level and under all parents are the stored keys, each once. -/
theorem listedCount_eq : forest.listedCount = forest.stored.length := by
  have hnodup : (forest.topLevel ++ forest.children.flatMap (·.2)).Nodup := by
    refine List.nodup_append.mpr ⟨(h.arranged.rows_sorted none).nodup, ?_, ?_⟩
    · refine List.nodup_flatMap.mpr ⟨fun entry hentry => ?_, ?_⟩
      · rw [← h.under_of_mem_children hentry]
        exact (h.arranged.rows_sorted _).nodup
      · refine h.arranged.children_sorted.imp_of_mem fun {a b} ha hb hab => ?_
        intro key (hkey : key ∈ a.2) (hkey' : key ∈ b.2)
        rw [← h.under_of_mem_children ha] at hkey
        rw [← h.under_of_mem_children hb] at hkey'
        exact hab.ne (Option.some.inj (h.arranged.row_unique hkey hkey' rfl).1)
    · intro key hkey other hother
      obtain ⟨entry, hentry, hother⟩ := List.mem_flatMap.mp hother
      rw [← h.under_of_mem_children hentry] at hother
      rintro rfl
      rw [← under_none] at hkey
      have := (h.arranged.row_unique hkey hother rfl).1
      contradiction
  have hperm := (List.perm_ext_iff_of_nodup hnodup h.arranged.stored_sorted.nodup).mpr fun key => by
    rw [h.mem_stored, List.mem_append, List.mem_flatMap]
    constructor
    · rintro (hkey | ⟨entry, hentry, hkey⟩)
      · exact ⟨none, hkey⟩
      · exact ⟨some entry.1.ident, by rwa [h.under_of_mem_children hentry]⟩
    · rintro ⟨o, hkey⟩
      cases o with
      | none => exact .inl hkey
      | some x =>
        rw [under] at hkey
        cases hvalue : forest.children.value? x with
        | none => simp [hvalue] at hkey
        | some keys =>
          obtain ⟨g, hentry, -⟩ := Table.exists_mem_of_value? hvalue
          rw [hvalue] at hkey
          exact .inr ⟨(g, keys), hentry, hkey⟩
  rw [listedCount, Table.total_eq, ← List.length_append]
  exact hperm.length_eq

theorem waitingDefect_eq_none (hproper : outline.Proper) (hentry : entry ∈ forest.waiting) :
    forest.waitingDefect entry.1 entry.2 = none := by
  have hawaiting : forest.awaiting entry.1.ident = entry.2 := by
    rw [awaiting, h.waits.sorted.value?_of_mem hentry, Option.getD_some]
  have hwaits {key : Key} (hkey : key ∈ entry.2) := by
    rw [← hawaiting] at hkey
    exact h.waits.awaiting_iff.mp hkey
  obtain ⟨orphan, horphan⟩ := List.exists_mem_of_ne_nil _ (h.waits.nonempty entry hentry)
  have habsent : ¬ forest.stored.has entry.1 = true := by
    rw [h.has_stored]
    exact (hwaits horphan).2.2
  have hplaced : entry.2.find? (fun key => !forest.isPlacedUnder none key.fingerprint) = none := by
    rw [List.find?_eq_none]
    intro key hkey
    obtain ⟨hmem, hissuer, hnot⟩ := hwaits hkey
    suffices forest.isPlacedUnder none key.fingerprint = true by simpa using this
    rw [isPlacedUnder_iff, h.placed_eq]
    refine (Outline.up_eq_top hproper.sorted hmem).mpr (.inr fun p hp => ?_)
    rw [hissuer] at hp
    cases hp
    exact hnot
  simp [waitingDefect, habsent, hplaced]

/-- A forest at rest has no defect. -/
theorem firstDefect_eq_none (hproper : outline.Proper) : forest.firstDefect = none := by
  have htop : forest.topLevel.find? (fun key => !forest.isPlacedUnder none key.fingerprint) =
      none := by
    rw [List.find?_eq_none]
    intro key hkey
    simpa using isPlacedUnder_iff.mpr (h.arranged.placed_of_mem (o := none) hkey)
  have hchildren : (forest.children.findSome? fun entry => forest.bucketDefect entry.1 entry.2) =
      none := List.findSome?_eq_none_iff.mpr fun _ hentry => h.bucketDefect_eq_none hentry
  have hwaiting : (forest.waiting.findSome? fun entry => forest.waitingDefect entry.1 entry.2) =
      none := List.findSome?_eq_none_iff.mpr fun _ hentry => h.waitingDefect_eq_none hproper hentry
  have hclimbs : forest.parents.find? (fun entry =>
      forest.climbsBeyond forest.stored.length entry.1) = none := by
    rw [List.find?_eq_none]
    intro entry _
    obtain ⟨n, hn⟩ := h.arranged.acyclic entry.1.ident
    have hle := ends_le_parents hn
    rw [h.length_parents] at hle
    simp [climbsBeyond_eq_false hn rfl hle]
  have htopSorted : Bucket.IsSorted forest.topLevel := h.arranged.rows_sorted none
  simp [firstDefect, Bucket.isSorted_eq_true.mpr h.arranged.stored_sorted,
    Bucket.isSorted_eq_true.mpr htopSorted, h.inTransit_eq, h.length_parents, htop, hchildren,
    h.listedCount_eq, hwaiting, hclimbs]

end Settled

end KeyForest.Forest
