import KeyForest.Proofs.Consistency
import KeyForest.Proofs.Forest.Arranged

/-!
# What is seen of a forest

Whatever keys are loose, an arranged forest is a consistent view: the rows that can be reached
from the top level are the attached ones, and those are stored.
-/
namespace KeyForest.Forest

open Placements Listing

variable {forest : Forest} {loose : Set Ident} {f : Fingerprint} {x : Ident} {o : Option Ident}
  {key : Key} {row depth : ℕ} {above : Option RowIndex} {index : RowIndex}

/-- A key is found at its row. -/
theorem Arranged.spot_placeOf (h : forest.Arranged loose) (hrow : (forest.under o)[row]? = some key)
    (hf : f.ident = key.ident) : (forest.placeOf f).map RowIndex.spot = some (o, row) := by
  have hplaced := h.placed_of_mem (List.mem_of_getElem? hrow)
  rw [← hf] at hplaced
  obtain ⟨index, hindex, hparent⟩ := h.exists_placeOf hplaced
  have hfound := (placeOf_eq_some hindex).2
  rw [rows_eq, hparent] at hfound
  rw [(Bucket.rowOf?_eq_some (h.rows_sorted o)).mpr ⟨key, hrow, hf.symm⟩] at hfound
  rw [hindex, Option.map_some, RowIndex.spot, hparent, Option.some.inj hfound]

/-- The rows that can be reached are attached. -/
theorem Arranged.attached_of_visible (h : forest.Arranged loose)
    (hkey : Visible forest depth above index key) :
    (forest.under (index.parent.map Fingerprint.ident))[index.row]? = some key ∧
      Attached forest.placed key.ident := by
  induction hkey with
  | top hrow =>
    exact ⟨hrow, .top (h.placed_of_mem (o := none) (List.mem_of_getElem? hrow))⟩
  | @child depth above index key row child _ hrow ih =>
    have hrow' : (forest.under (some key.ident))[row]? = some child := by
      rw [← childrenOf_eq]
      exact hrow
    exact ⟨hrow', .child (h.placed_of_mem (List.mem_of_getElem? hrow')) ih.2⟩

theorem Arranged.exists_visible (h : forest.Arranged loose) (hx : Attached forest.placed x)
    (hkey : key ∈ forest.under o) (hident : key.ident = x) :
    ∃ depth above index, Visible forest depth above index key := by
  have hplaced := h.placed_of_mem hkey
  rw [hident] at hplaced
  obtain ⟨row, hrow⟩ := List.mem_iff_getElem?.mp hkey
  induction hx generalizing o key row with
  | top htop =>
    rw [htop] at hplaced
    cases hplaced
    exact ⟨_, _, _, .top hrow⟩
  | @child x p hp hattached ih =>
    rw [hp] at hplaced
    cases hplaced
    obtain ⟨o', ho'⟩ := Option.isSome_iff_exists.mp hattached.isSome
    obtain ⟨parent, hparent, rfl⟩ := (h.rowsMatch _ _).mp ho'
    obtain ⟨row', hrow'⟩ := List.mem_iff_getElem?.mp hparent
    obtain ⟨depth, above, index, hvisible⟩ := ih hparent rfl ho' row' hrow'
    refine ⟨_, _, ⟨some parent.fingerprint, row⟩, .child hvisible ?_⟩
    rw [← hrow, ← childrenOf_eq]
    rfl

theorem Arranged.parentOf_of_visible (h : forest.Arranged loose)
    (hkey : Visible forest depth above index key) :
    (parentOf forest index).map RowIndex.spot = above.map RowIndex.spot := by
  have hrow := (h.attached_of_visible hkey).1
  have hplaced := h.placed_of_mem (List.mem_of_getElem? hrow)
  obtain ⟨parent, hparent, hident⟩ := Option.map_eq_some_iff.mp hplaced
  rw [← Table.get?_eq] at hparent
  rw [← rows_eq] at hrow
  have hparentOf : parentOf forest index = parent.bind forest.placeOf := by
    simp [Forest.parentOf, hrow, hparent]
  rw [hparentOf]
  cases hkey with
  | top _ =>
    obtain rfl : parent = none := by simpa using hident
    rfl
  | @child _ _ _ p _ _ hp _ =>
    obtain ⟨g, rfl, hg⟩ := Option.map_eq_some_iff.mp hident
    exact h.spot_placeOf (h.attached_of_visible hp).1 hg

theorem Arranged.consistent (h : forest.Arranged loose) : Consistent forest := by
  refine consistent_of h.stored_sorted (fun key => ?_) (h.rows_sorted none) (fun key _ => ?_)
    (fun {depth above index key} hkey => ?_) h.parentOf_of_visible
  · constructor
    · intro hkey
      obtain ⟨o, hunder, hattached⟩ := (h.stored_iff key).mp hkey
      exact h.exists_visible hattached hunder rfl
    · rintro ⟨depth, above, index, hkey⟩
      obtain ⟨hrow, hattached⟩ := h.attached_of_visible hkey
      exact (h.stored_iff key).mpr ⟨_, List.mem_of_getElem? hrow, hattached⟩
  · have hsorted := h.rows_sorted (some key.ident)
    rwa [← childrenOf_eq] at hsorted
  · have hrow := (h.attached_of_visible hkey).1
    have hnull : key.isNull = false := by
      rw [← Bool.not_eq_true, Key.isNull_iff]
      exact h.named _ key (List.mem_of_getElem? hrow)
    rw [indexOf, hnull]
    exact h.spot_placeOf hrow rfl

end KeyForest.Forest
