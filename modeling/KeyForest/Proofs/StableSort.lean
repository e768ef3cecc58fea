import Mathlib.Data.List.Sort

/-!
# Stable sorting

Elements are on one level when each may stand before the other. A stable sort leaves the elements of
a level in their order (`filter_mergeSort`), and no two ordered lists have the same levels
(`eq_of_levels`), so that order and levels describe the result of the sort completely.
-/
namespace KeyForest.StableSort

variable {α : Type} {le : α → α → Bool} {p : α → Bool} {a b : List α}

section Levels

variable (htrans : ∀ x y z, le x y = true → le y z = true → le x z = true)
  (htotal : ∀ x y, (le x y || le y x) = true)
include htrans htotal

/-- Elements of which each may stand before all others stay in their order. -/
theorem filter_mergeSort (hp : ∀ x y, p x = true → p y = true → le x y = true) (given : List α) :
    (given.mergeSort le).filter p = given.filter p := by
  have hlevel : (given.filter p).Pairwise fun x y => le x y = true := by
    refine List.pairwise_iff_forall_sublist.mpr fun {x y} hxy => ?_
    have hx := hxy.subset (List.mem_cons_self (a := x))
    have hy := hxy.subset (List.mem_cons_of_mem x List.mem_cons_self)
    exact hp x y (List.mem_filter.mp hx).2 (List.mem_filter.mp hy).2
  have hsub : (given.filter p).Sublist (given.mergeSort le) :=
    List.sublist_mergeSort htrans htotal hlevel List.filter_sublist
  have hsub' := hsub.filter p
  rw [List.filter_filter] at hsub'
  simp only [Bool.and_self] at hsub'
  refine (hsub'.eq_of_length ?_).symm
  exact ((List.mergeSort_perm given le).filter p).length_eq.symm

/-- Elements that may stand in either order stand in the order in which they were given. -/
theorem pairwise_mergeSort {r : α → α → Prop} {given : List α} (h : given.Pairwise r) :
    (given.mergeSort le).Pairwise fun x y => le x y = true ∧ (le y x = true → r x y) := by
  refine List.pairwise_iff_forall_sublist.mpr fun {x y} hxy => ?_
  have hle : le x y = true :=
    List.pairwise_iff_forall_sublist.mp (List.pairwise_mergeSort htrans htotal given) hxy
  refine ⟨hle, fun hge => ?_⟩
  have hrefl : le x x = true := (Bool.or_self _).symm.trans (htotal x x)
  have hlevel := hxy.filter fun z => le x z && le z x
  rw [filter_mergeSort htrans htotal (fun a b ha hb => ?_),
    List.filter_eq_self.mpr (by simp [hrefl, hle, hge])] at hlevel
  · exact List.pairwise_iff_forall_sublist.mp h (hlevel.trans List.filter_sublist)
  · exact htrans a x b (Bool.and_eq_true_iff.mp ha).2 (Bool.and_eq_true_iff.mp hb).1

end Levels

/-- The first of an ordered list is the first of its level. -/
theorem filter_level_cons (hrefl : ∀ x, le x x = true) (x : α) (rest : List α) :
    ((x :: rest).filter fun y => le x y && le y x) =
      x :: rest.filter fun y => le x y && le y x := by
  rw [List.filter_cons, hrefl]
  rfl

/-- The first of a list is in every list in which its level is the same. -/
theorem mem_of_level (hrefl : ∀ x, le x x = true) {x : α}
    (hx : ((x :: a).filter fun y => le x y && le y x) = b.filter fun y => le x y && le y x) :
    x ∈ b := by
  rw [filter_level_cons hrefl] at hx
  exact (List.mem_filter.mp (hx ▸ List.mem_cons_self)).1

/-- The first of an ordered list may stand before all of it. -/
theorem first_le (hrefl : ∀ x, le x x = true) {x y : α}
    (ha : (x :: a).Pairwise fun x y => le x y = true) (hy : y ∈ x :: a) : le x y = true := by
  rcases List.mem_cons.mp hy with rfl | hy
  · exact hrefl y
  · exact (List.pairwise_cons.mp ha).1 y hy

/-- Ordered lists with the same levels are equal. -/
theorem eq_of_levels (hrefl : ∀ x, le x x = true) (ha : a.Pairwise fun x y => le x y = true)
    (hb : b.Pairwise fun x y => le x y = true)
    (hlevel : ∀ x, (a.filter fun y => le x y && le y x) = b.filter fun y => le x y && le y x) :
    a = b := by
  induction a generalizing b with
  | nil =>
    cases b with
    | nil => rfl
    | cons y b => exact absurd (mem_of_level hrefl (hlevel y).symm) List.not_mem_nil
  | cons x a ih =>
    cases b with
    | nil => exact absurd (mem_of_level hrefl (hlevel x)) List.not_mem_nil
    | cons y b =>
      -- Both lists hold the other's first element, and it stands behind their own.
      have hxy : le x y = true := first_le hrefl ha (mem_of_level hrefl (hlevel y).symm)
      have hyx : le y x = true := first_le hrefl hb (mem_of_level hrefl (hlevel x))
      obtain rfl : x = y := by
        have hx := hlevel x
        rw [filter_level_cons hrefl, List.filter_cons, hxy, hyx] at hx
        exact (List.cons.inj hx).1
      refine congrArg _ (ih (List.pairwise_cons.mp ha).2 (List.pairwise_cons.mp hb).2 fun z => ?_)
      have hz := hlevel z
      rw [List.filter_cons, List.filter_cons] at hz
      split at hz
      · exact (List.cons.inj hz).2
      · exact hz

end KeyForest.StableSort
