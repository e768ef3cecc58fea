import KeyForest.Proofs.Consistency

/-!
# Loops through rows with a stack

A loop takes one row after the other from a stack and puts the rows under it on the stack instead
(`Listing.Visits`). It may never end, and it ends in one way at most (`Visits.unique`). If no row is
deeper down than a walk goes, it ends, and it has met the rows that the walk lists, in their order
(`visits_iff`).
-/
namespace KeyForest.Listing

/-- Puts things on a stack one after the other; the last of them is on top. -/
def push {α : Type} (stack things : List α) : List α := things.reverse ++ stack

variable {σ δ : Type} [Listing σ] {state : σ} {under : Option Fingerprint → List RowIndex}
  {deeper : δ → δ}

/-- The indexes of all rows under a parent. -/
def indexesUnder (state : σ) (parent : Option Fingerprint) : List RowIndex :=
  (List.range (rowCount state parent)).filterMap fun row => index state parent row

/-- What a loop has met when its stack is empty, if it started with a stack and what it had met
before. Rows are met with a mark, which is made anew from that of the row above; the rows under a row
are put on the stack from the last to the first. -/
inductive Visits (state : σ) (under : Option Fingerprint → List RowIndex) (deeper : δ → δ) :
    List (δ × RowIndex) → List (δ × Key) → List (δ × Key) → Prop
  | done {met : List (δ × Key)} : Visits state under deeper [] met met
  | missing {mark : δ} {index : RowIndex} {stack : List (δ × RowIndex)} {met all : List (δ × Key)} :
      keyAt state index = none → Visits state under deeper stack met all →
      Visits state under deeper ((mark, index) :: stack) met all
  | next {mark : δ} {index : RowIndex} {key : Key} {stack : List (δ × RowIndex)}
      {met all : List (δ × Key)} : keyAt state index = some key →
      Visits state under deeper
        (push stack ((under (some key.fingerprint)).reverse.map fun child => (deeper mark, child)))
        (met ++ [(mark, key)]) all →
      Visits state under deeper ((mark, index) :: stack) met all

theorem Visits.unique {stack : List (δ × RowIndex)} {met all all' : List (δ × Key)}
    (h : Visits state under deeper stack met all) (h' : Visits state under deeper stack met all') :
    all = all' := by
  induction h with
  | done =>
    cases h'
    rfl
  | missing hnone _ ih =>
    cases h' with
    | missing _ h' => exact ih h'
    | next hkey _ => simp [hnone] at hkey
  | next hkey _ ih =>
    cases h' with
    | missing hnone _ => simp [hnone] at hkey
    | next hkey' h' =>
      rw [hkey] at hkey'
      cases hkey'
      exact ih h'

/-- Whether a loop looks, under each parent, at the rows with certain keys, in their order. -/
def LooksAt (state : σ) (under : Option Fingerprint → List RowIndex) (keep : Key → Bool) : Prop :=
  ∀ parent, (under parent).map (keyAt state) = ((rows state parent).filter keep).map some

theorem map_getElem?_range {α : Type} (xs : List α) :
    (List.range xs.length).map (xs[·]?) = xs.map some :=
  List.ext_getElem (by simp) fun row _ _ => by simp

theorem looksAt_indexesUnder (state : σ) : LooksAt state (indexesUnder state) fun _ => true := by
  intro parent
  have hindex : ∀ row ∈ List.range (rowCount state parent),
      (index state parent row).map (keyAt state) = some (rows state parent)[row]? := by
    intro row hrow
    rw [index, if_pos (List.mem_range.mp hrow)]
    rfl
  rw [List.filter_true, indexesUnder, List.map_filterMap, List.filterMap_congr hindex,
    List.filterMap_eq_map']
  exact map_getElem?_range (rows state parent)

section Walk

variable {keep : Key → Bool} {mark : ℕ → δ} {parent : Option Fingerprint} {depth levels : ℕ}
  {all : List (δ × Key)}

/-- A loop whose marks go by the depth meets the rows of a walk and goes on with the rest of the
stack. -/
theorem visits_rows (hunder : LooksAt state under keep)
    (hmark : ∀ depth, deeper (mark depth) = mark (depth + 1))
    (hdeep : ∀ key ∈ rows state parent, ∀ n child, Within state key n child → n < levels)
    {stack : List (δ × RowIndex)} {met : List (δ × Key)}
    (hrest : Visits state under deeper stack
      (met ++ (walk state keep levels parent depth).map fun row => (mark row.1, row.2)) all) :
    Visits state under deeper
      (push stack ((under parent).reverse.map fun index => (mark depth, index))) met all := by
  rw [push, ← List.map_reverse, List.reverse_reverse]
  induction levels generalizing parent depth stack met with
  | zero =>
    have hnone : rows state parent = [] := by
      refine List.eq_nil_iff_forall_not_mem.mpr fun key hkey => ?_
      exact Nat.not_lt_zero 0 (hdeep key hkey 0 key .self)
    have hindexes := hunder parent
    rw [hnone, List.filter_nil, List.map_nil, List.map_eq_nil_iff] at hindexes
    rw [walk, List.map_nil, List.append_nil] at hrest
    rwa [hindexes]
  | succ levels ih =>
    have hindexes := hunder parent
    have hkept : ∀ key ∈ (rows state parent).filter keep, key ∈ rows state parent :=
      fun key hkey => List.mem_of_mem_filter hkey
    rw [walk] at hrest
    generalize (rows state parent).filter keep = keys at hindexes hrest hkept
    generalize under parent = indexes at hindexes
    -- The rows that have been put on the stack are met one after the other, each with those below it.
    induction keys generalizing indexes met with
    | nil =>
      rw [List.map_nil, List.map_eq_nil_iff] at hindexes
      rw [List.flatMap_nil, List.map_nil, List.append_nil] at hrest
      rwa [hindexes]
    | cons key keys ihkeys =>
      obtain ⟨index, indexes, rfl, hkey, hindexes⟩ := List.map_eq_cons_iff.mp hindexes
      obtain ⟨hmem, hkept⟩ := List.forall_mem_cons.mp hkept
      refine .next hkey ?_
      rw [push, ← List.map_reverse, List.reverse_reverse, hmark]
      refine ih (fun child hchild n below hbelow => ?_) (ihkeys ?_ hkept indexes hindexes)
      · have := hdeep key hmem (n + 1) below (.of_child hchild hbelow)
        omega
      · simpa using hrest

/-- Where no row is deeper down than a walk goes, the loop ends with what the walk lists. -/
theorem visits_iff (hunder : LooksAt state under keep)
    (hmark : ∀ depth, deeper (mark depth) = mark (depth + 1))
    (hdeep : ∀ key ∈ rows state parent, ∀ n child, Within state key n child → n < levels) :
    Visits state under deeper
        (push [] ((under parent).reverse.map fun index => (mark depth, index))) [] all ↔
      all = (walk state keep levels parent depth).map fun row => (mark row.1, row.2) := by
  have hvisits : Visits state under deeper
      (push [] ((under parent).reverse.map fun index => (mark depth, index))) []
      ((walk state keep levels parent depth).map fun row => (mark row.1, row.2)) :=
    visits_rows hunder hmark hdeep .done
  refine ⟨fun h => h.unique hvisits, ?_⟩
  rintro rfl
  exact hvisits

end Walk

end KeyForest.Listing
