import KeyForest.Bucket.IssuerOrder
import KeyForest.Proofs.Bucket
import KeyForest.Proofs.StableSort

/-!
# Batches

A batch of keys in any order becomes a sorted list in which each certificate is represented by its
last occurrence (`key?_ofBatch`). The order with issuers first lists every row of a batch exactly
once (`issuersFirst_perm`).
-/
namespace KeyForest.Bucket

/-- The last key of a list with an identity. -/
def last? (keys : List Key) (x : Ident) : Option Key := keys.reverse.find? fun key => key.ident = x

theorem last?_cons (key : Key) (keys : List Key) (x : Ident) :
    last? (key :: keys) x = (last? keys x).or (if key.ident = x then some key else none) := by
  by_cases h : key.ident = x <;> simp [last?, List.find?_append, h]

theorem mem_of_last? {keys : List Key} {x : Ident} {key : Key} (h : last? keys x = some key) :
    key ∈ keys ∧ key.ident = x :=
  ⟨List.mem_reverse.mp (List.mem_of_find?_eq_some h), by simpa using List.find?_some h⟩

theorem last?_eq_none {keys : List Key} {x : Ident} :
    last? keys x = none ↔ ∀ key ∈ keys, key.ident ≠ x := by
  simp [last?]

/-- Whether a key is the last one of a list that stands for its certificate. -/
def IsLast (keys : List Key) (key : Key) : Prop :=
  ∃ front back, keys = front ++ key :: back ∧ ∀ other ∈ back, other.ident ≠ key.ident

theorem last?_eq_some {keys : List Key} {x : Ident} {key : Key} :
    last? keys x = some key ↔ key.ident = x ∧ IsLast keys key := by
  rw [last?, List.find?_eq_some_iff_append, decide_eq_true_iff]
  refine and_congr_right fun hx => ?_
  subst hx
  constructor
  · rintro ⟨back, front, hkeys, hback⟩
    refine ⟨front.reverse, back.reverse, ?_, fun other hother => ?_⟩
    · rw [← List.reverse_reverse keys, hkeys]
      simp
    · simpa using hback other (List.mem_reverse.mp hother)
  · rintro ⟨front, back, rfl, hback⟩
    exact ⟨back.reverse, front.reverse, by simp, by simpa using hback⟩

/-- Only the keys with the identity count for the last of them. -/
theorem last?_filter (keys : List Key) (x : Ident) :
    last? (keys.filter fun key => key.ident = x) x = last? keys x := by
  rw [last?, ← List.filter_reverse, List.find?_filter, last?]
  simp

/-- Fingerprints that ascend, where neighbours may be equal. -/
def Ascends (keys : List Key) : Prop := keys.Pairwise fun a b => ¬ Ident.Below b.ident a.ident

theorem IsSorted.ascends {keys : Bucket} (h : IsSorted keys) : Ascends keys :=
  List.Pairwise.imp (fun hlt => Ident.Below.asymm hlt) h

theorem below_of_ascends {a b : Key} {rest : List Key} (hab : Ident.Below a.ident b.ident)
    (h : Ascends (b :: rest)) : ∀ key ∈ b :: rest, Ident.Below a.ident key.ident := by
  intro key hkey
  rcases List.mem_cons.mp hkey with rfl | hkey
  · exact hab
  · rcases Ident.below_or_eq_or_below b.ident key.ident with hlt | heq | hgt
    · exact hab.trans hlt
    · rw [← heq]
      exact hab
    · exact absurd hgt ((List.pairwise_cons.mp h).1 key hkey)

theorem lastOfRuns_subset (keys : List Key) : lastOfRuns keys ⊆ keys := by
  fun_induction lastOfRuns keys with
  | case1 a b rest _ ih => exact List.Subset.trans ih (List.subset_cons_self _ _)
  | case2 a b rest _ ih => exact List.cons_subset_cons _ ih
  | case3 keys => exact List.Subset.refl _

/-- In an ascending list the neighbours of a key with another fingerprint are above it. -/
theorem below_next {a b : Key} {rest : List Key} (h : Ascends (a :: b :: rest))
    (hab : ¬ (a.fingerprint == b.fingerprint) = true) : Ident.Below a.ident b.ident := by
  rcases Ident.below_or_eq_or_below a.ident b.ident with hlt | heq | hgt
  · exact hlt
  · exact absurd (Fingerprint.beq_iff.mpr heq) hab
  · exact absurd hgt ((List.pairwise_cons.mp h).1 b List.mem_cons_self)

theorem isSorted_lastOfRuns {keys : List Key} (h : Ascends keys) : IsSorted (lastOfRuns keys) := by
  fun_induction lastOfRuns keys with
  | case1 a b rest _ ih => exact ih (List.pairwise_cons.mp h).2
  | case2 a b rest hab ih =>
    have hrest := (List.pairwise_cons.mp h).2
    refine List.pairwise_cons.mpr ⟨fun key hkey => ?_, ih hrest⟩
    exact below_of_ascends (below_next h hab) hrest key (lastOfRuns_subset _ hkey)
  | case3 keys hshort =>
    rcases eq_nil_or_singleton hshort with rfl | ⟨key, rfl⟩
    · exact List.Pairwise.nil
    · exact List.pairwise_singleton _ _

theorem key?_lastOfRuns {keys : List Key} (h : Ascends keys) (x : Ident) :
    key? (lastOfRuns keys) x = last? keys x := by
  fun_induction lastOfRuns keys with
  | case1 a b rest hab ih =>
    rw [ih (List.pairwise_cons.mp h).2, last?_cons a]
    rw [Fingerprint.beq_iff] at hab
    by_cases hx : a.ident = x
    · obtain ⟨key, hkey⟩ : ∃ key, last? (b :: rest) x = some key := by
        rw [← Option.isSome_iff_exists, Option.isSome_iff_ne_none, Ne, last?_eq_none]
        intro hnone
        exact hnone b List.mem_cons_self (hab.symm.trans hx)
      simp [hkey]
    · simp [hx]
  | case2 a b rest hab ih =>
    have hrest := (List.pairwise_cons.mp h).2
    have habove := below_of_ascends (below_next h hab) hrest
    rw [key?, List.find?_cons, last?_cons a, ← key?, ih hrest]
    by_cases hx : a.ident = x
    · have hnone : last? (b :: rest) x = none :=
        last?_eq_none.mpr fun key hkey => hx ▸ (habove key hkey).ne.symm
      simp [hx, hnone]
    · simp [hx]
  | case3 keys hshort =>
    rcases eq_nil_or_singleton hshort with rfl | ⟨key, rfl⟩ <;> rfl

/-! ### Preparing a batch -/

section Sorting

theorem not_gt_iff {a b : Key} :
    (compare a.fingerprint b.fingerprint != .gt) = true ↔ ¬ Ident.Below b.ident a.ident := by
  rw [bne_iff_ne, Ne, Fingerprint.compare_eq_gt]

theorem not_gt_trans (a b c : Key) (hab : (compare a.fingerprint b.fingerprint != .gt) = true)
    (hbc : (compare b.fingerprint c.fingerprint != .gt) = true) :
    (compare a.fingerprint c.fingerprint != .gt) = true := by
  rw [not_gt_iff] at *
  intro hca
  rcases Ident.below_or_eq_or_below a.ident b.ident with hlt | heq | hgt
  · exact hbc (hca.trans hlt)
  · exact hbc (heq ▸ hca)
  · exact hab hgt

theorem not_gt_total (a b : Key) :
    (compare a.fingerprint b.fingerprint != .gt || compare b.fingerprint a.fingerprint != .gt) =
      true := by
  rw [Bool.or_eq_true, not_gt_iff, not_gt_iff, ← not_and_or]
  exact fun h => h.1.asymm h.2

theorem ascends_mergeSort (keys : List Key) :
    Ascends (keys.mergeSort fun a b => compare a.fingerprint b.fingerprint != .gt) :=
  (List.pairwise_mergeSort not_gt_trans not_gt_total keys).imp not_gt_iff.mp

/-- The sort keeps keys with equal fingerprints in their order. -/
theorem filter_mergeSort (keys : List Key) (x : Ident) :
    (keys.mergeSort fun a b => compare a.fingerprint b.fingerprint != .gt).filter
      (fun key => key.ident = x) = keys.filter fun key => key.ident = x := by
  refine StableSort.filter_mergeSort not_gt_trans not_gt_total (fun a b ha hb => ?_) keys
  rw [not_gt_iff, of_decide_eq_true ha, of_decide_eq_true hb]
  exact Ident.not_below_self x

theorem last?_mergeSort (keys : List Key) (x : Ident) :
    last? (keys.mergeSort fun a b => compare a.fingerprint b.fingerprint != .gt) x =
      last? keys x := by
  rw [← last?_filter, filter_mergeSort, last?_filter]

end Sorting

theorem isSorted_ofBatch (keys : List Key) : IsSorted (ofBatch keys) :=
  isSorted_lastOfRuns (ascends_mergeSort _)

/-- A prepared batch holds the last occurrence of every certificate but the null one. -/
theorem key?_ofBatch (keys : List Key) (x : Ident) :
    key? (ofBatch keys) x = last? (keys.filter fun key => !key.isNull) x := by
  rw [ofBatch, key?_lastOfRuns (ascends_mergeSort _), last?_mergeSort]

theorem mem_of_mem_ofBatch {keys : List Key} {key : Key} (h : key ∈ ofBatch keys) :
    key ∈ keys ∧ key.ident ≠ [] := by
  have hkey := (isSorted_ofBatch keys).key?_eq_some.mpr ⟨h, rfl⟩
  rw [key?_ofBatch] at hkey
  obtain ⟨hmem, hnull⟩ := List.mem_filter.mp (mem_of_last? hkey).1
  refine ⟨hmem, fun hempty => ?_⟩
  rw [Key.isNull_iff.mpr hempty] at hnull
  contradiction

/-- A named key of the list is in the batch, perhaps with other fields. -/
theorem exists_mem_ofBatch {keys : List Key} {key : Key} (hkey : key ∈ keys)
    (hnamed : key.ident ≠ []) : ∃ other ∈ ofBatch keys, other.ident = key.ident := by
  by_contra hnone
  push Not at hnone
  rw [← key?_eq_none, key?_ofBatch, last?_eq_none] at hnone
  refine hnone key (List.mem_filter.mpr ⟨hkey, ?_⟩) rfl
  rw [Bool.not_eq_true', ← Bool.not_eq_true]
  exact fun hnull => hnamed (Key.isNull_iff.mp hnull)

/-- Null keys do not count for the last key of a certificate with a name. -/
theorem last?_named (keys : List Key) {x : Ident} (hnamed : x ≠ []) :
    last? (keys.filter fun key => !key.isNull) x = last? keys x := by
  rw [← last?_filter, List.filter_filter, ← last?_filter keys]
  refine congrArg (last? · x) (List.filter_congr fun key _ => ?_)
  rw [Bool.and_eq_left_iff_imp, decide_eq_true_iff, Bool.not_eq_true', ← Bool.not_eq_true,
    Key.isNull_iff]
  rintro rfl
  exact hnamed

/-- A bucket that holds, of each certificate but the null one, the last key of a list. -/
structure Prepares (keys : List Key) (batch : Bucket) : Prop where
  sorted : IsSorted batch
  mem_iff : ∀ key, key ∈ batch ↔ key.isNull = false ∧ IsLast keys key
  /-- No certificate is left out. -/
  covers : ∀ key ∈ keys, key.isNull = false →
    ∃ other ∈ batch, (other.fingerprint == key.fingerprint) = true

theorem prepares_ofBatch (keys : List Key) : Prepares keys (ofBatch keys) where
  sorted := isSorted_ofBatch keys
  mem_iff key := by
    have hkey : key ∈ ofBatch keys ↔ key? (ofBatch keys) key.ident = some key := by
      rw [(isSorted_ofBatch keys).key?_eq_some, and_iff_left rfl]
    rw [← Bool.not_eq_true, Key.isNull_iff]
    by_cases hnamed : key.ident = []
    · exact iff_of_false (fun hmem => (mem_of_mem_ofBatch hmem).2 hnamed) fun h => h.1 hnamed
    · rw [hkey, key?_ofBatch, last?_named keys hnamed, last?_eq_some, and_iff_right rfl,
        and_iff_right hnamed]
  covers key hkey hnamed := by
    rw [← Bool.not_eq_true, Key.isNull_iff] at hnamed
    obtain ⟨other, hother, hident⟩ := exists_mem_ofBatch hkey hnamed
    exact ⟨other, hother, Fingerprint.beq_iff.mpr hident⟩

theorem lastOfRuns_of_isSorted {keys : Bucket} (h : IsSorted keys) : lastOfRuns keys = keys := by
  fun_induction lastOfRuns keys with
  | case1 a b rest hab ih =>
    have hlt := (List.pairwise_cons.mp h).1 b List.mem_cons_self
    exact absurd (Fingerprint.beq_iff.mp hab) (Ident.Below.ne hlt)
  | case2 a b rest _ ih => rw [ih (List.pairwise_cons.mp h).2]
  | case3 keys => rfl

/-- A sorted list without null keys is a batch already. -/
theorem ofBatch_of_isSorted {keys : Bucket} (h : IsSorted keys)
    (hnull : ∀ key ∈ keys, key.ident ≠ []) : ofBatch keys = keys := by
  have hfilter : keys.filter (fun key => !key.isNull) = keys := by
    refine List.filter_eq_self.mpr fun key hkey => ?_
    rw [Bool.not_eq_true', ← Bool.not_eq_true, Key.isNull_iff]
    exact hnull key hkey
  have hsort : keys.mergeSort (fun a b => compare a.fingerprint b.fingerprint != .gt) = keys :=
    List.mergeSort_of_pairwise (h.ascends.imp not_gt_iff.mpr)
  rw [ofBatch, hfilter, hsort, lastOfRuns_of_isSorted h]

/-! ### Issuers first -/

theorem lastRowOf?_lt {keys : List Key} {f : Fingerprint} {row : Nat}
    (h : lastRowOf? keys f = some row) : row < keys.length := by
  obtain ⟨⟨key, row'⟩, hfind, rfl⟩ := Option.map_eq_some_iff.mp h
  have hmem := List.mem_reverse.mp (List.mem_of_find?_eq_some hfind)
  obtain ⟨-, hlt, -⟩ := List.mem_zipIdx hmem
  simpa using hlt

theorem issuerRow?_lt {keys : List Key} {row issuer : Nat}
    (h : issuerRow? keys row = some issuer) : issuer < keys.length := by
  obtain ⟨f, -, hrow⟩ := Option.bind_eq_some_iff.mp h
  exact lastRowOf?_lt hrow

/-- What a climb has collected: rows of the list, each once, none of them seen before. -/
structure Path (keys : List Key) (seen path : List Nat) : Prop where
  nodup : path.Nodup
  fresh : ∀ row ∈ path, row ∉ seen
  bounded : ∀ row ∈ path, row < keys.length

theorem climb_path {keys : List Key} {seen : List Nat} (steps : Nat) {next : Option Nat}
    {path : List Nat} (hnext : ∀ row ∈ next, row < keys.length) (h : Path keys seen path) :
    Path keys seen (climb keys seen steps next path) := by
  induction steps generalizing next path with
  | zero => exact h
  | succ steps ih =>
    cases next with
    | none => exact h
    | some row =>
      rw [climb]
      split
      · exact h
      · rename_i hnew
        simp only [Bool.or_eq_true, List.contains_iff_mem, not_or] at hnew
        refine ih (fun issuer hissuer => issuerRow?_lt hissuer) ?_
        exact ⟨List.nodup_cons.mpr ⟨hnew.2, h.nodup⟩, List.forall_mem_cons.mpr ⟨hnew.1, h.fresh⟩,
          List.forall_mem_cons.mpr ⟨hnext row rfl, h.bounded⟩⟩

theorem suffix_climb (keys : List Key) (seen : List Nat) (steps : Nat) (next : Option Nat)
    (path : List Nat) : path <:+ climb keys seen steps next path := by
  induction steps generalizing next path with
  | zero => exact List.suffix_refl _
  | succ steps ih =>
    cases next with
    | none => exact List.suffix_refl _
    | some row =>
      rw [climb]
      split
      · exact List.suffix_refl _
      · exact (List.suffix_cons _ _).trans (ih _ _)

/-- A climb from a row that is in the list and has not been seen begins with this row. -/
theorem suffix_climb_start {keys : List Key} {seen : List Nat} {start : Nat}
    (hstart : start < keys.length) (hnew : start ∉ seen) :
    [start] <:+ climb keys seen keys.length (some start) [] := by
  obtain ⟨n, hn⟩ := Nat.exists_eq_add_one_of_ne_zero (Nat.ne_zero_of_lt hstart)
  rw [hn, climb, if_neg (by simpa using hnew)]
  exact suffix_climb _ _ _ _ _

theorem path_of_start {keys : List Key} {seen : List Nat} {start : Nat}
    (hstart : start < keys.length) :
    Path keys seen (climb keys seen keys.length (some start) []) :=
  climb_path _ (fun row hrow => by simp_all) ⟨List.nodup_nil, by simp, by simp⟩

/-- The rows ordered so far: each once, and among them all from which a climb was started. -/
structure Ordered (keys : List Key) (started : Nat) (order : List Nat) : Prop where
  nodup : order.Nodup
  bounded : ∀ row ∈ order, row < keys.length
  complete : ∀ row < started, row ∈ order

theorem Ordered.step {keys : List Key} {started : Nat} {order : List Nat}
    (h : Ordered keys started order) (hstarted : started < keys.length) :
    Ordered keys (started + 1)
      (order ++ climb keys order keys.length (some started) []) := by
  have hpath := @path_of_start keys order started hstarted
  refine ⟨List.nodup_append'.mpr ⟨h.nodup, hpath.nodup, fun row hold hnew =>
    hpath.fresh row hnew hold⟩, fun row hrow => ?_, fun row hrow => ?_⟩
  · rcases List.mem_append.mp hrow with hold | hnew
    · exact h.bounded row hold
    · exact hpath.bounded row hnew
  · rcases Nat.lt_or_eq_of_le (Nat.le_of_lt_succ hrow) with hlt | rfl
    · exact List.mem_append_left _ (h.complete row hlt)
    · by_cases hmem : row ∈ order
      · exact List.mem_append_left _ hmem
      · refine List.mem_append_right _ ?_
        exact (suffix_climb_start hstarted hmem).subset (List.mem_singleton_self row)

/-- What every climb keeps holds of the whole order. -/
theorem issuerOrder_induction {keys : List Key} {P : Nat → List Nat → Prop} (hnil : P 0 [])
    (hstep : ∀ start order, start < keys.length → P start order →
      P (start + 1) (order ++ climb keys order keys.length (some start) [])) :
    P keys.length (issuerOrder keys) := by
  have hall : ∀ n ≤ keys.length, P n ((List.range n).foldl
      (fun order start => order ++ climb keys order keys.length (some start) []) []) := by
    intro n
    induction n with
    | zero => exact fun _ => hnil
    | succ n ih =>
      intro hn
      rw [List.range_succ, List.foldl_append]
      exact hstep n _ hn (ih (Nat.le_of_succ_le hn))
  exact hall keys.length (Nat.le_refl _)

theorem ordered_issuerOrder (keys : List Key) : Ordered keys keys.length (issuerOrder keys) :=
  issuerOrder_induction ⟨List.nodup_nil, by simp, by simp⟩ fun _ _ hstarted h => h.step hstarted

/-- The order with issuers first is an order of all rows. -/
theorem issuerOrder_perm (keys : List Key) :
    (issuerOrder keys).Perm (List.range keys.length) := by
  have h := ordered_issuerOrder keys
  refine (List.perm_ext_iff_of_nodup h.nodup List.nodup_range).mpr fun row => ?_
  rw [List.mem_range]
  exact ⟨h.bounded row, h.complete row⟩

theorem filterMap_range (keys : List Key) :
    (List.range keys.length).filterMap (keys[·]?) = keys := by
  induction keys using List.reverseRecOn with
  | nil => rfl
  | append_singleton keys key ih =>
    rw [List.length_append, List.length_singleton, List.range_succ, List.filterMap_append]
    have hfront : (List.range keys.length).filterMap ((keys ++ [key])[·]?) =
        (List.range keys.length).filterMap (keys[·]?) :=
      List.filterMap_congr fun row hrow => List.getElem?_append_left (List.mem_range.mp hrow)
    rw [hfront, ih]
    simp

/-- Putting issuers first only reorders the keys. -/
theorem issuersFirst_perm (keys : List Key) : (issuersFirst keys).Perm keys := by
  have h := (issuerOrder_perm keys).filterMap (keys[·]?)
  rwa [filterMap_range] at h

end KeyForest.Bucket
