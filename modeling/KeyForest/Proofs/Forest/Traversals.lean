import KeyForest.Proofs.Forest.Arranged

/-!
# Walks without a limit

The walks of a forest stop after as many steps as there are placements. Without this limit they are
loops that may never end: `Climbs`, `Seeks` and `Collects` relate where a loop starts to what it ends
with, one rule for each turn it can take. Where no way up runs in a circle, and rows and placements
say the same (`Walkable`), the loops end, and the limited walks answer the same
(`Walkable.traversed`). That is so at every moment (`Arranged.walks_exact`), also right after a row
has been taken out of its bucket while the keys below it are still stored
(`Arranged.leaving_dropRow`).
-/
namespace KeyForest

namespace Placements

variable {up : Placements} {r r' x : Ident} {n : ℕ}

/-- A way up meets no two certificates at the same height. -/
theorem Hangs.eq_of_ends (h : Hangs up r x) (h' : Hangs up r' x) (hr : Ends up n r)
    (hr' : Ends up n r') : r = r' := by
  induction h with
  | self =>
    obtain ⟨m, hm, -, htop⟩ := h'.ends hr'
    exact htop (hm.unique hr)
  | child hx hp ih =>
    cases h' with
    | self =>
      obtain ⟨m, hm, -, htop⟩ := (Hangs.child hx hp).ends hr
      exact (htop (hm.unique hr')).symm
    | child hx' hp' =>
      rw [hx] at hx'
      cases hx'
      exact ih hp'

end Placements

namespace Forest

open Placements

variable {forest : Forest} {loose : Set Ident} {f root : Fingerprint} {key : Key} {a n steps : ℕ}
  {index : RowIndex}

/-- The way up from a key ends: at the top level, or elsewhere. -/
inductive Climbs (forest : Forest) : Fingerprint → Bool → Prop
  | lost {f : Fingerprint} : forest.parents.get? f = none → Climbs forest f false
  | top {f : Fingerprint} : forest.parents.get? f = some none → Climbs forest f true
  | up {f parent : Fingerprint} {answer : Bool} : forest.parents.get? f = some (some parent) →
      Climbs forest parent answer → Climbs forest f answer

/-- The way up from a key ends, or meets `root` before. -/
inductive Seeks (forest : Forest) (root : Fingerprint) : Fingerprint → Bool → Prop
  | found {f : Fingerprint} : (f == root) = true → Seeks forest root f true
  | ended {f : Fingerprint} : (f == root) = false → (forest.parents.get? f).join = none →
      Seeks forest root f false
  | up {f parent : Fingerprint} {answer : Bool} : (f == root) = false →
      forest.parents.get? f = some (some parent) → Seeks forest root parent answer →
      Seeks forest root f answer

/-- What is listed below the keys of a stack is found besides what has been found before. In each
turn the children of the key on top are found, and take its place on the stack, the last on top. -/
inductive Collects (forest : Forest) : List Fingerprint → List Key → List Key → Prop
  | done {found : List Key} : Collects forest [] found found
  | next {f : Fingerprint} {stack : List Fingerprint} {found result : List Key} :
      Collects forest ((forest.childrenOf f).reverse.map (·.fingerprint) ++ stack)
        (found ++ forest.childrenOf f) result → Collects forest (f :: stack) found result

/-- The key is listed below the other one, at some depth. -/
inductive ListedBelow (forest : Forest) : Fingerprint → Key → Prop
  | child {f : Fingerprint} {key : Key} : key ∈ forest.childrenOf f → ListedBelow forest f key
  | deeper {f : Fingerprint} {child key : Key} : child ∈ forest.childrenOf f →
      ListedBelow forest child.fingerprint key → ListedBelow forest f key

/-- The loops end, and with what the limited walks answer. Downwards as well as upwards they find
what there is. -/
structure Traversed (forest : Forest) : Prop where
  collects_iff : ∀ f result, forest.Collects [f] [] result ↔ result = forest.subtree f
  mem_subtree : ∀ f key, key ∈ forest.subtree f ↔ forest.ListedBelow f key
  /-- Every key below is found once. -/
  nodup_subtree : ∀ f, ((forest.subtree f).map Key.ident).Nodup
  seeks_iff : ∀ f root answer, forest.Seeks root f answer ↔ answer = forest.isWithin f root
  isWithin_iff : ∀ f root, forest.isWithin f root = true ↔ Hangs forest.placed root.ident f.ident
  climbs_iff : ∀ f answer, forest.Climbs f answer ↔ answer = forest.isAttached f

/-- The walks are exact, and exactly the stored keys can be reached from the top level. -/
structure Exact (forest : Forest) : Prop extends Traversed forest where
  isAttached_iff : ∀ f, forest.isAttached f = true ↔ forest.stored.has f = true

/-- The walks are exact while the keys below a key that has lost its place are still stored: exactly
the other stored keys can be reached from the top level. -/
structure Leaving (forest : Forest) (f : Fingerprint) : Prop extends Traversed forest where
  isAttached_iff : ∀ g, forest.isAttached g = true ↔
    forest.stored.has g = true ∧ forest.isWithin g f = false

/-! ### Every loop ends in one way at most -/

theorem Climbs.unique {answer answer' : Bool} (h : forest.Climbs f answer)
    (h' : forest.Climbs f answer') : answer = answer' := by
  induction h with
  | lost hget => cases h' <;> simp_all
  | top hget => cases h' <;> simp_all
  | up hget _ ih =>
    cases h' with
    | lost hget' => simp [hget] at hget'
    | top hget' => simp [hget] at hget'
    | up hget' h' =>
      rw [hget] at hget'
      cases hget'
      exact ih h'

theorem Seeks.unique {answer answer' : Bool} (h : forest.Seeks root f answer)
    (h' : forest.Seeks root f answer') : answer = answer' := by
  induction h with
  | found heq => cases h' <;> simp_all
  | ended hne hget => cases h' <;> simp_all
  | up hne hget _ ih =>
    cases h' with
    | found heq => simp [hne] at heq
    | ended _ hget' => simp [hget] at hget'
    | up _ hget' h' =>
      rw [hget] at hget'
      cases hget'
      exact ih h'

theorem Collects.unique {stack : List Fingerprint} {found result result' : List Key}
    (h : forest.Collects stack found result) (h' : forest.Collects stack found result') :
    result = result' := by
  induction h with
  | done =>
    cases h'
    rfl
  | next _ ih =>
    cases h' with
    | next h' => exact ih h'

/-! ### Walks that end -/

/-- Rows and placements say the same, and no way up runs in a circle. -/
structure Walkable (forest : Forest) : Prop where
  rows_sorted : ∀ parent, Bucket.IsSorted (forest.under parent)
  rowsMatch : forest.RowsMatch
  acyclic : Acyclic forest.placed

theorem climbs_reachesTop (hn : Ends forest.placed n f.ident) (hlt : n < steps) :
    forest.Climbs f (forest.reachesTop steps f) := by
  induction steps generalizing f n with
  | zero => omega
  | succ steps ih =>
    rw [reachesTop]
    cases hget : forest.parents.get? f with
    | none => exact .lost hget
    | some parent =>
      cases parent with
      | none => exact .top hget
      | some parent =>
        have hplaced := placed_of_get? hget
        cases hn with
        | here hnone => exact absurd hplaced (hnone _)
        | child hp hn =>
          rw [hp] at hplaced
          cases hplaced
          exact .up hget (ih hn (by omega))

theorem seeks_meets (hn : Ends forest.placed n f.ident) (hlt : n < steps) :
    forest.Seeks root f (forest.meets root steps f) := by
  induction steps generalizing f n with
  | zero => omega
  | succ steps ih =>
    rw [meets]
    split
    · rename_i heq
      exact .found heq
    · rename_i hne
      rw [Bool.not_eq_true] at hne
      cases hget : forest.parents.get? f with
      | none => exact .ended hne (by rw [hget]; rfl)
      | some parent =>
        cases parent with
        | none => exact .ended hne (by rw [hget]; rfl)
        | some parent =>
          have hplaced := placed_of_get? hget
          cases hn with
          | here hnone => exact absurd hplaced (hnone _)
          | child hp hn =>
            rw [hp] at hplaced
            cases hplaced
            exact .up hne hget (ih hn (by omega))

theorem Walkable.placed_of_child (h : forest.Walkable) (hkey : key ∈ forest.childrenOf f) :
    forest.placed key.ident = some (some f.ident) := by
  rw [childrenOf_eq] at hkey
  exact (h.rowsMatch _ _).mpr ⟨key, hkey, rfl⟩

theorem ListedBelow.snoc {child : Key} (h : forest.ListedBelow f child)
    (hkey : key ∈ forest.childrenOf child.fingerprint) : forest.ListedBelow f key := by
  induction h with
  | child hchild => exact .deeper hchild (.child hkey)
  | deeper hchild _ ih => exact .deeper hchild (ih hkey)

namespace Walkable

variable (h : forest.Walkable)
include h

/-- Listed below a key is what is listed under a key that hangs below it. -/
theorem listedBelow_iff :
    forest.ListedBelow f key ↔ ∃ p, Hangs forest.placed f.ident p ∧ key ∈ forest.under (some p) := by
  constructor
  · intro hbelow
    induction hbelow with
    | @child f key hkey => exact ⟨f.ident, .self, by rwa [childrenOf_eq] at hkey⟩
    | @deeper f child key hchild _ ih =>
      obtain ⟨p, hp, hkey⟩ := ih
      exact ⟨p, (Hangs.child (h.placed_of_child hchild) .self).trans hp, hkey⟩
  · rintro ⟨p, hp, hkey⟩
    induction hp generalizing key with
    | self => exact .child (by rwa [childrenOf_eq])
    | child hx _ ih =>
      obtain ⟨child, hchild, rfl⟩ := (h.rowsMatch _ _).mp hx
      exact (ih hchild).snoc (by rwa [childrenOf_eq])

/-- No row is further down than there are placements. -/
theorem lt_parents (ha : Ends forest.placed a f.ident) (hkey : key ∈ forest.childrenOf f) :
    a < forest.parents.length :=
  ends_le_parents (.child (h.placed_of_child hkey) ha)

/-- Of a stack the loop finds, one key after the other, what is listed below it. -/
theorem collects_cons {levels : ℕ} (ha : Ends forest.placed a f.ident)
    (hle : forest.parents.length ≤ levels + a) {stack : List Fingerprint} {found result : List Key}
    (hrest : forest.Collects stack (found ++ forest.below levels f) result) :
    forest.Collects (f :: stack) found result := by
  induction levels generalizing f a stack found with
  | zero =>
    have hnone : forest.childrenOf f = [] := List.eq_nil_iff_forall_not_mem.mpr fun key hkey => by
      have := h.lt_parents ha hkey
      omega
    refine .next ?_
    rwa [hnone]
  | succ levels ih =>
    -- The children have taken the place of the key on the stack; they are done from the top.
    have hstack (keys : List Key) (hkeys : ∀ key ∈ keys, key ∈ forest.childrenOf f)
        {found : List Key} (hrest : forest.Collects stack
          (found ++ keys.flatMap fun key => forest.below levels key.fingerprint) result) :
        forest.Collects (keys.map (·.fingerprint) ++ stack) found result := by
      induction keys generalizing found with
      | nil => rwa [List.flatMap_nil, List.append_nil] at hrest
      | cons key keys ihkeys =>
        obtain ⟨hkey, hkeys⟩ := List.forall_mem_cons.mp hkeys
        refine ih (.child (h.placed_of_child hkey) ha) (by omega) (ihkeys hkeys ?_)
        rw [List.append_assoc]
        exact hrest
    refine .next (hstack _ (fun key hkey => List.mem_reverse.mp hkey) ?_)
    rwa [List.append_assoc]

/-- What is found below a key hangs below it, under a parent that hangs below it as well. -/
theorem hangs_of_mem_below {levels : ℕ} (hkey : key ∈ forest.below levels f) :
    ∃ p, Hangs forest.placed f.ident p ∧ forest.placed key.ident = some (some p) := by
  obtain ⟨p, hp, hkey⟩ := exists_under_of_mem_below h.rowsMatch hkey
  exact ⟨p, hp, (h.rowsMatch _ _).mpr ⟨key, hkey, rfl⟩⟩

/-- What is found below different children of a key is different. -/
theorem nodup_below {levels : ℕ} : ((forest.below levels f).map Key.ident).Nodup := by
  induction levels generalizing f with
  | zero => exact List.nodup_nil
  | succ levels ih =>
    obtain ⟨a, ha⟩ := h.acyclic f.ident
    have hends {child : Key} (hchild : child ∈ forest.childrenOf f) :
        Ends forest.placed (a + 1) child.ident := .child (h.placed_of_child hchild) ha
    have hsorted := h.rows_sorted (some f.ident)
    rw [← childrenOf_eq] at hsorted
    rw [below, List.map_append, List.map_flatMap]
    refine List.Nodup.append hsorted.nodup_idents ?nodup ?disjoint
    case nodup =>
      refine List.nodup_flatMap.mpr ⟨fun child _ => ih, List.pairwise_reverse.mpr ?_⟩
      refine hsorted.imp_of_mem fun {first second} hfirst hsecond hlt x hx hx' => ?_
      have hbelow {child : Key} (hx : x ∈ (forest.below levels child.fingerprint).map Key.ident) :
          Hangs forest.placed child.ident x := by
        obtain ⟨key, hkey, rfl⟩ := List.mem_map.mp hx
        obtain ⟨p, hp, hplaced⟩ := h.hangs_of_mem_below hkey
        exact .child hplaced hp
      exact (Fingerprint.compare_eq_lt.mp hlt).ne
        ((hbelow hx').eq_of_ends (hbelow hx) (hends hfirst) (hends hsecond))
    case disjoint =>
      -- A child that is found below another one would have this as its parent, or a key below it.
      intro x hx hx'
      obtain ⟨child, hchild, rfl⟩ := List.mem_map.mp hx
      obtain ⟨other, hother, hmem⟩ := List.mem_flatMap.mp hx'
      obtain ⟨key, hkey, hident⟩ := List.mem_map.mp hmem
      obtain ⟨p, hp, hplaced⟩ := h.hangs_of_mem_below hkey
      rw [hident, h.placed_of_child hchild] at hplaced
      cases hplaced
      have hother := List.mem_reverse.mp hother
      exact (hends hother).not_hangs_child (h.placed_of_child hother) hp

theorem traversed : forest.Traversed where
  collects_iff f result := by
    obtain ⟨a, ha⟩ := h.acyclic f.ident
    have hcollects : forest.Collects [f] [] (forest.subtree f) :=
      h.collects_cons ha (Nat.le_add_right _ _) .done
    exact ⟨fun hresult => hresult.unique hcollects, fun hresult => hresult ▸ hcollects⟩
  mem_subtree f key := by
    rw [h.listedBelow_iff]
    exact Forest.mem_subtree h.rowsMatch h.acyclic
  nodup_subtree f := h.nodup_below
  seeks_iff f root answer := by
    obtain ⟨n, hn⟩ := h.acyclic f.ident
    have hseeks : forest.Seeks root f (forest.isWithin f root) :=
      seeks_meets hn (Nat.lt_succ_of_le (ends_le_parents hn))
    exact ⟨fun hanswer => hanswer.unique hseeks, fun hanswer => hanswer ▸ hseeks⟩
  isWithin_iff := Forest.isWithin_iff h.acyclic
  climbs_iff f answer := by
    obtain ⟨n, hn⟩ := h.acyclic f.ident
    have hclimbs : forest.Climbs f (forest.isAttached f) :=
      climbs_reachesTop hn (Nat.lt_succ_of_le (ends_le_parents hn))
    exact ⟨fun hanswer => hanswer.unique hclimbs, fun hanswer => hanswer ▸ hclimbs⟩

end Walkable

/-! ### At every moment -/

theorem Arranged.walkable (h : forest.Arranged loose) : forest.Walkable :=
  ⟨h.rows_sorted, h.rowsMatch, h.acyclic⟩

theorem Arranged.has_stored_iff (h : forest.Arranged loose) (f : Fingerprint) :
    forest.stored.has f = true ↔ Attached forest.placed f.ident := by
  rw [Bucket.has_iff h.stored_sorted]
  constructor
  · rintro ⟨key, hkey, hident⟩
    exact hident ▸ h.attached_of_mem hkey
  · intro hattached
    obtain ⟨parent, hparent⟩ := Option.isSome_iff_exists.mp hattached.isSome
    obtain ⟨key, hkey, hident⟩ := (h.rowsMatch _ _).mp hparent
    exact ⟨key, (h.stored_iff key).mpr ⟨parent, hkey, hident ▸ hattached⟩, hident⟩

theorem Arranged.walks_exact (h : forest.Arranged loose) : forest.Exact where
  toTraversed := h.walkable.traversed
  isAttached_iff f := (isAttached_iff f).trans (h.has_stored_iff f).symm

/-- While a row is taken out, the walks are exact as well. -/
theorem Arranged.leaving_dropRow (h : forest.Arranged loose) (hindex : forest.placeOf f = some index) :
    (forest.dropRow index f).Leaving f := by
  have hplaced : (forest.dropRow index f).placed = vacate forest.placed f.ident :=
    placed_detach forest index f
  have hwalkable : (forest.dropRow index f).Walkable :=
    { rows_sorted := fun parent => by
        rw [under_dropRow, under_detach]
        split
        · exact (h.rows_sorted parent).sublist (List.eraseIdx_sublist _ _)
        · exact h.rows_sorted parent
      rowsMatch := h.rowsMatch_detach hindex
      acyclic := by
        rw [hplaced]
        exact h.acyclic.vacate f.ident }
  have hstored (g : Fingerprint) : (forest.dropRow index f).stored.has g = true ↔
      Attached forest.placed g.ident ∧ g.ident ≠ f.ident := by
    rw [← h.has_stored_iff, Bucket.has_iff h.stored_sorted, stored_dropRow,
      Bucket.has_iff (h.stored_sorted.erase f)]
    simp only [Bucket.mem_erase h.stored_sorted]
    constructor
    · rintro ⟨key, ⟨hkey, hne⟩, hident⟩
      exact ⟨⟨key, hkey, hident⟩, hident ▸ hne⟩
    · rintro ⟨⟨key, hkey, hident⟩, hne⟩
      exact ⟨key, ⟨hkey, hident ▸ hne⟩, hident⟩
  refine ⟨hwalkable.traversed, fun g => ?_⟩
  rw [Forest.isAttached_iff, ← Bool.not_eq_true, Forest.isWithin_iff hwalkable.acyclic, hstored,
    hplaced, attached_vacate, hangs_vacate, and_assoc]
  refine and_congr_right fun _ => (and_iff_right_of_imp ?_).symm
  rintro hhangs heq
  exact hhangs (heq ▸ .self)

end Forest

end KeyForest
