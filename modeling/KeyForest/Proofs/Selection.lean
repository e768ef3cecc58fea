import KeyForest.Proofs.Answers

/-!
# Selections of rows

Keys are looked up to indexes and indexes are read back to keys. A stored key is always found, and
what is read back is its stored version. Repetitions, however, collapse only where they are
neighbours, so that a selection is read back without repetition exactly if everything it says of one
certificate stands together (`Listing.Selecting`, `run_selects`).
-/
namespace KeyForest

/-! ### Lists in which equal elements stand together -/

section Together

variable {α β : Type} {xs : List α} {x y : α}

/-- Whether nothing else stands between equal elements of a list. -/
def Together (xs : List α) : Prop := ∀ x y, [x, y, x].Sublist xs → y = x

theorem Together.of_nodup (h : xs.Nodup) : Together xs := fun x y hsub => by
  have := hsub.nodup h
  simp at this

theorem together_cons_self : Together (x :: x :: xs) ↔ Together (x :: xs) := by
  constructor
  · exact fun h a b hsub => h a b (hsub.cons x)
  · intro h a b hsub
    rcases List.cons_sublist_cons'.mp hsub with hsub | ⟨rfl, hsub⟩
    · exact h a b hsub
    · rcases List.cons_sublist_cons'.mp hsub with hsub | ⟨rfl, -⟩
      · exact h a b (hsub.cons_cons a)
      · rfl

theorem together_cons_of_ne (hne : x ≠ y) :
    Together (x :: y :: xs) ↔ x ∉ y :: xs ∧ Together (y :: xs) := by
  constructor
  · refine fun h => ⟨fun hmem => hne ?_, fun a b hsub => h a b (hsub.cons x)⟩
    have hxs : x ∈ xs := (List.mem_cons.mp hmem).resolve_left hne
    exact (h x y (((List.singleton_sublist.mpr hxs).cons_cons y).cons_cons x)).symm
  · rintro ⟨hnot, h⟩ a b hsub
    rcases List.cons_sublist_cons'.mp hsub with hsub | ⟨rfl, hrest⟩
    · exact h a b hsub
    · exact absurd (hrest.subset (List.mem_cons_of_mem b List.mem_cons_self)) hnot

variable [BEq α] [LawfulBEq α] [BEq β] [LawfulBEq β]

theorem nodup_eraseDups (xs : List α) : xs.eraseDups.Nodup := by
  induction hn : xs.length using Nat.strong_induction_on generalizing xs with
  | _ n ih =>
    cases xs with
    | nil => simp
    | cons x xs =>
      have hlen := List.length_filter_le (fun y => !y == x) xs
      rw [List.length_cons] at hn
      rw [List.eraseDups_cons, List.nodup_cons, List.mem_eraseDups]
      exact ⟨by simp, ih _ (by omega) _ rfl⟩

/-- Repetitions may be dropped before or after a map that tells elements apart. -/
theorem filterMap_eraseDups {f : α → Option β}
    (hinj : ∀ x y z, f x = some z → f y = some z → x = y) (xs : List α) :
    xs.eraseDups.filterMap f = (xs.filterMap f).eraseDups := by
  induction hn : xs.length using Nat.strong_induction_on generalizing xs with
  | _ n ih =>
    cases xs with
    | nil => simp
    | cons x xs =>
      have hlen := List.length_filter_le (fun y => !y == x) xs
      rw [List.length_cons] at hn
      rw [List.eraseDups_cons, List.filterMap_cons, List.filterMap_cons,
        ih _ (by omega) _ rfl, List.filterMap_filter]
      cases hx : f x with
      | none =>
        refine congrArg List.eraseDups (List.filterMap_congr fun y _ => ?_)
        by_cases hyx : y = x <;> simp [hyx, hx]
      | some z =>
        simp only [List.eraseDups_cons, List.filter_filterMap]
        congr 2
        refine List.filterMap_congr fun y _ => ?_
        by_cases hyx : y = x
        · simp [hyx, hx, Option.filter_some]
        · cases hy : f y with
          | none => simp [hyx]
          | some w =>
            have hne : w ≠ z := fun heq => hyx (hinj y x z (heq ▸ hy) hx)
            simp [hyx, hne, Option.filter_some]

end Together

namespace Listing

/-! ### Runs of keys -/

variable {keys : List Key} {a b : Key}

theorem head?_firstOfRuns (key : Key) (keys : List Key) :
    ∃ more, firstOfRuns (key :: keys) = key :: more := by
  unfold firstOfRuns
  rw [List.foldr_cons]
  split
  · split <;> exact ⟨_, rfl⟩
  · exact ⟨_, rfl⟩

/-- Of two neighbours that stand for the same certificate the first stays. -/
theorem firstOfRuns_cons_cons (a b : Key) (keys : List Key) : firstOfRuns (a :: b :: keys) =
    if a.ident = b.ident then a :: (firstOfRuns (b :: keys)).tail
    else a :: firstOfRuns (b :: keys) := by
  obtain ⟨more, hmore⟩ := head?_firstOfRuns b keys
  rw [hmore]
  unfold firstOfRuns at hmore ⊢
  rw [List.foldr_cons, hmore]
  simp [Key.same]

theorem mem_idents_firstOfRuns {x : Ident} :
    x ∈ (firstOfRuns keys).map Key.ident ↔ x ∈ keys.map Key.ident := by
  induction keys with
  | nil => rfl
  | cons a keys ih =>
    cases keys with
    | nil => rfl
    | cons b keys =>
      obtain ⟨more, hmore⟩ := head?_firstOfRuns b keys
      rw [firstOfRuns_cons_cons, List.map_cons, List.mem_cons, ← ih, hmore]
      split <;> simp_all

/-- Neighbours that repeat are all the repetitions exactly if equal keys stand together. -/
theorem nodup_firstOfRuns :
    ((firstOfRuns keys).map Key.ident).Nodup ↔ Together (keys.map Key.ident) := by
  induction keys with
  | nil => exact iff_of_true List.nodup_nil (Together.of_nodup List.nodup_nil)
  | cons a keys ih =>
    cases keys with
    | nil =>
      exact iff_of_true (List.nodup_singleton _) (Together.of_nodup (List.nodup_singleton _))
    | cons b keys =>
      rw [firstOfRuns_cons_cons, List.map_cons, List.map_cons]
      rw [List.map_cons] at ih
      split
      · rename_i hab
        obtain ⟨more, hmore⟩ := head?_firstOfRuns b keys
        rw [hab, together_cons_self, ← ih, hmore, List.tail_cons, List.map_cons, List.map_cons,
          hab]
      · rename_i hab
        rw [together_cons_of_ne hab, ← ih, List.map_cons, List.nodup_cons, mem_idents_firstOfRuns,
          List.map_cons]

theorem firstOfRuns_subset (keys : List Key) : firstOfRuns keys ⊆ keys := by
  induction keys with
  | nil => exact List.Subset.refl _
  | cons a keys ih =>
    cases keys with
    | nil => exact List.Subset.refl _
    | cons b keys =>
      rw [firstOfRuns_cons_cons]
      split
      · exact List.cons_subset_cons a (List.Subset.trans (List.tail_subset _) ih)
      · exact List.cons_subset_cons a ih

/-- Where equal keys stand together, collapsing neighbours drops every repetition. -/
theorem firstOfRuns_eq_eraseDups (hunique : ∀ a ∈ keys, ∀ b ∈ keys, a.ident = b.ident → a = b)
    (h : Together (keys.map Key.ident)) : firstOfRuns keys = keys.eraseDups := by
  induction keys with
  | nil => rfl
  | cons a keys ih =>
    cases keys with
    | nil => simp [firstOfRuns, List.eraseDups_cons]
    | cons b keys =>
      have hrest := ih fun c hc d hd => hunique c (List.mem_cons_of_mem a hc) d
        (List.mem_cons_of_mem a hd)
      rw [firstOfRuns_cons_cons]
      rw [List.map_cons, List.map_cons] at h
      rw [List.map_cons] at hrest
      split
      · rename_i hab
        obtain rfl : a = b := hunique a (by simp) b (by simp) hab
        obtain ⟨more, hmore⟩ := head?_firstOfRuns a keys
        rw [together_cons_self] at h
        have hself : (a :: a :: keys).eraseDups = (a :: keys).eraseDups := by
          simp [List.eraseDups_cons]
        rw [hself, ← hrest h, hmore, List.tail_cons]
      · rename_i hab
        obtain ⟨hnot, h⟩ := (together_cons_of_ne hab).mp h
        have hother : (b :: keys).filter (fun c => !c == a) = b :: keys := by
          refine List.filter_eq_self.mpr fun c hc => ?_
          have hne : c ≠ a := by
            rintro rfl
            exact hnot (List.mem_map_of_mem hc)
          simpa using hne
        rw [List.eraseDups_cons, hother, hrest h]

/-! ### Looking up and reading back -/

section Resolving

variable {σ : Type} [Listing σ] {state : σ}

/-- Certificates are found where their stored versions are listed. -/
structure Resolves (state : σ) : Prop where
  sorted : Bucket.IsSorted (stored state)
  named : (stored state).key? [] = none
  keyAt_congr : ∀ a b : RowIndex, a.same b = true → keyAt state a = keyAt state b
  keyAt_placeOf : ∀ f, (placeOf state f).bind (keyAt state) = (stored state).key? f.ident
  stored_of_keyAt : ∀ {index key}, keyAt state index = some key →
    (stored state).key? key.ident = some key

/-- Reading back what keys are looked up to gives the stored versions of those that are stored, each
once, in the order in which the keys are first named. -/
def ReadsBack (state : σ) (keys : List Key) : Prop :=
  keysAt state (indexesOf state keys) =
    (keys.map Key.ident).eraseDups.filterMap (stored state).key?

instance (state : σ) (keys : List Key) : Decidable (ReadsBack state keys) :=
  inferInstanceAs (Decidable (_ = _))

/-- What is true of selections from a key list. -/
structure Selecting (state : σ) : Prop where
  /-- How the parent of an index is spelled does not matter. -/
  keyAt_congr : ∀ a b, a.same b = true → keyAt state a = keyAt state b
  /-- Every stored key is read back as it is stored; neighbours that repeat collapse. -/
  keysAt_indexesOf : ∀ keys, keysAt state (indexesOf state keys) =
    firstOfRuns (keys.filterMap fun key => keyWith state key.fingerprint)
  readsBack_iff : ∀ keys, ReadsBack state keys ↔
    Together ((keys.filter fun key => (keyWith state key.fingerprint).isSome).map Key.ident)
  /-- Invalid indexes are skipped, and no valid one is lost. -/
  mem_keysAt : ∀ indexes key, key ∈ keysAt state indexes ↔
    ∃ index ∈ indexes, keyAt state index = some key
  distinct_iff : ∀ indexes, ((keysAt state indexes).map Key.ident).Nodup ↔
    Together ((indexes.filterMap (keyAt state)).map Key.ident)

/-- A list of keys that names no certificate twice is read back. -/
theorem Selecting.readsBack_of_nodup (h : Selecting state) {keys : List Key}
    (hnodup : (keys.map Key.ident).Nodup) : ReadsBack state keys :=
  (h.readsBack_iff keys).mpr (.of_nodup (hnodup.sublist (List.filter_sublist.map Key.ident)))

namespace Resolves

variable (h : Resolves state)
include h

theorem keyAt_indexOf (key : Key) :
    (indexOf state key).bind (keyAt state) = (stored state).key? key.ident := by
  unfold indexOf
  split
  · rename_i hnull
    rw [Key.isNull_iff.mp hnull, h.named, Option.bind_none]
  · exact h.keyAt_placeOf key.fingerprint

theorem keysAt_indexesOf (keys : List Key) : keysAt state (indexesOf state keys) =
    firstOfRuns (keys.filterMap fun key => (stored state).key? key.ident) := by
  rw [keysAt, indexesOf, List.filterMap_filterMap]
  exact congrArg firstOfRuns (List.filterMap_congr fun key _ => h.keyAt_indexOf key)

theorem readsBack_iff (keys : List Key) : ReadsBack state keys ↔
    Together ((keys.filterMap fun key => (stored state).key? key.ident).map Key.ident) := by
  have hinj : ∀ x y key, (stored state).key? x = some key → (stored state).key? y = some key →
      x = y := fun x y key hx hy =>
    (Bucket.mem_of_key? hx).2.symm.trans (Bucket.mem_of_key? hy).2
  have hident : ∀ key ∈ keys.filterMap fun key => (stored state).key? key.ident,
      (stored state).key? key.ident = some key := by
    intro key hkey
    obtain ⟨given, -, hfound⟩ := List.mem_filterMap.mp hkey
    rwa [(Bucket.mem_of_key? hfound).2]
  have hunique : ∀ a ∈ keys.filterMap (fun key => (stored state).key? key.ident),
      ∀ b ∈ keys.filterMap (fun key => (stored state).key? key.ident), a.ident = b.ident → a = b :=
    fun a ha b hb hab => Option.some.inj ((hident a ha).symm.trans (hab ▸ hident b hb))
  have honce : (keys.map Key.ident).eraseDups.filterMap (stored state).key? =
      (keys.filterMap fun key => (stored state).key? key.ident).eraseDups := by
    rw [filterMap_eraseDups hinj, List.filterMap_map]
    rfl
  rw [ReadsBack, h.keysAt_indexesOf, honce]
  refine ⟨fun heq => ?_, firstOfRuns_eq_eraseDups hunique⟩
  rw [← nodup_firstOfRuns, heq]
  refine (nodup_eraseDups _).map_on fun a ha b hb hab => ?_
  exact hunique a (List.mem_eraseDups.mp ha) b (List.mem_eraseDups.mp hb) hab

theorem mem_keysAt (indexes : List RowIndex) (key : Key) : key ∈ keysAt state indexes ↔
    ∃ index ∈ indexes, keyAt state index = some key := by
  rw [← List.mem_filterMap]
  refine ⟨fun hkey => firstOfRuns_subset _ hkey, fun hkey => ?_⟩
  have hstored : ∀ a ∈ indexes.filterMap (keyAt state), (stored state).key? a.ident = some a := by
    intro a ha
    obtain ⟨index, -, hindex⟩ := List.mem_filterMap.mp ha
    exact h.stored_of_keyAt hindex
  obtain ⟨other, hother, hident⟩ := List.mem_map.mp
    (mem_idents_firstOfRuns.mpr (List.mem_map_of_mem (f := Key.ident) hkey))
  have heq := (hstored other (firstOfRuns_subset _ hother)).symm.trans
    (hident ▸ hstored key hkey)
  rwa [← Option.some.inj heq]

theorem selecting : Selecting state where
  keyAt_congr := h.keyAt_congr
  keysAt_indexesOf keys := by
    rw [h.keysAt_indexesOf]
    exact congrArg firstOfRuns (List.filterMap_congr fun key _ =>
      (Bucket.lookup_eq h.sorted key.fingerprint).symm)
  readsBack_iff keys := by
    have hlookup (key : Key) :
        keyWith state key.fingerprint = (stored state).key? key.ident :=
      Bucket.lookup_eq h.sorted key.fingerprint
    rw [h.readsBack_iff]
    simp only [hlookup]
    refine iff_of_eq (congrArg Together ?_)
    induction keys with
    | nil => rfl
    | cons key keys ih =>
      cases hfound : (stored state).key? key.ident with
      | none => simp [hfound, ih]
      | some other =>
        have hident := (Bucket.mem_of_key? hfound).2
        simp [hfound, ih, hident]
  mem_keysAt := h.mem_keysAt
  distinct_iff indexes := nodup_firstOfRuns

end Resolves

end Resolving

end Listing

/-! ### Both key lists -/

open Listing

theorem FlatList.Tidy.resolves {list : FlatList} (h : FlatList.Tidy list) : Resolves list where
  sorted := h.sorted
  named := Bucket.key?_eq_none.mpr h.named
  keyAt_congr a b hsame := by
    obtain ⟨hparent, hrow⟩ := Prod.mk.inj (RowIndex.same_iff.mp hsame)
    have hnone : a.parent.isNone = b.parent.isNone := by
      simpa using congrArg Option.isNone hparent
    simp only [keyAt, rows, hnone, hrow]
  keyAt_placeOf f := by
    have hplace : placeOf list f = (list.keys.rowOf? f).map RowIndex.top := rfl
    rw [hplace, Option.bind_map]
    exact Bucket.lookup_eq h.sorted f
  stored_of_keyAt {index key} hkey := by
    refine h.sorted.key?_eq_some.mpr ⟨?_, rfl⟩
    simp only [keyAt, rows] at hkey
    split at hkey
    · exact List.mem_of_getElem? hkey
    · contradiction

theorem Forest.Settled.resolves {forest : Forest} {outline : Outline}
    (h : forest.Settled outline) : Resolves forest where
  sorted := h.arranged.stored_sorted
  named := by
    refine Bucket.key?_eq_none.mpr fun key hkey => ?_
    obtain ⟨parent, hparent⟩ := h.mem_stored.mp hkey
    exact h.arranged.named parent key hparent
  keyAt_congr a b hsame := by
    obtain ⟨hparent, hrow⟩ := Prod.mk.inj (RowIndex.same_iff.mp hsame)
    have hrows : forest.rows a.parent = forest.rows b.parent := by
      rw [Forest.rows_eq, Forest.rows_eq, hparent]
    exact congrArg₂ (fun keys row => keys[row]?) hrows hrow
  keyAt_placeOf f := by
    have hbind : (forest.placeOf f).bind (keyAt forest) = (forest.found? f).map Prod.snd := by
      cases hindex : forest.placeOf f with
      | none => simp [Forest.found?, hindex]
      | some index => cases hkey : keyAt forest index <;> simp [Forest.found?, hindex, hkey]
    refine hbind.trans ?_
    cases hfound : forest.found? f with
    | none =>
      rw [Option.map_none, eq_comm, Bucket.key?_eq_none]
      intro key hkey hident
      obtain ⟨index, hsome⟩ := h.arranged.exists_found? hkey hident.symm
      rw [hfound] at hsome
      contradiction
    | some entry =>
      obtain ⟨hkey, hident⟩ := h.arranged.found?_eq_some hfound
      exact (h.arranged.stored_sorted.key?_eq_some.mpr
        ⟨h.mem_stored_of_row (List.mem_of_getElem? hkey), hident⟩).symm
  stored_of_keyAt {index key} hkey :=
    h.arranged.stored_sorted.key?_eq_some.mpr
      ⟨h.mem_stored_of_row (List.mem_of_getElem? hkey), rfl⟩

/-- After any run, in both key lists: whatever keys are looked up, each stored one of them is read
back as it is stored, and whatever indexes are read, no valid one is lost and no invalid one does
harm. Of repetitions those of neighbours collapse; so no certificate is read twice exactly if what
the selection says of each certificate stands together. -/
theorem run_selects (operations : List Operation) :
    Selecting (Operation.run operations : Journal FlatList).state ∧
      Selecting (Operation.run operations : Journal Forest).state :=
  ⟨(FlatList.run_spec operations).2.resolves.selecting,
    (Forest.run_spec operations).2.resolves.selecting⟩

/-- A certificate that is named again after another one is read twice. -/
theorem not_distinct_of_named_again :
    let first := Key.ofFingerprint (.ofText "A")
    let second := Key.ofFingerprint (.ofText "B")
    let flat : FlatList := (Operation.run [.addOne first, .addOne second]).state
    let forest : Forest := (Operation.run [.addOne first, .addOne second]).state
    let indexes : List RowIndex := [.top 0, .top 1, .top 0]
    (¬ ((keysAt flat indexes).map Key.ident).Nodup ∧ ¬ ReadsBack flat [first, second, first]) ∧
      ¬ ((keysAt forest indexes).map Key.ident).Nodup ∧
        ¬ ReadsBack forest [first, second, first] := by
  decide +kernel

end KeyForest
