import KeyForest.Bucket
import KeyForest.Proofs.Identity
import Mathlib.Data.List.Nodup
import Mathlib.Data.List.Perm.Basic
import Mathlib.Tactic

/-!
# Sorted lists of keys as finite sets

On a sorted list the search by halving splits the list at the fingerprint (`search_spec`). From that
split each operation is described by its members (`mem_put`, `mem_erase`, `lookup_eq_some`), and
sorted lists with the same members are equal (`IsSorted.ext`).
-/
namespace KeyForest.Bucket

/-- The key with an identity. -/
def key? (keys : Bucket) (x : Ident) : Option Key := keys.find? fun key => key.ident = x

theorem IsSorted.nodup_idents {keys : Bucket} (h : IsSorted keys) : (keys.map Key.ident).Nodup :=
  List.Pairwise.map _ (fun _ _ hlt => Ident.Below.ne hlt) h

theorem IsSorted.nodup {keys : Bucket} (h : IsSorted keys) : keys.Nodup :=
  List.Nodup.of_map _ h.nodup_idents

/-- Lists without neighbours are short. -/
theorem eq_nil_or_singleton {keys : List Key} (hshort : ∀ a b rest, keys = a :: b :: rest → False) :
    keys = [] ∨ ∃ key, keys = [key] := by
  rcases keys with _ | ⟨a, _ | ⟨b, rest⟩⟩
  · exact .inl rfl
  · exact .inr ⟨a, rfl⟩
  · exact absurd rfl (hshort a b rest)

/-- The test of neighbours finds out whether a list is sorted. -/
theorem isSorted_eq_true {keys : Bucket} : isSorted keys = true ↔ IsSorted keys := by
  fun_induction isSorted keys with
  | case1 a b rest ih =>
    simp only [Bool.and_eq_true, ih, beq_iff_eq]
    constructor
    · rintro ⟨hab, hrest⟩
      refine List.pairwise_cons.mpr ⟨fun key hkey => ?_, hrest⟩
      rcases List.mem_cons.mp hkey with rfl | hkey
      · exact hab
      · exact Ident.Below.trans hab ((List.pairwise_cons.mp hrest).1 key hkey)
    · intro h
      obtain ⟨ha, hrest⟩ := List.pairwise_cons.mp h
      exact ⟨ha b List.mem_cons_self, hrest⟩
  | case2 keys hshort =>
    refine iff_of_true rfl ?_
    rcases eq_nil_or_singleton hshort with rfl | ⟨key, rfl⟩
    · exact List.Pairwise.nil
    · exact List.pairwise_singleton _ _

theorem IsSorted.ext {a b : Bucket} (ha : IsSorted a) (hb : IsSorted b)
    (h : ∀ key, key ∈ a ↔ key ∈ b) : a = b := by
  have hperm : a.Perm b := (List.perm_ext_iff_of_nodup ha.nodup hb.nodup).mpr h
  refine hperm.eq_of_pairwise (fun x y _ _ hxy hyx => ?_) ha hb
  exact absurd hyx (Ident.Below.asymm hxy)

theorem IsSorted.eq_of_ident {keys : Bucket} (h : IsSorted keys) {a b : Key} (ha : a ∈ keys)
    (hb : b ∈ keys) (hab : a.ident = b.ident) : a = b :=
  List.inj_on_of_nodup_map h.nodup_idents ha hb hab

theorem mem_of_key? {keys : Bucket} {x : Ident} {key : Key} (h : keys.key? x = some key) :
    key ∈ keys ∧ key.ident = x :=
  ⟨List.mem_of_find?_eq_some h, by simpa using List.find?_some h⟩

theorem IsSorted.key?_eq_some {keys : Bucket} (h : IsSorted keys) {x : Ident} {key : Key} :
    keys.key? x = some key ↔ key ∈ keys ∧ key.ident = x := by
  refine ⟨mem_of_key?, fun ⟨hmem, hident⟩ => ?_⟩
  cases hfind : keys.key? x with
  | none =>
    have := List.find?_eq_none.mp hfind key hmem
    simp [hident] at this
  | some other =>
    obtain ⟨hother, hx⟩ := mem_of_key? hfind
    rw [h.eq_of_ident hother hmem (hx.trans hident.symm)]

/-- A sorted list is settled by what is found in it. -/
theorem IsSorted.ext_key? {a b : Bucket} (ha : IsSorted a) (hb : IsSorted b)
    (h : a.key? = b.key?) : a = b := by
  refine ha.ext hb fun key => ?_
  have hmem {keys : Bucket} (hkeys : IsSorted keys) :
      key ∈ keys ↔ keys.key? key.ident = some key := by
    rw [hkeys.key?_eq_some, and_iff_left rfl]
  rw [hmem ha, hmem hb, h]

theorem key?_eq_none {keys : Bucket} {x : Ident} :
    keys.key? x = none ↔ ∀ key ∈ keys, key.ident ≠ x := by
  simp [key?]

theorem isSome_key? {keys : Bucket} {x : Ident} :
    (keys.key? x).isSome ↔ ∃ key ∈ keys, key.ident = x := by
  simp [key?]

/-! ### Searching -/

/-- The rows from `base` on among which the search goes on: the first is not above the sought
identity, unless it is the first of all, and the rows behind the window are above it. -/
structure Window (keys : Bucket) (x : Ident) (base size : Nat) : Prop where
  within : base + size ≤ keys.length
  start : base = 0 ∨ ∀ key ∈ keys[base]?, ¬ Ident.Below x key.ident
  behind : ∀ i key, keys[i]? = some key → base + size ≤ i → Ident.Below x key.ident

theorem narrow_window {keys : Bucket} (h : IsSorted keys) (f : Fingerprint) {base size : Nat}
    (window : Window keys f.ident base size) (hsize : 0 < size) :
    Window keys f.ident (narrow keys f base size) 1 := by
  induction size using Nat.strongRecOn generalizing base with
  | _ size ih =>
    rw [narrow]
    split
    · rename_i hlarge
      dsimp only
      have hwithin := window.within
      have hin : base + size / 2 < keys.length := by omega
      set middle := base + size / 2 with hmiddle
      have habove : (keys[middle]?.any fun key => compare key.fingerprint f == .gt) = true ↔
          Ident.Below f.ident keys[middle].ident := by
        rw [List.getElem?_eq_getElem hin, Option.any_some, beq_iff_eq, Fingerprint.compare_eq_gt]
      by_cases hab : Ident.Below f.ident keys[middle].ident
      · rw [if_pos (habove.mpr hab)]
        refine ih _ (by omega) ⟨by omega, window.start, fun i key hi hle => ?_⟩ (by omega)
        obtain ⟨hlt, rfl⟩ := List.getElem?_eq_some_iff.mp hi
        rcases Nat.lt_or_ge middle i with hmi | hmi
        · exact hab.trans (List.pairwise_iff_getElem.mp h middle i hin hlt hmi)
        · obtain rfl : middle = i := by omega
          exact hab
      · rw [if_neg (mt habove.mp hab)]
        refine ih _ (by omega) ⟨by omega, .inr fun key hkey => ?_,
          fun i key hi hle => window.behind i key hi (by omega)⟩ (by omega)
        rw [List.getElem?_eq_getElem hin, Option.mem_some_iff] at hkey
        rw [← hkey]
        exact hab
    · obtain rfl : size = 1 := by omega
      exact window

/-- What a slot says about a list: where a key with the identity is, or where the list splits into
the keys below the identity and the keys above it. -/
def Fits (keys : Bucket) (x : Ident) : Slot → Prop
  | .taken row => ∃ front key back,
      keys = front ++ key :: back ∧ front.length = row ∧ key.ident = x
  | .free row => ∃ front back, keys = front ++ back ∧ front.length = row ∧
      (∀ key ∈ front, Ident.Below key.ident x) ∧ ∀ key ∈ back, Ident.Below x key.ident

theorem fits_free {keys : Bucket} {x : Ident} {row : Nat} (hrow : row ≤ keys.length)
    (hfront : ∀ i key, keys[i]? = some key → i < row → Ident.Below key.ident x)
    (hback : ∀ i key, keys[i]? = some key → row ≤ i → Ident.Below x key.ident) :
    Fits keys x (.free row) := by
  refine ⟨keys.take row, keys.drop row, (List.take_append_drop row keys).symm,
    List.length_take_of_le hrow,
    fun key hkey => ?_, fun key hkey => ?_⟩
  · obtain ⟨i, hi⟩ := List.mem_iff_getElem?.mp hkey
    rw [List.getElem?_take] at hi
    split at hi
    · exact hfront i key hi ‹_›
    · contradiction
  · obtain ⟨i, hi⟩ := List.mem_iff_getElem?.mp hkey
    rw [List.getElem?_drop] at hi
    exact hback (row + i) key hi (Nat.le_add_right row i)

theorem search_spec {keys : Bucket} (h : IsSorted keys) (f : Fingerprint) :
    Fits keys f.ident (search keys f) := by
  rcases Nat.eq_zero_or_pos keys.length with hzero | hpos
  · rw [List.length_eq_zero_iff.mp hzero]
    exact ⟨[], [], rfl, by simp [narrow], by simp, by simp⟩
  have window : Window keys f.ident (narrow keys f 0 keys.length) 1 := narrow_window h f
    ⟨by omega, .inl rfl, fun i key hi hle => by
      have := (List.getElem?_eq_some_iff.mp hi).1
      omega⟩ hpos
  unfold search
  set base := narrow keys f 0 keys.length
  have hin : base < keys.length := window.within
  have hkey : keys[base]? = some keys[base] := List.getElem?_eq_getElem hin
  simp only [hkey]
  split
  · rename_i heq
    exact ⟨keys.take base, keys[base], keys.drop (base + 1), by simp,
      by simp; omega, Fingerprint.compare_eq_eq.mp heq⟩
  · rename_i hlt
    rw [Fingerprint.compare_eq_lt] at hlt
    refine fits_free hin (fun i key hi hle => ?_) fun i key hi hle => window.behind i key hi hle
    obtain ⟨hin', rfl⟩ := List.getElem?_eq_some_iff.mp hi
    rcases Nat.lt_or_eq_of_le (Nat.le_of_lt_succ hle) with hlt' | rfl
    · exact Ident.Below.trans (List.pairwise_iff_getElem.mp h i base hin' hin hlt') hlt
    · exact hlt
  · rename_i hgt
    rw [Fingerprint.compare_eq_gt] at hgt
    rcases window.start with hzero | hnot
    · refine fits_free (Nat.le_of_lt hin) (fun i key hi hlt => by omega) fun i key hi hle => ?_
      rcases Nat.lt_or_eq_of_le hle with hlt | rfl
      · exact window.behind i key hi hlt
      · rw [hkey] at hi
        cases hi
        exact hgt
    · exact absurd hgt (hnot _ (by simp [hkey]))

/-- In a sorted list a fingerprint is found at the row where it is. -/
theorem rowOf?_eq_some {keys : Bucket} (h : IsSorted keys) {f : Fingerprint} {row : Nat} :
    keys.rowOf? f = some row ↔ ∃ key, keys[row]? = some key ∧ key.ident = f.ident := by
  have hfits := search_spec h f
  unfold rowOf?
  cases hslot : search keys f with
  | taken found =>
    rw [hslot] at hfits
    obtain ⟨front, key, back, hkeys, hfound, hident⟩ := hfits
    have hget : keys[found]? = some key := by simp [hkeys, ← hfound]
    simp only [Slot.taken?, Option.some.injEq]
    constructor
    · rintro rfl
      exact ⟨key, hget, hident⟩
    · rintro ⟨other, hother, hsame⟩
      obtain ⟨hfin, rfl⟩ := List.getElem?_eq_some_iff.mp hget
      obtain ⟨hin, rfl⟩ := List.getElem?_eq_some_iff.mp hother
      have hsame : keys[found] = keys[row] :=
        h.eq_of_ident (List.getElem_mem hfin) (List.getElem_mem hin) (hident.trans hsame.symm)
      exact h.nodup.getElem_inj_iff.mp hsame
  | free found =>
    rw [hslot] at hfits
    obtain ⟨front, back, rfl, -, hfront, hback⟩ := hfits
    simp only [Slot.taken?, false_iff, reduceCtorEq]
    rintro ⟨key, hkey, hident⟩
    rcases List.mem_append.mp (List.mem_of_getElem? hkey) with hmem | hmem
    · exact (hfront key hmem).ne hident
    · exact (hback key hmem).ne hident.symm

theorem lookup_eq {keys : Bucket} (h : IsSorted keys) (f : Fingerprint) :
    keys.lookup f = keys.key? f.ident := by
  unfold lookup
  cases hrow : keys.rowOf? f with
  | none =>
    rw [Option.bind_none, eq_comm, key?_eq_none]
    intro key hkey hident
    obtain ⟨row, hget⟩ := List.mem_iff_getElem?.mp hkey
    rw [(rowOf?_eq_some h).mpr ⟨key, hget, hident⟩] at hrow
    contradiction
  | some row =>
    obtain ⟨key, hget, hident⟩ := (rowOf?_eq_some h).mp hrow
    rw [Option.bind_some, hget, eq_comm, h.key?_eq_some]
    exact ⟨List.mem_of_getElem? hget, hident⟩

theorem isSome_rowOf? {keys : Bucket} (h : IsSorted keys) {f : Fingerprint} :
    (keys.rowOf? f).isSome ↔ ∃ key ∈ keys, key.ident = f.ident := by
  rw [← isSome_key?, ← lookup_eq h, lookup]
  cases hrow : keys.rowOf? f with
  | none => simp
  | some row =>
    obtain ⟨key, hget, -⟩ := (rowOf?_eq_some h).mp hrow
    simp [hget]

theorem has_iff {keys : Bucket} (h : IsSorted keys) {f : Fingerprint} :
    keys.has f = true ↔ ∃ key ∈ keys, key.ident = f.ident := by
  rw [← isSome_rowOf? h, has, rowOf?]
  cases keys.search f <;> simp [Slot.isTaken, Slot.taken?]

/-! ### Putting and erasing -/

theorem putAt_taken (front back : Bucket) (old key : Key) :
    putAt (front ++ old :: back) key (.taken front.length) = front ++ key :: back := by
  simp [putAt]

theorem putAt_free (front back : Bucket) (key : Key) :
    putAt (front ++ back) key (.free front.length) = front ++ key :: back := by
  simp only [putAt]
  induction front with
  | nil => simp
  | cons first front ih => simpa using ih

/-- A put key stands between the keys below it and the keys above it. -/
theorem put_split {keys : Bucket} (h : IsSorted keys) (key : Key) :
    ∃ front back, keys.put key = front ++ key :: back ∧
      (keys = front ++ back ∨ ∃ old, keys = front ++ old :: back ∧ old.ident = key.ident) ∧
      IsSorted (front ++ back) ∧ (∀ other ∈ front, Ident.Below other.ident key.ident) ∧
      ∀ other ∈ back, Ident.Below key.ident other.ident := by
  have hfits := search_spec h key.fingerprint
  unfold put
  cases hslot : search keys key.fingerprint with
  | taken row =>
    rw [hslot] at hfits
    obtain ⟨front, old, back, rfl, rfl, hident⟩ := hfits
    replace hident : old.ident = key.ident := hident
    obtain ⟨hf, hob, hfob⟩ := List.pairwise_append.mp h
    obtain ⟨hold, hb⟩ := List.pairwise_cons.mp hob
    have hsorted : IsSorted (front ++ back) := List.pairwise_append.mpr
      ⟨hf, hb, fun a ha b hb => hfob a ha b (List.mem_cons_of_mem _ hb)⟩
    refine ⟨front, back, putAt_taken front back old key, .inr ⟨old, rfl, hident⟩, hsorted, ?_, ?_⟩
    · intro other hother
      rw [← hident]
      exact hfob other hother old List.mem_cons_self
    · intro other hother
      rw [← hident]
      exact hold other hother
  | free row =>
    rw [hslot] at hfits
    obtain ⟨front, back, rfl, rfl, hfront, hback⟩ := hfits
    exact ⟨front, back, putAt_free front back key, .inl rfl, h, hfront, hback⟩

theorem IsSorted.put {keys : Bucket} (h : IsSorted keys) (key : Key) : IsSorted (keys.put key) := by
  obtain ⟨front, back, hput, -, hsorted, hfront, hback⟩ := put_split h key
  obtain ⟨hf, hb, hfb⟩ := List.pairwise_append.mp hsorted
  rw [hput]
  refine List.pairwise_append.mpr ⟨hf, List.pairwise_cons.mpr ⟨hback, hb⟩, fun a ha b hb' => ?_⟩
  rcases List.mem_cons.mp hb' with rfl | hb'
  · exact hfront a ha
  · exact hfb a ha b hb'

theorem mem_put {keys : Bucket} (h : IsSorted keys) {key other : Key} :
    other ∈ keys.put key ↔ other = key ∨ other ∈ keys ∧ other.ident ≠ key.ident := by
  obtain ⟨front, back, hput, hkeys, -, hfront, hback⟩ := put_split h key
  have hfront' : ∀ other ∈ front, other.ident ≠ key.ident := fun other hother =>
    (hfront other hother).ne
  have hback' : ∀ other ∈ back, other.ident ≠ key.ident := fun other hother =>
    (hback other hother).ne.symm
  rw [hput]
  rcases hkeys with rfl | ⟨old, rfl, hold⟩
  · grind
  · grind

/-- A key that is there already may be put again. -/
theorem IsSorted.put_self {keys : Bucket} (h : IsSorted keys) {key : Key} (hkey : key ∈ keys) :
    keys.put key = keys := by
  refine (h.put key).ext h fun other => ?_
  rw [mem_put h]
  constructor
  · rintro (rfl | ⟨hother, -⟩)
    · exact hkey
    · exact hother
  · intro hother
    by_cases hident : other.ident = key.ident
    · exact .inl (h.eq_of_ident hother hkey hident)
    · exact .inr ⟨hother, hident⟩

theorem key?_put {keys : Bucket} (h : IsSorted keys) (key : Key) (x : Ident) :
    (keys.put key).key? x = if key.ident = x then some key else keys.key? x := by
  split
  · rename_i hx
    exact (h.put key).key?_eq_some.mpr ⟨(mem_put h).mpr (.inl rfl), hx⟩
  · rename_i hx
    cases hfound : keys.key? x with
    | none =>
      refine key?_eq_none.mpr fun other hother hident => ?_
      rcases (mem_put h).mp hother with rfl | ⟨hother, -⟩
      · exact hx hident
      · exact key?_eq_none.mp hfound other hother hident
    | some other =>
      obtain ⟨hother, rfl⟩ := mem_of_key? hfound
      exact (h.put key).key?_eq_some.mpr
        ⟨(mem_put h).mpr (.inr ⟨hother, Ne.symm hx⟩), rfl⟩

theorem erase_eq_of_row {keys : Bucket} {f : Fingerprint} {row : Nat}
    (hrow : keys.rowOf? f = some row) : keys.eraseIdx row = keys.erase f := by
  rw [erase, hrow]

theorem IsSorted.erase {keys : Bucket} (h : IsSorted keys) (f : Fingerprint) :
    IsSorted (keys.erase f) := by
  unfold Bucket.erase
  split
  · exact h.sublist (List.eraseIdx_sublist _ _)
  · exact h

theorem mem_erase {keys : Bucket} (h : IsSorted keys) {f : Fingerprint} {key : Key} :
    key ∈ keys.erase f ↔ key ∈ keys ∧ key.ident ≠ f.ident := by
  unfold erase
  cases hrow : keys.rowOf? f with
  | none =>
    refine ⟨fun hkey => ⟨hkey, fun hident => ?_⟩, And.left⟩
    have := (isSome_rowOf? h (f := f)).mpr ⟨key, hkey, hident⟩
    simp [hrow] at this
  | some row =>
    obtain ⟨old, hget, hident⟩ := (rowOf?_eq_some h).mp hrow
    simp only [List.mem_eraseIdx_iff_getElem?]
    constructor
    · rintro ⟨i, hi, hkey⟩
      refine ⟨List.mem_of_getElem? hkey, fun hsame => hi ?_⟩
      have hother := (rowOf?_eq_some h).mpr ⟨key, hkey, hsame⟩
      rw [hrow] at hother
      exact (Option.some.inj hother).symm
    · rintro ⟨hkey, hne⟩
      obtain ⟨i, hi⟩ := List.mem_iff_getElem?.mp hkey
      refine ⟨i, ?_, hi⟩
      rintro rfl
      rw [hget] at hi
      exact hne (Option.some.inj hi ▸ hident)

theorem key?_erase {keys : Bucket} (h : IsSorted keys) (f : Fingerprint) (x : Ident) :
    (keys.erase f).key? x = if x = f.ident then none else keys.key? x := by
  refine Option.ext fun key => ?_
  rw [(h.erase f).key?_eq_some, mem_erase h]
  split
  · simp_all
  · rw [h.key?_eq_some]
    grind

/-! ### Putting and erasing many keys -/

theorem isSorted_foldl_erase {keys : Bucket} (h : IsSorted keys) (gone : List Key) :
    IsSorted (gone.foldl (fun keys key => keys.erase key.fingerprint) keys) := by
  induction gone generalizing keys with
  | nil => exact h
  | cons key gone ih => exact ih (h.erase key.fingerprint)

theorem mem_foldl_erase {keys : Bucket} (h : IsSorted keys) {gone : List Key} {key : Key} :
    key ∈ gone.foldl (fun keys key => keys.erase key.fingerprint) keys ↔
      key ∈ keys ∧ ∀ other ∈ gone, key.ident ≠ other.ident := by
  induction gone generalizing keys with
  | nil => simp
  | cons other gone ih =>
    rw [List.foldl_cons, ih (h.erase _), mem_erase h, List.forall_mem_cons, and_assoc]

theorem isSorted_foldl_put {keys : Bucket} (h : IsSorted keys) (new : List Key) :
    IsSorted (new.foldl Bucket.put keys) := by
  induction new generalizing keys with
  | nil => exact h
  | cons key new ih => exact ih (h.put key)

/-- Of keys that are told apart by their identities all are put, whatever their order. -/
theorem mem_foldl_put {keys : Bucket} (h : IsSorted keys) {new : List Key}
    (hnew : ∀ a ∈ new, ∀ b ∈ new, a.ident = b.ident → a = b) {key : Key} :
    key ∈ new.foldl Bucket.put keys ↔
      key ∈ new ∨ key ∈ keys ∧ ∀ other ∈ new, key.ident ≠ other.ident := by
  induction new generalizing keys with
  | nil => simp
  | cons other new ih =>
    rw [List.foldl_cons, ih (h.put other) fun a ha b hb =>
      hnew a (List.mem_cons_of_mem _ ha) b (List.mem_cons_of_mem _ hb), mem_put h,
      List.forall_mem_cons, List.mem_cons]
    by_cases hkey : key ∈ new
    · simp [hkey]
    · by_cases heq : key = other
      · subst heq
        simp only [hkey, true_or, false_or, iff_true, true_and]
        intro a ha hident
        exact hkey (hnew key List.mem_cons_self a (List.mem_cons_of_mem _ ha) hident ▸ ha)
      · simp only [hkey, heq, false_or, and_assoc]

end KeyForest.Bucket
