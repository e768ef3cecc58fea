import KeyForest.Consistency
import KeyForest.Proofs.Bucket
import KeyForest.Proofs.Table

/-!
# Consistent views

A key list is `Consistent` as it is seen when the rows that can be reached from the top level are
the stored keys, each once and ascending, and indexes, rows and parents agree. The `Checker` finds
nothing wrong with such a view (`Consistent.treeFault`), and nothing wrong with a run of changes
that is `Sound`: each is seen on a consistent view, and rows come and go right after they are
announced (`Sound.firstFault`).
-/
namespace KeyForest

/-- What all spellings of an index have in common. -/
def RowIndex.spot (index : RowIndex) : Option Ident × ℕ :=
  (index.parent.map Fingerprint.ident, index.row)

theorem sameParent_iff {a b : Option Fingerprint} :
    sameParent a b = true ↔ a.map Fingerprint.ident = b.map Fingerprint.ident := by
  cases a <;> cases b <;> simp [sameParent]

theorem sameParent_self (parent : Option Fingerprint) : sameParent parent parent = true :=
  sameParent_iff.mpr rfl

theorem RowIndex.same_iff {a b : RowIndex} : a.same b = true ↔ a.spot = b.spot := by
  rw [same, Bool.and_eq_true, sameParent_iff, beq_iff_eq, spot, spot, Prod.mk.injEq]

theorem Consistency.sameIndex_iff {a b : Option RowIndex} :
    sameIndex a b = true ↔ a.map RowIndex.spot = b.map RowIndex.spot := by
  cases a <;> cases b <;> simp [sameIndex, RowIndex.same_iff]

namespace Listing

variable {σ : Type} [Listing σ] {state : σ} {depth depth' : ℕ} {above above' : Option RowIndex}
  {index index' : RowIndex} {key key' : Key}

/-- A row that can be reached from the top level: its depth, the index of the row it is listed
under, its own index, and its key. -/
inductive Visible (state : σ) : ℕ → Option RowIndex → RowIndex → Key → Prop
  | top {row : ℕ} {key : Key} : (rows state none)[row]? = some key →
      Visible state 0 none ⟨none, row⟩ key
  | child {depth : ℕ} {above : Option RowIndex} {index : RowIndex} {key : Key} {row : ℕ}
      {child : Key} : Visible state depth above index key →
      (rows state (some key.fingerprint))[row]? = some child →
      Visible state (depth + 1) (some index) ⟨some key.fingerprint, row⟩ child

/-- What is seen of a key list when nothing is wrong with it. -/
structure Consistent (state : σ) : Prop where
  stored_sorted : Bucket.IsSorted (stored state)
  /-- The rows that can be reached hold exactly the stored keys. -/
  stored_iff : ∀ key, key ∈ stored state ↔ ∃ depth above index, Visible state depth above index key
  /-- No two rows that can be reached hold the same key. -/
  once : ∀ {depth above index key depth' above' index' key'}, Visible state depth above index key →
    Visible state depth' above' index' key' → key.ident = key'.ident → index = index'
  top_ascends : Bucket.IsSorted (rows state none)
  ascends : ∀ key ∈ stored state, Bucket.IsSorted (rows state (some key.fingerprint))
  /-- The index of the key at an index is that index. -/
  indexOf_eq : ∀ {depth above index key}, Visible state depth above index key →
    (indexOf state key).map RowIndex.spot = some index.spot
  /-- The parent of an index is the index of the row it is listed under. -/
  parentOf_eq : ∀ {depth above index key}, Visible state depth above index key →
    (parentOf state index).map RowIndex.spot = above.map RowIndex.spot

theorem Visible.keyAt (h : Visible state depth above index key) :
    keyAt state index = some key := by
  cases h with
  | top hrow => exact hrow
  | child _ hrow => exact hrow

namespace Consistent

theorem mem_stored (h : Consistent state) (hkey : Visible state depth above index key) :
    key ∈ stored state := (h.stored_iff key).mpr ⟨_, _, _, hkey⟩

/-- The rows above a row are settled by its key. -/
theorem unique (h : Consistent state) (hkey : Visible state depth above index key)
    (hkey' : Visible state depth' above' index' key') (hident : key.ident = key'.ident) :
    depth = depth' ∧ above = above' ∧ index = index' ∧ key = key' := by
  have hkeys : key = key' :=
    h.stored_sorted.eq_of_ident (h.mem_stored hkey) (h.mem_stored hkey') hident
  have hindex := h.once hkey hkey' hident
  induction hkey generalizing depth' above' index' key' with
  | top hrow =>
    cases hkey' with
    | top hrow' => exact ⟨rfl, rfl, hindex, hkeys⟩
    | child _ _ => simp at hindex
  | child hparent hrow ih =>
    cases hkey' with
    | top hrow' => simp at hindex
    | child hparent' hrow' =>
      have hparents := Option.some.inj (congrArg RowIndex.parent hindex)
      have hident' := congrArg Fingerprint.ident hparents
      obtain ⟨hdepth, -, habove, -⟩ := ih hparent' hident'
        (h.stored_sorted.eq_of_ident (h.mem_stored hparent) (h.mem_stored hparent') hident')
        (h.once hparent hparent' hident')
      exact ⟨by rw [hdepth], by rw [habove], hindex, hkeys⟩

end Consistent

/-- That no key is listed twice follows from the rest. -/
theorem consistent_of (stored_sorted : Bucket.IsSorted (stored state))
    (stored_iff : ∀ key, key ∈ stored state ↔
      ∃ depth above index, Visible state depth above index key)
    (top_ascends : Bucket.IsSorted (rows state none))
    (ascends : ∀ key ∈ stored state, Bucket.IsSorted (rows state (some key.fingerprint)))
    (indexOf_eq : ∀ {depth above index key}, Visible state depth above index key →
      (indexOf state key).map RowIndex.spot = some index.spot)
    (parentOf_eq : ∀ {depth above index key}, Visible state depth above index key →
      (parentOf state index).map RowIndex.spot = above.map RowIndex.spot) : Consistent state := by
  have hmem {depth : ℕ} {above : Option RowIndex} {index : RowIndex} {key : Key}
      (hkey : Visible state depth above index key) : key ∈ stored state :=
    (stored_iff key).mpr ⟨_, _, _, hkey⟩
  refine ⟨stored_sorted, stored_iff, fun hkey hkey' hident => ?_, top_ascends, ascends, indexOf_eq,
    parentOf_eq⟩
  have heq := stored_sorted.eq_of_ident (hmem hkey) (hmem hkey') hident
  subst heq
  have hspot := Option.some.inj ((indexOf_eq hkey).symm.trans (indexOf_eq hkey'))
  obtain ⟨hparent, hrow⟩ := Prod.mk.inj hspot
  cases hkey with
  | top _ =>
    cases hkey' with
    | top _ => exact congrArg (RowIndex.mk none) hrow
    | child _ _ => simp at hparent
  | child hp _ =>
    cases hkey' with
    | top _ => simp at hparent
    | child hp' _ =>
      have hp_eq := stored_sorted.eq_of_ident (hmem hp) (hmem hp') (by simpa using hparent)
      subst hp_eq
      exact congrArg (RowIndex.mk _) hrow

/-! ### All rows in pre-order -/

/-- A key found `n` levels below another key. -/
inductive Within (state : σ) (key : Key) : ℕ → Key → Prop
  | self : Within state key 0 key
  | child {n : ℕ} {parent child : Key} : Within state key n parent →
      child ∈ rows state (some parent.fingerprint) → Within state key (n + 1) child

variable {n m : ℕ} {child child' : Key}

theorem Within.visible (h : Within state key n child) (hkey : Visible state depth above index key) :
    ∃ above index, Visible state (depth + n) above index child := by
  induction h with
  | self => exact ⟨_, _, hkey⟩
  | child _ hchild ih =>
    obtain ⟨above, index, hparent⟩ := ih
    obtain ⟨row, hrow⟩ := List.mem_iff_getElem?.mp hchild
    exact ⟨_, _, .child hparent hrow⟩

theorem Within.of_child (hchild : child ∈ rows state (some key.fingerprint))
    (h : Within state child n child') : Within state key (n + 1) child' := by
  induction h with
  | self => exact .child .self hchild
  | child _ hrow ih => exact .child ih hrow

theorem Within.from_child (h : Within state key (n + 1) child') :
    ∃ child ∈ rows state (some key.fingerprint), Within state child n child' := by
  induction n generalizing child' with
  | zero =>
    obtain _ | ⟨_ | _, hrow⟩ := h
    exact ⟨child', hrow, .self⟩
  | succ n ih =>
    obtain _ | ⟨hparent, hrow⟩ := h
    obtain ⟨child, hchild, hwithin⟩ := ih hparent
    exact ⟨child, hchild, .child hwithin hrow⟩

/-- Of keys at one depth, at most one is above a given key. -/
theorem Within.eq_of_visible (hstate : Consistent state) (h : Within state key n child)
    (h' : Within state key' m child') (hchild : child.ident = child'.ident)
    (hkey : Visible state depth above index key) (hkey' : Visible state depth above' index' key') :
    key.ident = key'.ident := by
  obtain rfl : n = m := by
    obtain ⟨_, _, hvisible⟩ := h.visible hkey
    obtain ⟨_, _, hvisible'⟩ := h'.visible hkey'
    have := (hstate.unique hvisible hvisible' hchild).1
    omega
  induction h generalizing child' with
  | self =>
    cases h'
    exact hchild
  | @child n parent child hparent hrow ih =>
    obtain _ | @⟨_, parent', _, hparent', hrow'⟩ := h'
    obtain ⟨_, _, hup⟩ := hparent.visible hkey
    obtain ⟨_, _, hup'⟩ := hparent'.visible hkey'
    obtain ⟨row, hrow⟩ := List.mem_iff_getElem?.mp hrow
    obtain ⟨row', hrow'⟩ := List.mem_iff_getElem?.mp hrow'
    have hindex := (hstate.unique (.child hup hrow) (.child hup' hrow') hchild).2.2.1
    have hfingerprint := Option.some.inj (congrArg RowIndex.parent hindex)
    exact ih (congrArg Fingerprint.ident hfingerprint) hparent'

theorem mem_walk_iff {levels : ℕ} {parent : Option Fingerprint} {d : ℕ} :
    (m, child) ∈ walk state (fun _ => true) levels parent d ↔
      ∃ key ∈ rows state parent, ∃ n < levels, m = d + n ∧ Within state key n child := by
  induction levels generalizing parent d with
  | zero => simp [walk]
  | succ levels ih =>
    simp only [walk, List.filter_true, List.mem_flatMap, List.mem_cons, Prod.mk.injEq, ih]
    refine exists_congr fun key => and_congr_right fun _ => ?_
    constructor
    · rintro (⟨rfl, rfl⟩ | ⟨child', hchild', n, hn, rfl, hwithin⟩)
      · exact ⟨0, by omega, rfl, .self⟩
      · exact ⟨n + 1, by omega, by omega, .of_child hchild' hwithin⟩
    · rintro ⟨n, hn, rfl, hwithin⟩
      cases n with
      | zero =>
        cases hwithin
        exact .inl ⟨rfl, rfl⟩
      | succ n =>
        obtain ⟨child', hchild', hwithin⟩ := hwithin.from_child
        exact .inr ⟨child', hchild', n, by omega, by omega, hwithin⟩

theorem mem_walk {levels : ℕ} {parent : Option Fingerprint} {d : ℕ} :
    child ∈ (walk state (fun _ => true) levels parent d).map (·.2) ↔
      ∃ key ∈ rows state parent, ∃ n < levels, Within state key n child := by
  simp only [List.mem_map, Prod.exists, exists_eq_right, mem_walk_iff]
  constructor
  · rintro ⟨_, key, hkey, n, hn, -, hwithin⟩
    exact ⟨key, hkey, n, hn, hwithin⟩
  · rintro ⟨key, hkey, n, hn, hwithin⟩
    exact ⟨d + n, key, hkey, n, hn, rfl, hwithin⟩

/-- A walk meets no key twice. -/
theorem Consistent.nodup_walk (h : Consistent state) {levels : ℕ} {parent : Option Fingerprint}
    {d : ℕ} (hsorted : Bucket.IsSorted (rows state parent))
    (hvisible : ∀ key ∈ rows state parent, ∃ above index, Visible state d above index key) :
    ((walk state (fun _ => true) levels parent d).map (·.2.ident)).Nodup := by
  induction levels generalizing parent d with
  | zero => simp [walk]
  | succ levels ih =>
    simp only [walk, List.filter_true, List.map_flatMap, List.map_cons]
    have hbelow {key : Key} {x : Ident} (hx : x ∈ (walk state (fun _ => true) levels
        (some key.fingerprint) (d + 1)).map (·.2.ident)) :
        ∃ n child, Within state key (n + 1) child ∧ child.ident = x := by
      obtain ⟨entry, hentry, rfl⟩ := List.mem_map.mp hx
      obtain ⟨child, hchild, n, -, hwithin⟩ := mem_walk.mp (List.mem_map_of_mem hentry)
      exact ⟨n, _, .of_child hchild hwithin, rfl⟩
    have hmem {key : Key} {x : Ident} (hx : x ∈ key.ident :: (walk state (fun _ => true) levels
        (some key.fingerprint) (d + 1)).map (·.2.ident)) :
        ∃ n child, Within state key n child ∧ child.ident = x := by
      rcases List.mem_cons.mp hx with rfl | hx
      · exact ⟨0, key, .self, rfl⟩
      · obtain ⟨n, child, hwithin, hident⟩ := hbelow hx
        exact ⟨n + 1, child, hwithin, hident⟩
    refine List.nodup_flatMap.mpr ⟨fun key hkey => ?_, ?_⟩
    · obtain ⟨above, index, hkey'⟩ := hvisible key hkey
      refine List.nodup_cons.mpr ⟨fun hx => ?_, ih (h.ascends key (h.mem_stored hkey'))
        fun child hchild => ?_⟩
      · obtain ⟨n, child, hwithin, hident⟩ := hbelow hx
        obtain ⟨_, _, hchild⟩ := hwithin.visible hkey'
        have := (h.unique hchild hkey' hident).1
        omega
      · obtain ⟨row, hrow⟩ := List.mem_iff_getElem?.mp hchild
        exact ⟨_, _, .child hkey' hrow⟩
    · refine List.Pairwise.imp_of_mem (fun {a b} ha hb hab => ?_) hsorted
      intro x hxa hxb
      obtain ⟨n, child, hwithin, rfl⟩ := hmem hxa
      obtain ⟨m, child', hwithin', hident⟩ := hmem hxb
      obtain ⟨_, _, ha⟩ := hvisible a ha
      obtain ⟨_, _, hb⟩ := hvisible b hb
      exact Ident.Below.ne hab (hwithin.eq_of_visible h hwithin' hident.symm ha hb)

/-- The keys on the way from the top level to a row: all stored, and all different. -/
theorem Consistent.exists_way (h : Consistent state) (hkey : Visible state depth above index key) :
    ∃ way : List Key, way.length = depth + 1 ∧ (way.map Key.ident).Nodup ∧
      ∀ other ∈ way, ∃ m ≤ depth, ∃ above index, Visible state m above index other := by
  induction hkey with
  | @top row key hrow =>
    refine ⟨[key], rfl, List.nodup_singleton _, fun other hother => ⟨0, le_rfl, none, ⟨none, row⟩, ?_⟩⟩
    rw [List.mem_singleton.mp hother]
    exact .top hrow
  | @child depth above index key row child hparent hrow ih =>
    obtain ⟨way, hlength, hnodup, hway⟩ := ih
    have hchild := Visible.child hparent hrow
    refine ⟨child :: way, by simp [hlength], List.nodup_cons.mpr ⟨fun hmem => ?_, hnodup⟩,
      fun other hother => ?_⟩
    · obtain ⟨other, hother, hident⟩ := List.mem_map.mp hmem
      obtain ⟨m, hm, _, _, hvisible⟩ := hway other hother
      have := (h.unique hvisible hchild hident).1
      omega
    · rcases List.mem_cons.mp hother with rfl | hother
      · exact ⟨depth + 1, le_rfl, _, _, hchild⟩
      · obtain ⟨m, hm, hvisible⟩ := hway other hother
        exact ⟨m, by omega, hvisible⟩

theorem Consistent.depth_lt (h : Consistent state) (hkey : Visible state depth above index key) :
    depth < size state := by
  obtain ⟨way, hlength, hnodup, hway⟩ := h.exists_way hkey
  have hsubset : way ⊆ stored state := fun other hother => by
    obtain ⟨m, -, _, _, hvisible⟩ := hway other hother
    exact h.mem_stored hvisible
  have hle := (hnodup.of_map.subperm hsubset).length_le
  rw [size]
  omega

theorem Visible.within (hkey : Visible state depth above index key) :
    ∃ root ∈ rows state none, Within state root depth key := by
  induction hkey with
  | top hrow => exact ⟨_, List.mem_of_getElem? hrow, .self⟩
  | child _ hrow ih =>
    obtain ⟨root, hroot, hwithin⟩ := ih
    exact ⟨root, hroot, .child hwithin (List.mem_of_getElem? hrow)⟩

/-- The rows in pre-order are the stored keys. -/
theorem Consistent.mem_preorder (h : Consistent state) :
    key ∈ (preorder state).map (·.2) ↔ key ∈ stored state := by
  rw [preorder, mem_walk]
  constructor
  · rintro ⟨root, hroot, n, -, hwithin⟩
    obtain ⟨row, hrow⟩ := List.mem_iff_getElem?.mp hroot
    obtain ⟨_, _, hvisible⟩ := hwithin.visible (.top hrow)
    exact h.mem_stored hvisible
  · intro hkey
    obtain ⟨depth, _, _, hvisible⟩ := (h.stored_iff key).mp hkey
    obtain ⟨root, hroot, hwithin⟩ := hvisible.within
    exact ⟨root, hroot, depth, h.depth_lt hvisible, hwithin⟩

theorem Consistent.nodup_preorder (h : Consistent state) :
    ((preorder state).map (·.2.ident)).Nodup := by
  refine h.nodup_walk h.top_ascends fun key hkey => ?_
  obtain ⟨row, hrow⟩ := List.mem_iff_getElem?.mp hkey
  exact ⟨_, _, .top hrow⟩

theorem Consistent.length_preorder (h : Consistent state) :
    (preorder state).length = size state := by
  have hnodup : ((preorder state).map (·.2)).Nodup := by
    refine List.Nodup.of_map Key.ident ?_
    rw [List.map_map]
    exact h.nodup_preorder
  have hperm := (List.perm_ext_iff_of_nodup hnodup h.stored_sorted.nodup).mpr
    fun key => h.mem_preorder
  simpa [size] using hperm.length_eq

end Listing

namespace Consistency

open Listing

variable {σ : Type} [Listing σ] {state : σ}

theorem rowFault_eq_none (h : Consistent state) {depth : ℕ} {above parentIndex : Option RowIndex}
    {index : RowIndex} {key : Key} {previous : Option Key}
    (hkey : Visible state depth above index key)
    (habove : parentIndex.map RowIndex.spot = above.map RowIndex.spot)
    (hprevious : ∀ p ∈ previous, Ident.Below p.ident key.ident) :
    rowFault state index parentIndex previous key = none := by
  have hstored : (keyWith state key.fingerprint).isNone = false := by
    rw [keyWith, Bucket.lookup_eq h.stored_sorted,
      h.stored_sorted.key?_eq_some.mpr ⟨h.mem_stored hkey, rfl⟩, Option.isNone_some]
  have hindex : sameIndex (indexOf state key) (some index) = true :=
    sameIndex_iff.mpr (h.indexOf_eq hkey)
  have hparent : sameIndex (parentOf state index) parentIndex = true :=
    sameIndex_iff.mpr ((h.parentOf_eq hkey).trans habove.symm)
  have hsorted :
      (previous.any fun p => compare p.fingerprint key.fingerprint != .lt) = false := by
    cases previous with
    | none => rfl
    | some p => simpa using Fingerprint.compare_eq_lt.mpr (hprevious p rfl)
  simp [rowFault, hstored, hindex, hparent, hsorted]

theorem rowsFault_eq_none (h : Consistent state) {parent : Option Fingerprint}
    {parentIndex : Option RowIndex} {previous : Option Key} {keys : List Key} {row : ℕ}
    (hrows : ∀ i key, keys[i]? = some key → ∃ depth above,
      Visible state depth above ⟨parent, row + i⟩ key ∧
        parentIndex.map RowIndex.spot = above.map RowIndex.spot)
    (hsorted : Bucket.IsSorted (previous.toList ++ keys)) :
    rowsFault state parent parentIndex row previous keys = none := by
  induction keys generalizing row previous with
  | nil => rfl
  | cons key rest ih =>
    obtain ⟨_, hrest, hbelow⟩ := List.pairwise_append.mp hsorted
    obtain ⟨depth, above, hkey, habove⟩ := hrows 0 key rfl
    rw [Nat.add_zero] at hkey
    rw [rowsFault, rowFault_eq_none h hkey habove fun p hp =>
      hbelow p (Option.mem_toList.mpr hp) key List.mem_cons_self]
    refine ih (fun i other hother => ?_) hrest
    have := hrows (i + 1) other (by simpa using hother)
    rwa [show row + (i + 1) = row + 1 + i by omega] at this

theorem firstRepeated_eq_none {fingerprints : List Fingerprint}
    (h : (fingerprints.map Fingerprint.ident).Nodup) : firstRepeated fingerprints = none := by
  induction fingerprints with
  | nil => rfl
  | cons f rest ih =>
    obtain ⟨hf, hrest⟩ := List.nodup_cons.mp h
    have hany : rest.any (· == f) = false := by
      rw [List.any_eq_false]
      intro g hg hgf
      exact hf (List.mem_map.mpr ⟨g, hg, Fingerprint.beq_iff.mp hgf⟩)
    rw [firstRepeated, hany]
    exact ih hrest

/-- The check of a view finds no fault with a consistent one. -/
theorem treeFault_eq_none (h : Consistent state) : treeFault state = none := by
  have hrows : ∀ parent ∈ none :: ((preorder state).map fun row => row.2.fingerprint).map some,
      rowsFault state parent ((parent.bind (keyWith state)).bind (indexOf state)) 0 none
        (rows state parent) = none := by
    intro parent hparent
    rcases List.mem_cons.mp hparent with rfl | hparent
    · refine rowsFault_eq_none h (fun i key hkey => ⟨0, none, ?_, rfl⟩) h.top_ascends
      rw [Nat.zero_add]
      exact .top hkey
    · simp only [List.map_map, List.mem_map, Function.comp_apply] at hparent
      obtain ⟨entry, hentry, rfl⟩ := hparent
      have hstored := h.mem_preorder.mp (List.mem_map_of_mem hentry)
      obtain ⟨depth, above, index, hvisible⟩ := (h.stored_iff _).mp hstored
      have hwith : keyWith state entry.2.fingerprint = some entry.2 := by
        rw [keyWith, Bucket.lookup_eq h.stored_sorted,
          h.stored_sorted.key?_eq_some.mpr ⟨hstored, rfl⟩]
      refine rowsFault_eq_none h (fun i key hkey => ⟨depth + 1, some index, ?_, ?_⟩)
        (h.ascends _ hstored)
      · rw [Nat.zero_add]
        exact .child hvisible hkey
      · rw [Option.bind_some, hwith, Option.bind_some, h.indexOf_eq hvisible, Option.map_some]
  have hrepeated : firstRepeated ((preorder state).map fun row => row.2.fingerprint) = none := by
    refine firstRepeated_eq_none ?_
    rw [List.map_map]
    exact h.nodup_preorder
  simp only [treeFault, List.findSome?_eq_none_iff.mpr hrows, hrepeated, List.length_map,
    h.length_preorder, Option.map_none, if_true, HOrElse.hOrElse, OrElse.orElse,
    Option.orElse]

end Consistency

/-! ### Runs of changes -/

section Changes

variable {σ : Type} [Listing σ] {change : Change} {seen : σ} {notices : List (Change × σ)}
  {checker : Checker}

/-- What a change says agrees with what is seen at it, and with the change right before it. -/
def Change.Fits (change : Change) (seen : σ) (before : Option (Change × σ)) : Prop :=
  match change with
  | .inserted parent first last => first = last ∧
      ∃ earlier, before = some (.aboutToInsert parent first last, earlier) ∧
        Listing.rowCount seen parent = Listing.rowCount earlier parent + 1
  | .removed parent first last => first = last ∧
      ∃ earlier, before = some (.aboutToRemove parent first last, earlier) ∧
        Listing.rowCount seen parent + 1 = Listing.rowCount earlier parent
  | .dataChanged parent row =>
      ∃ key ∈ Listing.stored seen, Listing.keyAt seen ⟨parent, row⟩ = some key
  | _ => True

/-- Every change is seen on a consistent view, and fits. -/
def Sound (notices : List (Change × σ)) : Prop :=
  ∀ earlier change seen later, notices = earlier ++ (change, seen) :: later →
    Listing.Consistent seen ∧ change.Fits seen earlier.getLast?

theorem sound_nil : Sound ([] : List (Change × σ)) := by
  intro earlier change seen later h
  simp at h

theorem Sound.concat (h : Sound notices) (hseen : Listing.Consistent seen)
    (hfits : change.Fits seen notices.getLast?) : Sound (notices ++ [(change, seen)]) := by
  intro earlier change' seen' later heq
  rcases List.eq_nil_or_concat later with rfl | ⟨front, last, rfl⟩
  · obtain ⟨rfl, hlast⟩ := List.append_inj' heq rfl
    obtain ⟨rfl, rfl⟩ := Prod.mk.inj (List.singleton_inj.mp hlast)
    exact ⟨hseen, hfits⟩
  · rw [List.concat_eq_append, ← List.cons_append, ← List.append_assoc] at heq
    exact h _ _ _ _ (List.append_inj' heq rfl).1

namespace Checker

theorem pending?_expect (checker : Checker) (parent : Option Fingerprint) (count : ℕ) :
    (checker.expect parent count).pending? parent = some count := by
  cases parent with
  | none => rfl
  | some f => simp [expect, pending?, Table.get?_eq, Table.value?_put]

/-- The announcement that came last is open. -/
def Awaits (checker : Checker) (before : Option (Change × σ)) : Prop :=
  ∀ parent first last seen,
    before = some (.aboutToInsert parent first last, seen) ∨
      before = some (.aboutToRemove parent first last, seen) →
    checker.pending? parent = some (Listing.rowCount seen parent)

/-- A follower finds no fault with a change that fits, and is ready for the next one. -/
theorem notify_of_fits {before : Option (Change × σ)} (hseen : Listing.Consistent seen)
    (hfits : change.Fits seen before) (hawaits : checker.Awaits before) :
    (checker.notify change seen).2 = none ∧
      (checker.notify change seen).1.Awaits (some (change, seen)) := by
  rw [notify, Consistency.treeFault_eq_none hseen]
  cases change with
  | aboutToInsert parent first last =>
    refine ⟨rfl, fun parent' first' last' seen' h => ?_⟩
    simp only [Option.some.injEq, Prod.mk.injEq, Change.aboutToInsert.injEq, reduceCtorEq,
      false_and, or_false] at h
    obtain ⟨⟨rfl, -⟩, rfl⟩ := h
    exact pending?_expect _ _ _
  | aboutToRemove parent first last =>
    refine ⟨rfl, fun parent' first' last' seen' h => ?_⟩
    simp only [Option.some.injEq, Prod.mk.injEq, Change.aboutToRemove.injEq, reduceCtorEq,
      false_and, false_or] at h
    obtain ⟨⟨rfl, -⟩, rfl⟩ := h
    exact pending?_expect _ _ _
  | inserted parent first last =>
    obtain ⟨rfl, earlier, hbefore, hcount⟩ := hfits
    refine ⟨?_, by simp [Awaits]⟩
    simp [follow, hawaits parent first first earlier (.inl hbefore), hcount]
  | removed parent first last =>
    obtain ⟨rfl, earlier, hbefore, hcount⟩ := hfits
    refine ⟨?_, by simp [Awaits]⟩
    simp [follow, hawaits parent first first earlier (.inr hbefore), hcount]
  | dataChanged parent row =>
    obtain ⟨key, -, hkey⟩ := hfits
    obtain ⟨hlt, -⟩ := List.getElem?_eq_some_iff.mp hkey
    refine ⟨?_, by simp [Awaits]⟩
    simp only [follow, Listing.rowCount]
    exact if_pos hlt
  | aboutToMove | moved | aboutToReset | reset => exact ⟨rfl, by simp [Awaits]⟩

end Checker

/-- A follower of a sound run of changes finds no fault. -/
theorem Sound.firstFault {earlier : List (Change × σ)} (h : Sound (earlier ++ notices))
    (hawaits : checker.Awaits earlier.getLast?) : checker.firstFault notices = none := by
  induction notices generalizing earlier checker with
  | nil => rfl
  | cons notice rest ih =>
    obtain ⟨change, seen⟩ := notice
    obtain ⟨hseen, hfits⟩ := h earlier change seen rest rfl
    obtain ⟨hnone, hnext⟩ := Checker.notify_of_fits hseen hfits hawaits
    rw [Checker.firstFault]
    generalize checker.notify change seen = result at hnone hnext ⊢
    obtain ⟨next, fault⟩ := result
    obtain rfl : fault = none := hnone
    have hsound : Sound ((earlier ++ [(change, seen)]) ++ rest) := by
      rwa [List.append_assoc, List.singleton_append]
    exact ih hsound (by rwa [List.getLast?_concat])

end Changes

end KeyForest
