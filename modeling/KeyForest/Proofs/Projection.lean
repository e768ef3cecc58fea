import KeyForest.Projection
import KeyForest.Proofs.FlatList
import KeyForest.Proofs.Forest.Structure
import KeyForest.Proofs.LetterCase
import KeyForest.Proofs.Visits

/-!
# What a projection shows

A row is shown if its key is accepted, or the key of some row below it (`Projection.Shown`). A loop
meets all keys in pre-order (`Projection.Meets`), and they are settled from the last to the first, so
that those under a key are settled before the key itself (`Projection.foldr_settle`). The rows above a
shown row are shown, and so a loop through visible rows (`Projection.Lists`) misses none
(`Listing.walk_eq_filter`).
-/
namespace KeyForest

/-- The texts of a key that are searched. -/
def Key.texts (key : Key) : List String := key.fingerprint.text :: key.userIds.map (·.id)

namespace Wish

theorem finds_iff {query : String} {key : Key} : finds query key = true ↔
    ∃ text ∈ key.texts, query.toList <:+: (Text.lower text).toList := by
  rw [finds, Bool.or_eq_true, List.any_eq_true]
  simp only [Text.contains, Text.containsList_iff, Key.texts, List.mem_cons, List.mem_map]
  simp

/-- A key is accepted by a filter and a typed text if the filter accepts it, and if the text, less the
blanks around it, is blank or is found in a text of the key once both are in lower case. -/
theorem accepts_iff {filter : Option (Key → Contexts → Bool)} {typed : Option String} {key : Key} :
    Wish.accepts { filter, query := queryOf typed } key = true ↔
      (∀ accepted ∈ filter, accepted key .filteringOnly = true) ∧
        ∀ text ∈ typed, Text.trim text = "" ∨
          ∃ shown ∈ key.texts, (Text.lower (Text.trim text)).toList <:+: (Text.lower shown).toList := by
  have hquery : (queryOf typed).all (finds · key) = true ↔
      ∀ text ∈ typed, Text.trim text = "" ∨ finds (Text.lower (Text.trim text)) key = true := by
    cases typed with
    | none => simp [queryOf]
    | some text => by_cases hblank : Text.trim text = "" <;> simp [queryOf, hblank]
  rw [accepts, Bool.and_eq_true, hquery, Option.all_eq_true]
  simp only [finds_iff, Option.mem_def]

end Wish

namespace Listing

variable {σ : Type} [Listing σ] {state : σ} {depth levels : ℕ} {parent : Option Fingerprint}
  {key : Key} {keys : List Key} {all : List (ℕ × Key)}

/-- Rows and all rows below them in pre-order, each with its depth: after a row come the rows below
it, and then the row next to it. -/
inductive Preorder (state : σ) : ℕ → List Key → List (ℕ × Key) → Prop
  | nil {depth : ℕ} : Preorder state depth [] []
  | cons {depth : ℕ} {key : Key} {keys : List Key} {below after : List (ℕ × Key)} :
      Preorder state (depth + 1) (rows state (some key.fingerprint)) below →
      Preorder state depth keys after →
      Preorder state depth (key :: keys) ((depth, key) :: below ++ after)

/-- A walk that is as long as any way down lists rows in pre-order. -/
theorem preorder_walk
    (hdeep : ∀ key ∈ rows state parent, ∀ n child, Within state key n child → n < levels) :
    Preorder state depth (rows state parent) (walk state (fun _ => true) levels parent depth) := by
  induction levels generalizing parent depth with
  | zero =>
    have hnone : rows state parent = [] := by
      refine List.eq_nil_iff_forall_not_mem.mpr fun key hkey => ?_
      exact Nat.not_lt_zero 0 (hdeep key hkey 0 key .self)
    rw [hnone]
    exact .nil
  | succ levels ih =>
    rw [walk, List.filter_true]
    generalize rows state parent = keys at hdeep
    induction keys with
    | nil => exact .nil
    | cons key keys ihkeys =>
      obtain ⟨hkey, hkeys⟩ := List.forall_mem_cons.mp hdeep
      refine .cons (ih fun child hchild n below hbelow => ?_) (ihkeys hkeys)
      have := hkey (n + 1) below (.of_child hchild hbelow)
      omega

/-- There are more keys than steps down from the top level. -/
theorem Consistent.within_lt (h : Consistent state) :
    ∀ key ∈ rows state none, ∀ n child, Within state key n child → n < size state := by
  intro key hkey n child hwithin
  obtain ⟨row, hrow⟩ := List.mem_iff_getElem?.mp hkey
  obtain ⟨_, _, hvisible⟩ := hwithin.visible (.top hrow)
  have := h.depth_lt hvisible
  omega

theorem Consistent.preorder_preorder (h : Consistent state) :
    Preorder state 0 (rows state none) (preorder state) :=
  preorder_walk h.within_lt

/-- The depth of a row in pre-order is the number of rows above it. -/
theorem Consistent.mem_preorder_iff (h : Consistent state) :
    (depth, key) ∈ preorder state ↔ ∃ above index, Visible state depth above index key := by
  rw [preorder, mem_walk_iff]
  constructor
  · rintro ⟨root, hroot, n, -, rfl, hwithin⟩
    obtain ⟨row, hrow⟩ := List.mem_iff_getElem?.mp hroot
    exact hwithin.visible (.top hrow)
  · rintro ⟨above, index, hvisible⟩
    obtain ⟨root, hroot, hwithin⟩ := hvisible.within
    exact ⟨root, hroot, depth, h.depth_lt hvisible, (Nat.zero_add _).symm, hwithin⟩

/-- Every key comes before the keys of the rows under it. -/
def Leads (state : σ) : List Key → Prop
  | [] => True
  | key :: rest => (∀ child ∈ rows state (some key.fingerprint), child ∈ rest) ∧ Leads state rest

theorem Leads.append {others : List Key} (h : Leads state keys) (hothers : Leads state others) :
    Leads state (keys ++ others) := by
  induction keys with
  | nil => exact hothers
  | cons key keys ih =>
    exact ⟨fun child hchild => List.mem_append_left _ (h.1 child hchild), ih h.2⟩

theorem Preorder.leads (h : Preorder state depth keys all) :
    keys ⊆ all.map (·.2) ∧ Leads state (all.map (·.2)) := by
  induction h with
  | nil => exact ⟨List.Subset.refl _, trivial⟩
  | cons _ _ ihbelow ihafter =>
    rw [List.cons_append, List.map_cons, List.map_append]
    refine ⟨List.cons_subset_cons _ (List.subset_append_of_subset_right _ ihafter.1), ?_, ?_⟩
    · exact fun child hchild => List.mem_append_left _ (ihbelow.1 hchild)
    · exact ihbelow.2.append ihafter.2

section Keeping

variable {keep : Key → Bool} (hkeep : ∀ parent, ∀ key ∈ rows state parent, ∀ n child,
  Within state key n child → keep child = true → keep key = true)
include hkeep

/-- Below a row that is left out all rows are left out. -/
theorem filter_walk_of_left (hkey : key ∈ rows state parent) (hleft : ¬ keep key = true) :
    ((depth, key) :: walk state (fun _ => true) levels (some key.fingerprint) (depth + 1)).filter
      (keep ·.2) = [] := by
  refine List.filter_eq_nil_iff.mpr fun entry hentry hkept => hleft ?_
  rcases List.mem_cons.mp hentry with rfl | hentry
  · exact hkept
  · obtain ⟨child, hchild, n, -, hwithin⟩ := mem_walk.mp (List.mem_map_of_mem hentry)
    exact hkeep parent key hkey _ _ (.of_child hchild hwithin) hkept

/-- A walk through the rows that are kept meets them as the walk through all rows does. -/
theorem walk_eq_filter : walk state keep levels parent depth =
    (walk state (fun _ => true) levels parent depth).filter (keep ·.2) := by
  induction levels generalizing parent depth with
  | zero => rfl
  | succ levels ih =>
    have hrow : ∀ key ∈ rows state parent,
        ((depth, key) :: walk state (fun _ => true) levels (some key.fingerprint)
          (depth + 1)).filter (keep ·.2) =
        if keep key then (depth, key) :: walk state keep levels (some key.fingerprint) (depth + 1)
        else [] := by
      intro key hkey
      split
      · rename_i hkept
        rw [ih, List.filter_cons, if_pos hkept]
      · exact filter_walk_of_left hkeep hkey ‹_›
    rw [walk, walk, List.filter_true, List.filter_flatMap]
    generalize rows state parent = keys at hrow
    induction keys with
    | nil => rfl
    | cons key keys ihkeys =>
      obtain ⟨hkey, hkeys⟩ := List.forall_mem_cons.mp hrow
      rw [List.flatMap_cons, hkey, ← ihkeys hkeys, List.filter_cons]
      split <;> simp

end Keeping

end Listing

namespace Projection

open Listing

variable {σ : Type} [Listing σ] {state : σ} {wish : Wish} {key : Key} {keys : List Key}

/-- Whether the key, or the key of some row below it, is accepted. -/
def Shown (state : σ) (wish : Wish) (key : Key) : Prop :=
  ∃ n child, Within state key n child ∧ wish.accepts child = true

theorem shown_iff : Shown state wish key ↔
    (∃ child ∈ rows state (some key.fingerprint), Shown state wish child) ∨
      wish.accepts key = true := by
  constructor
  · rintro ⟨_ | n, below, hwithin, haccepts⟩
    · cases hwithin
      exact .inr haccepts
    · obtain ⟨child, hchild, hwithin⟩ := hwithin.from_child
      exact .inl ⟨child, hchild, n, below, hwithin, haccepts⟩
  · rintro (⟨child, hchild, n, below, hwithin, haccepts⟩ | haccepts)
    · exact ⟨n + 1, below, .of_child hchild hwithin, haccepts⟩
    · exact ⟨0, key, .self, haccepts⟩

/-- A row above a shown row is shown. -/
theorem Shown.of_within {n : ℕ} {child : Key} (h : Shown state wish child)
    (hwithin : Within state key n child) : Shown state wish key := by
  induction hwithin with
  | self => exact h
  | child _ hrow ih => exact ih (shown_iff.mpr (.inl ⟨_, hrow, h⟩))

open Classical in
/-- Among keys that are told apart by their fingerprints, the shown ones are found by these. -/
theorem any_shown (hnodup : (keys.map Key.ident).Nodup) (hkey : key ∈ keys) :
    ((keys.filter (Shown state wish ·)).map (·.fingerprint)).any (· == key.fingerprint) = true ↔
      Shown state wish key := by
  simp only [List.any_map, List.any_eq_true, List.mem_filter, decide_eq_true_eq,
    Function.comp_apply, Fingerprint.beq_iff]
  constructor
  · rintro ⟨other, ⟨hother, hshown⟩, hident⟩
    rwa [← List.inj_on_of_nodup_map hnodup hother hkey hident]
  · exact fun hshown => ⟨key, ⟨hkey, hshown⟩, rfl⟩

open Classical in
/-- When the keys under a key are settled, settling the key finds out whether it is shown. -/
theorem settle_eq {visible : List Fingerprint}
    (hnew : visible.any (· == key.fingerprint) = false)
    (hbelow : ∀ child ∈ rows state (some key.fingerprint),
      visible.any (· == child.fingerprint) = true ↔ Shown state wish child) :
    settle state wish key visible =
      if Shown state wish key then key.fingerprint :: visible else visible := by
  have hshown : ((rows state (some key.fingerprint)).any fun child =>
      visible.any (· == child.fingerprint)) = true ∨ wish.accepts key = true ↔
        Shown state wish key := by
    rw [shown_iff, List.any_eq_true]
    exact or_congr_left (exists_congr fun child => and_congr_right (hbelow child))
  simp only [settle, Bool.or_eq_true, hshown, hnew, Bool.false_eq_true, if_false]

open Classical in
/-- Settled from the last to the first, keys that come before the keys under them are visible exactly
if they are shown. -/
theorem foldr_settle (hleads : Leads state keys) (hnodup : (keys.map Key.ident).Nodup) :
    keys.foldr (settle state wish) [] =
      (keys.filter (Shown state wish ·)).map (·.fingerprint) := by
  induction keys with
  | nil => rfl
  | cons key rest ih =>
    obtain ⟨hbelow, hleads⟩ := hleads
    obtain ⟨hfresh, hrest⟩ := List.nodup_cons.mp hnodup
    rw [List.foldr_cons, ih hleads hrest, settle_eq ?new fun child hchild =>
      any_shown hrest (hbelow child hchild), List.filter_cons]
    · by_cases h : Shown state wish key <;> simp [h]
    case new =>
      simp only [List.any_map, List.any_eq_false, List.mem_filter, Function.comp_apply,
        Fingerprint.beq_iff]
      rintro other ⟨hother, -⟩ hident
      exact hfresh (List.mem_map.mpr ⟨other, hother, hident⟩)

/-! ### Settled projections -/

/-- The rows with certain keys, found by number or by going through all. -/
theorem filterMap_zipIdx (keys : List Key) (p : Key → Bool) (parent : Option Fingerprint) :
    (keys.zipIdx.filterMap fun (key, row) =>
      if p key then some (RowIndex.mk parent row) else none) =
      ((List.range keys.length).filter fun row => keys[row]?.any p).map (RowIndex.mk parent) := by
  induction keys using List.reverseRecOn with
  | nil => rfl
  | append_singleton keys key ih =>
    have hfront : (List.range keys.length).filter (fun row => (keys ++ [key])[row]?.any p) =
        (List.range keys.length).filter fun row => keys[row]?.any p :=
      List.filter_congr fun row hrow => by
        rw [List.getElem?_append_left (List.mem_range.mp hrow)]
    rw [List.zipIdx_append, List.filterMap_append, ih, List.length_append, List.length_singleton,
      List.range_succ, List.filter_append, hfront, List.map_append]
    by_cases hp : p key <;> simp [hp]

theorem visibleRows_eq (projection : Projection σ) (parent : Option Fingerprint) :
    projection.visibleRows parent = ((List.range (rowCount projection.state parent)).filter fun row =>
      (rows projection.state parent)[row]?.any projection.isVisible).map (RowIndex.mk parent) :=
  filterMap_zipIdx (rows projection.state parent) projection.isVisible parent

section Settled

variable (h : Consistent state) (hrows : ∀ parent, ∀ key ∈ rows state parent, key ∈ stored state)
include h

theorem nodup_preorder_idents : (((preorder state).map (·.2)).map Key.ident).Nodup := by
  rw [List.map_map]
  exact h.nodup_preorder

open Classical in
theorem visible_make : (make state wish).visible =
    (((preorder state).map (·.2)).filter (Shown state wish ·)).map (·.fingerprint) :=
  foldr_settle h.preorder_preorder.leads.2 (nodup_preorder_idents h)

theorem isVisible_make (hkey : key ∈ stored state) :
    (make state wish).isVisible key = true ↔ Shown state wish key := by
  rw [isVisible, visible_make h]
  exact any_shown (nodup_preorder_idents h) (h.mem_preorder.mpr hkey)

include hrows

open Classical in
theorem visibleTree_make : (make state wish).visibleTree =
    (preorder state).filter fun row => Shown state wish row.2 := by
  have hkeep : ∀ parent, ∀ key ∈ rows state parent, ∀ n child, Within state key n child →
      (make state wish).isVisible child = true → (make state wish).isVisible key = true := by
    intro parent key hkey n child hwithin hvisible
    have hchild : child ∈ stored state := by
      cases hwithin with
      | self => exact hrows parent key hkey
      | child _ hrow => exact hrows _ child hrow
    rw [isVisible_make h hchild] at hvisible
    exact (isVisible_make h (hrows parent key hkey)).mpr (hvisible.of_within hwithin)
  have hwalk : (make state wish).visibleTree =
      (preorder state).filter ((make state wish).isVisible ·.2) := walk_eq_filter hkeep
  rw [hwalk]
  refine List.filter_congr fun row hrow => ?_
  rw [Bool.eq_iff_iff, decide_eq_true_iff]
  exact isVisible_make h (h.mem_preorder.mp (List.mem_map_of_mem hrow))

open Classical in
theorem visibleRows_make (parent : Option Fingerprint) : (make state wish).visibleRows parent =
    ((List.range (rowCount state parent)).map (RowIndex.mk parent)).filter fun index =>
      ∃ key, keyAt state index = some key ∧ Shown state wish key := by
  rw [visibleRows_eq, List.filter_map]
  congr 1
  refine List.filter_congr fun row _ => ?_
  rw [Bool.eq_iff_iff, Function.comp_apply, decide_eq_true_iff, Option.any_eq_true]
  refine exists_congr fun key => and_congr_right fun hkey => ?_
  exact isVisible_make h (hrows parent key (List.mem_of_getElem? hkey))

end Settled

/-! ### Loops of a projection -/

/-- Whether the loop that precedes settling meets certain keys: it starts with all rows at the top
level and goes on with all rows under each. -/
def Meets (state : σ) (keys : List Key) : Prop :=
  Visits state (indexesUnder state) id
    (push [] ((indexesUnder state none).reverse.map fun index => ((), index))) []
    (keys.map fun key => ((), key))

/-- Whether the loop through visible rows lists certain keys with their depths. -/
def Lists (projection : Projection σ) (tree : List (ℕ × Key)) : Prop :=
  Visits projection.state projection.visibleRows (· + 1)
    (push [] ((projection.visibleRows none).reverse.map fun index => (0, index))) [] tree

theorem meets_iff (h : Consistent state) : Meets state keys ↔ keys = (preorder state).map (·.2) := by
  have hmark : ∀ _ : ℕ, id () = () := fun _ => rfl
  have hvisits : Meets state keys ↔ (keys.map fun key => ((), key)) =
      (preorder state).map fun row => ((), row.2) :=
    visits_iff (looksAt_indexesUnder state) hmark h.within_lt
  rw [hvisits]
  constructor
  · intro hkeys
    simpa [Function.comp_def] using congrArg (List.map (·.2)) hkeys
  · rintro rfl
    rw [List.map_map]
    rfl

theorem looksAt_visibleRows (projection : Projection σ) :
    LooksAt projection.state projection.visibleRows projection.isVisible := by
  intro parent
  have hkeys : (rows projection.state parent).map some =
      (List.range (rowCount projection.state parent)).map ((rows projection.state parent)[·]?) :=
    (map_getElem?_range _).symm
  have hsome : ((rows projection.state parent).filter projection.isVisible).map some =
      ((rows projection.state parent).map some).filter (·.any projection.isVisible) := by
    rw [List.filter_map]
    rfl
  rw [hsome, hkeys, List.filter_map, visibleRows_eq, List.map_map]
  rfl

theorem lists_iff {projection : Projection σ} (h : Consistent projection.state)
    {tree : List (ℕ × Key)} : projection.Lists tree ↔ tree = projection.visibleTree := by
  have hmark : ∀ depth : ℕ, id depth + 1 = id (depth + 1) := fun _ => rfl
  have hvisits : projection.Lists tree ↔ tree = projection.visibleTree.map fun row => (row.1, row.2) :=
    visits_iff (looksAt_visibleRows projection) hmark h.within_lt
  rw [hvisits, List.map_id'']
  exact fun _ => rfl

/-! ### What is visible -/

open Classical in
/-- A projection shows of a key list the rows that are accepted, or below which a row is accepted, and
no others. -/
structure ShowsExactly (projection : Projection σ) (state : σ) (wish : Wish) : Prop where
  /-- The visible rows are listed as they come in the pre-order of all rows. -/
  tree_eq : ∃ all, Preorder state 0 (rows state none) all ∧
    projection.visibleTree = all.filter fun row => Shown state wish row.2
  /-- The depth of a row is the number of rows above it. -/
  mem_tree : ∀ depth key, (depth, key) ∈ projection.visibleTree ↔
    (∃ above index, Visible state depth above index key) ∧ Shown state wish key
  mem_keys : ∀ key, key ∈ projection.visibleKeys ↔ key ∈ stored state ∧ Shown state wish key
  once : (projection.visibleKeys.map Key.ident).Nodup
  rows_eq : ∀ parent, projection.visibleRows parent =
    ((List.range (rowCount state parent)).map (RowIndex.mk parent)).filter fun index =>
      ∃ key, keyAt state index = some key ∧ Shown state wish key
  count_eq : projection.visibleCount = projection.visibleTree.length
  /-- All rows above a visible row are visible. -/
  above_visible : ∀ key ∈ stored state, ∀ n child, Within state key n child →
    projection.isVisible child = true → projection.isVisible key = true
  /-- The loop through all rows ends, and what it has met is settled in reverse. -/
  settled : ∃ order, (∀ keys, Meets state keys ↔ keys = order) ∧
    projection.visible = order.foldr (settle state wish) []
  /-- The loop through the visible rows ends, and what it has listed are the visible rows. -/
  listed : ∀ tree, projection.Lists tree ↔ tree = projection.visibleTree

theorem showsExactly_make (h : Consistent state)
    (hrows : ∀ parent, ∀ key ∈ rows state parent, key ∈ stored state) :
    (make state wish).ShowsExactly state wish := by
  classical
  have htree : (make state wish).visibleTree =
      (preorder state).filter fun row => Shown state wish row.2 := visibleTree_make h hrows
  have hkeys : (make state wish).visibleKeys =
      ((preorder state).map (·.2)).filter (Shown state wish ·) := by
    rw [visibleKeys, htree, List.filter_map]
    rfl
  refine ⟨⟨preorder state, h.preorder_preorder, htree⟩, fun depth key => ?_, fun key => ?_, ?_,
    visibleRows_make h hrows, ?_, fun key hkey n child hwithin hchild => ?_,
    ⟨(preorder state).map (·.2), fun _ => meets_iff h, rfl⟩,
    fun _ => lists_iff h⟩
  · rw [htree, List.mem_filter, h.mem_preorder_iff, decide_eq_true_iff]
  · rw [hkeys, List.mem_filter, h.mem_preorder, decide_eq_true_iff]
  · rw [hkeys]
    exact (nodup_preorder_idents h).sublist (List.filter_sublist.map Key.ident)
  · rw [visibleCount, visible_make h, List.length_map, ← hkeys, visibleKeys, List.length_map]
  · have hstored : child ∈ stored state := by
      cases hwithin with
      | self => exact hkey
      | child _ hrow => exact hrows _ child hrow
    rw [isVisible_make h hstored] at hchild
    exact (isVisible_make h hkey).mpr (hchild.of_within hwithin)

/-- Whatever is done to a forest, its projections show what they should. -/
theorem forest_showsExactly (operations : List Operation) (wish : Wish) :
    (make (Operation.run operations : Journal Forest).state wish).ShowsExactly
      (Operation.run operations : Journal Forest).state wish := by
  have hforest := (Forest.run_spec operations).2
  exact showsExactly_make hforest.arranged.consistent fun _ _ => hforest.mem_stored_of_row

/-- Whatever is done to a flat list, its projections show what they should. -/
theorem list_showsExactly (operations : List Operation) (wish : Wish) :
    (make (Operation.run operations : Journal FlatList).state wish).ShowsExactly
      (Operation.run operations : Journal FlatList).state wish := by
  refine showsExactly_make (FlatList.run_spec operations).2.consistent fun parent key hkey => ?_
  cases parent with
  | none => exact hkey
  | some _ => simp [rows] at hkey

/-- Whether a key list is shown as it should be when a filter and a typed text are set, in whatever
order. A filter may tell keys apart in any way. -/
structure Projects (state : σ) (filter : Option (Key → Contexts → Bool)) (typed : Option String) :
    Prop where
  /-- The keys that are accepted are those that the filter accepts and in which the text is found. -/
  accepts_iff : ∀ key, Wish.accepts { filter, query := Wish.queryOf typed } key = true ↔
    (∀ accepted ∈ filter, accepted key .filteringOnly = true) ∧
      ∀ text ∈ typed, Text.trim text = "" ∨
        ∃ shown ∈ key.texts, (Text.lower (Text.trim text)).toList <:+: (Text.lower shown).toList
  filterFirst : (((ofState state).withFilter filter).withQuery typed).ShowsExactly state
    { filter, query := Wish.queryOf typed }
  queryFirst : (((ofState state).withQuery typed).withFilter filter).ShowsExactly state
    { filter, query := Wish.queryOf typed }

/-- Whatever is done to a key list, its projections show the rows that are accepted and the rows above
them, in their order. -/
theorem run_projects (operations : List Operation) (filter : Option (Key → Contexts → Bool))
    (typed : Option String) :
    Projects (Operation.run operations : Journal Forest).state filter typed ∧
      Projects (Operation.run operations : Journal FlatList).state filter typed :=
  ⟨⟨fun _ => Wish.accepts_iff, forest_showsExactly operations _, forest_showsExactly operations _⟩,
    fun _ => Wish.accepts_iff, list_showsExactly operations _, list_showsExactly operations _⟩

end Projection

end KeyForest
