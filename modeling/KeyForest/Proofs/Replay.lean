import KeyForest.Proofs.FlatList
import KeyForest.Proofs.Forest.Steps
import KeyForest.Proofs.Shadow

/-!
# All that becomes different is told

Every step of a forest tells of what it makes different in the rows that can be reached, and so does
every operation on a flat list (`run_followed`). What is listed below a row comes and goes with the
row, without a word of its own.
-/
namespace KeyForest

open Listing

theorem Shadow.not_isBelow_none {shadow : Shadow} {key : Key} : ¬ shadow.IsBelow key none := nofun

namespace Forest

open Placements

variable {forest before after : Forest} {journal journal' : Journal Forest}
  {loose loose' : Set Ident} {parent : Option Fingerprint} {key old : Key} {f : Fingerprint} {row : ℕ}

/-! ### What is shown of a forest -/

theorem Arranged.reached_iff (h : forest.Arranged loose) :
    Reached forest f ↔ Attached forest.placed f.ident := by
  constructor
  · rintro ⟨_, _, _, key, hkey, hident⟩
    rw [← hident]
    exact (h.attached_of_visible hkey).2
  · intro hattached
    obtain ⟨o, ho⟩ := Option.isSome_iff_exists.mp hattached.isSome
    obtain ⟨key, hkey, hident⟩ := (h.rowsMatch _ _).mp ho
    obtain ⟨depth, above, index, hvisible⟩ := h.exists_visible hattached hkey hident
    exact ⟨_, _, _, key, hvisible, hident⟩

theorem Arranged.shown_eq (h : forest.Arranged loose)
    (hparent : ∀ p ∈ parent.map Fingerprint.ident, Attached forest.placed p) :
    shown forest parent = forest.under (parent.map Fingerprint.ident) := by
  cases parent with
  | none => rfl
  | some f => exact (if_pos (h.reached_iff.mpr (hparent _ rfl))).trans (rows_eq forest (some f))

theorem Arranged.shown_some (h : forest.Arranged loose) (hf : Attached forest.placed f.ident) :
    shown forest (some f) = forest.under (some f.ident) :=
  h.shown_eq fun p hp => by rwa [← Option.some.inj hp]

theorem Arranged.shown_eq_nil (h : forest.Arranged loose) (hf : ¬ Attached forest.placed f.ident) :
    shown forest (some f) = [] := if_neg (mt h.reached_iff.mp hf)

/-- Below an attached key is shown what hangs below it. -/
theorem Arranged.isBelow_iff (h : forest.Arranged loose) (hkey : Attached forest.placed key.ident) :
    (shown forest).IsBelow key (some f) ↔ Hangs forest.placed key.ident f.ident := by
  constructor
  · intro hbelow
    generalize hparent : some f = parent at hbelow
    induction hbelow generalizing f with
    | self hident =>
      cases hparent
      rw [hident]
      exact .self
    | @child _ g child _ hchild hident ih =>
      cases hparent
      have hhangs := ih rfl
      rw [h.shown_some (hhangs.attached_iff.mpr hkey)] at hchild
      rw [hident]
      exact .child (h.placed_of_mem hchild) hhangs
  · intro hhangs
    generalize hx : f.ident = x at hhangs
    induction hhangs generalizing f with
    | self => exact .self hx
    | @child x p hplaced hhangs ih =>
      obtain ⟨child, hchild, rfl⟩ := (h.rowsMatch _ _).mp hplaced
      obtain ⟨g, rfl⟩ : ∃ g : Fingerprint, g.ident = p := by
        rcases hhangs.eq_or_child with rfl | ⟨q, hq, -⟩
        · exact ⟨key.fingerprint, rfl⟩
        · obtain ⟨other, -, rfl⟩ := (h.rowsMatch _ _).mp hq
          exact ⟨other.fingerprint, rfl⟩
      refine .child (ih rfl) ?_ hx
      rwa [h.shown_some (hhangs.attached_iff.mpr hkey)]

/-- What is shown under a parent depends on its rows, and on whether it can be reached. -/
theorem shown_eq_of_attached_iff (hbefore : before.Arranged loose) (hafter : after.Arranged loose')
    (hrows : after.under (parent.map Fingerprint.ident) = before.under (parent.map Fingerprint.ident))
    (hattached : ∀ f ∈ parent, Attached after.placed f.ident ↔ Attached before.placed f.ident) :
    shown after parent = shown before parent := by
  cases parent with
  | none => exact hrows
  | some f =>
    by_cases hf : Attached before.placed f.ident
    · rw [hbefore.shown_some hf, hafter.shown_some ((hattached f rfl).mpr hf)]
      exact hrows
    · rw [hbefore.shown_eq_nil hf, hafter.shown_eq_nil (mt (hattached f rfl).mp hf)]

theorem ne_of_not_sameParent {a b : Option Fingerprint} (h : sameParent a b = false) :
    a.map Fingerprint.ident ≠ b.map Fingerprint.ident := fun heq => by
  rw [sameParent_iff.mpr heq] at h
  contradiction

/-- A loose key that gets a row under an attached parent brings what hangs below it into view. -/
theorem grows_of_row (hbefore : before.Arranged loose) (hafter : after.Arranged loose')
    (hloose : key.ident ∈ loose)
    (hparent : ∀ p ∈ parent.map Fingerprint.ident, Attached before.placed p)
    (hplaced : after.placed = settle before.placed key.ident (parent.map Fingerprint.ident))
    (hrow : row ≤ (before.under (parent.map Fingerprint.ident)).length)
    (hunder : ∀ o, after.under o = if o = parent.map Fingerprint.ident then
      (before.under o).insertIdx row key else before.under o) :
    (shown before).Grows (shown after) parent row key := by
  have hattached {x : Ident} :
      Attached after.placed x ↔ Attached before.placed x ∨ Hangs before.placed key.ident x := by
    rw [hplaced]
    exact attached_settle (hbefore.vacant _ hloose) hparent
  have hself : Attached after.placed key.ident := hattached.mpr (.inr .self)
  have hbelow {g : Fingerprint} :
      (shown after).IsBelow key (some g) ↔ Hangs before.placed key.ident g.ident := by
    rw [hafter.isBelow_iff hself, hplaced]
    exact Hangs.congr_iff fun y hy => Function.update_of_ne hy _ _
  refine ⟨?_, fun other hsame => ?_, fun hparent' => ?_, fun other hother => ?_,
    fun other hsame hother => ?_⟩
  · rwa [hbefore.shown_eq hparent]
  · rw [sameParent_iff] at hsame
    rw [hbefore.shown_eq (by rwa [hsame]), hafter.shown_eq, hunder, if_pos hsame]
    rw [hsame]
    exact fun p hp => hattached.mpr (.inl (hparent p hp))
  · cases parent with
    | none => exact Shadow.not_isBelow_none hparent'
    | some g => exact hbefore.not_attached hloose (hbelow.mp hparent') (hparent _ rfl)
  · cases other with
    | none => exact absurd hother Shadow.not_isBelow_none
    | some g => exact hbefore.shown_eq_nil (hbefore.not_attached hloose (hbelow.mp hother))
  · refine shown_eq_of_attached_iff hbefore hafter ?_ fun g hg => ?_
    · rw [hunder, if_neg (ne_of_not_sameParent hsame)]
    · rw [hattached, or_iff_left_of_imp]
      cases hg
      exact fun hhangs => absurd (hbelow.mpr hhangs) hother

/-- A key that takes the place of another in its row changes nothing else. -/
theorem alters_of_row (hbefore : before.Arranged loose) (hafter : after.Arranged loose')
    (hparent : ∀ p ∈ parent.map Fingerprint.ident, Attached before.placed p)
    (hplaced : after.placed = before.placed)
    (hold : (before.under (parent.map Fingerprint.ident))[row]? = some old)
    (hident : key.ident = old.ident)
    (hunder : ∀ o, after.under o = if o = parent.map Fingerprint.ident then
      (before.under o).set row key else before.under o) :
    (shown before).Alters (shown after) parent row old key := by
  refine ⟨?_, hident, fun other hsame => ?_, fun other hsame => ?_⟩
  · rwa [hbefore.shown_eq hparent]
  · rw [sameParent_iff] at hsame
    rw [← hsame] at hparent
    rw [hbefore.shown_eq hparent, hafter.shown_eq (by rwa [hplaced]), hunder, if_pos hsame]
  · refine shown_eq_of_attached_iff hbefore hafter ?_ fun g _ => by rw [hplaced]
    rw [hunder, if_neg (ne_of_not_sameParent hsame)]

/-! ### Steps -/

theorem shown_of_sameRows (h : SameRows before after) : shown before = shown after := by
  refine shown_congr ?_
  funext parent
  change before.rows parent = after.rows parent
  rw [rows_eq, rows_eq, under_congr h.topLevel_eq h.children_eq]

theorem grows_bringIn (h : before.Arranged loose) (hloose : key.ident ∈ loose)
    (hnamed : key.ident ≠ []) (hslot : (before.rows parent).search key.fingerprint = .free row)
    (hparent : before.Welcomes parent key) :
    (shown before).Grows (shown (before.bringIn parent key (.free row))) parent row key := by
  have hafter := h.bringIn hloose hslot hnamed hparent.issued
  have hfits := Bucket.search_spec (h.rows_sorted (parent.map Fingerprint.ident)) key.fingerprint
  rw [← rows_eq, hslot] at hfits
  obtain ⟨front, back, hrows, rfl, -⟩ := hfits
  refine grows_of_row h hafter hloose (fun p hp => (hparent.issued p hp).1) (placed_bringIn _ _ _ _) ?_
    fun o => ?_
  · rw [← rows_eq, hrows, List.length_append]
    exact Nat.le_add_right _ _
  · rw [under_bringIn, under_putRow]
    rfl

/-- A key is listed under an attached parent or none. -/
theorem Arranged.attached_parent (h : forest.Arranged loose) {o : Option Ident}
    (hplaced : forest.placed f.ident = some o) (hattached : Attached forest.placed f.ident) :
    ∀ p ∈ o, Attached forest.placed p ∧ ¬ Hangs forest.placed f.ident p := by
  rintro p rfl
  obtain ⟨n, hn⟩ := h.acyclic f.ident
  exact ⟨hattached.of_child hplaced, hn.not_hangs_child hplaced⟩

theorem grows_takeOut (h : forest.Arranged loose) {index : RowIndex}
    (hindex : forest.placeOf f = some index) (hattached : Attached forest.placed f.ident) :
    ∃ key, (shown (forest.takeOut index f)).Grows (shown forest) index.parent index.row key := by
  obtain ⟨key, hkey, hident⟩ := h.getElem?_placeOf hindex
  have hplaced := placed_of_placeOf hindex
  have hafter := h.takeOut hindex hattached
  rw [rows_eq] at hkey
  obtain ⟨hlt, hget⟩ := List.getElem?_eq_some_iff.mp hkey
  refine ⟨key, grows_of_row hafter h (by rw [hident]; exact Set.mem_insert _ _) (fun p hp => ?_) ?_ ?_
    fun o => ?_⟩
  · rw [placed_takeOut]
    exact attached_vacate.mpr (h.attached_parent hplaced hattached p hp)
  · rw [placed_takeOut, hident, settle, vacate, Function.update_idem, ← hplaced,
      Function.update_eq_self]
  · rw [under_takeOut, under_detach, if_pos rfl, List.length_eraseIdx_of_lt hlt]
    omega
  · rw [under_takeOut, under_detach]
    by_cases ho : o = index.parent.map Fingerprint.ident
    · subst ho
      rw [if_pos rfl, if_pos rfl, ← hget, List.insertIdx_eraseIdx_getElem hlt]
    · rw [if_neg ho, if_neg ho]

/-- A row that is told to have changed may as well not have. -/
theorem alters_self (h : forest.Arranged loose) {index : RowIndex}
    (hindex : forest.placeOf f = some index) (hattached : Attached forest.placed f.ident) :
    ∃ key, (shown forest).Alters (shown forest) index.parent index.row key key := by
  obtain ⟨key, hkey, -⟩ := h.getElem?_placeOf hindex
  rw [rows_eq] at hkey
  obtain ⟨hlt, hget⟩ := List.getElem?_eq_some_iff.mp hkey
  refine ⟨key, alters_of_row h h (fun p hp => ?_) rfl hkey rfl fun o => ?_⟩
  · exact (h.attached_parent (placed_of_placeOf hindex) hattached p hp).1
  · by_cases ho : o = index.parent.map Fingerprint.ident
    · subst ho
      rw [if_pos rfl, ← hget, List.set_getElem_self]
    · rw [if_neg ho]

theorem alters_putRow (h : before.Arranged loose)
    (hslot : (before.rows parent).search key.fingerprint = .taken row)
    (hattached : Attached before.placed key.ident) (hparent : before.Welcomes parent key) :
    ∃ old, (shown before).Alters (shown (before.putRow parent key (.taken row))) parent row old
      key := by
  have hafter := h.putRow hslot hattached fun p hp => (hparent.issued p hp).2
  have hfits := Bucket.search_spec (h.rows_sorted (parent.map Fingerprint.ident)) key.fingerprint
  rw [← rows_eq, hslot] at hfits
  obtain ⟨front, old, back, hrows, rfl, hident⟩ := hfits
  refine ⟨old, alters_of_row h hafter (fun p hp => ?_) (placed_putRow_of_taken h hslot) ?_
    hident.symm fun o => ?_⟩
  · exact (h.attached_parent (placed_of_taken h hslot) hattached p hp).1
  · rw [← rows_eq, hrows]
    simp
  · rw [under_putRow]
    rfl

theorem shown_empty : shown ({} : Forest) = .bare := by
  funext parent
  cases parent with
  | none => rfl
  | some f =>
    refine arranged_empty.shown_eq_nil fun hattached => ?_
    have := hattached.isSome
    simp [placed] at this

/-- Every step tells of what it makes different. -/
theorem Step.told (hstep : Step journal journal') (h : journal.Told) : journal'.Told := by
  cases hstep with
  | log event => exact h.log event
  | @remark change hchange =>
    refine h.announce fun previous => ?_
    cases change <;> first | rfl | exact hchange.elim
  | mark hsame => exact h.update (shown_of_sameRows hsame)
  | refresh hstate hindex hattached =>
    obtain ⟨key, halters⟩ := alters_self hstate hindex hattached
    exact h.announce fun _ => ⟨key, key, halters⟩
  | replace hstate hslot hattached hparent =>
    obtain ⟨old, halters⟩ := alters_putRow hstate hslot hattached hparent
    exact h.tell _ ⟨old, _, halters⟩
  | insert hstate hloose hnamed hslot hparent =>
    exact h.insert (grows_bringIn hstate hloose hnamed hslot hparent)
  | remove hstate hindex hattached hsame =>
    obtain ⟨key, hgrows⟩ := grows_takeOut hstate hindex hattached
    rw [← shown_of_sameRows hsame] at hgrows
    exact h.remove hgrows
  | reset => exact h.reset shown_empty

end Forest

namespace FlatList

variable {list : FlatList} {keys : Bucket} {key old : Key} {row : ℕ} {journal : Journal FlatList}

/-! ### The flat list -/

theorem shown_some (list : FlatList) (f : Fingerprint) : shown list (some f) = [] := ite_self _

theorem grows_insertIdx (hrow : row ≤ keys.length) :
    (shown (FlatList.mk keys)).Grows (shown (FlatList.mk (keys.insertIdx row key))) none row key := by
  refine ⟨hrow, fun other hsame => ?_, Shadow.not_isBelow_none, fun other hother => ?_,
    fun other hsame _ => ?_⟩
  · cases other with
    | none => rfl
    | some f => simp [sameParent] at hsame
  · cases other with
    | none => exact absurd hother Shadow.not_isBelow_none
    | some f => exact shown_some _ f
  · cases other with
    | none => simp [sameParent] at hsame
    | some f => rw [shown_some, shown_some]

theorem alters_set (hold : keys[row]? = some old) (hident : key.ident = old.ident) :
    (shown (FlatList.mk keys)).Alters (shown (FlatList.mk (keys.set row key))) none row old key := by
  refine ⟨hold, hident, fun other hsame => ?_, fun other hsame => ?_⟩
  · cases other with
    | none => rfl
    | some f => simp [sameParent] at hsame
  · cases other with
    | none => simp [sameParent] at hsame
    | some f => rw [shown_some, shown_some]

theorem told_put (h : journal.Told) (hstate : Tidy journal.state) (key : Key) :
    (put journal key).Told := by
  have hfits := Bucket.search_spec hstate.sorted key.fingerprint
  unfold put
  cases hslot : journal.state.keys.search key.fingerprint with
  | taken row =>
    rw [hslot] at hfits
    obtain ⟨front, old, back, hkeys, rfl, hident⟩ := hfits
    exact h.tell _ ⟨old, key, alters_set (by simp [hkeys]) hident.symm⟩
  | free row =>
    rw [hslot] at hfits
    obtain ⟨front, back, hkeys, rfl, -⟩ := hfits
    exact h.insert (grows_insertIdx (by simp [hkeys]))

theorem told_remove (h : journal.Told) (hstate : Tidy journal.state) (f : Fingerprint) :
    (remove journal f).Told := by
  unfold remove
  split
  · exact h
  · rename_i row hrow
    obtain ⟨key, hkey, -⟩ := (Bucket.rowOf?_eq_some hstate.sorted).mp hrow
    obtain ⟨hlt, hget⟩ := List.getElem?_eq_some_iff.mp hkey
    have hgrows : (shown (FlatList.mk (journal.state.keys.eraseIdx row))).Grows
        (shown (FlatList.mk ((journal.state.keys.eraseIdx row).insertIdx row key))) none row key := by
      refine grows_insertIdx ?_
      rw [List.length_eraseIdx_of_lt hlt]
      omega
    rw [← hget, List.insertIdx_eraseIdx_getElem hlt] at hgrows
    exact h.remove hgrows

theorem shown_nil : shown (FlatList.mk []) = .bare := by
  funext parent
  cases parent with
  | none => rfl
  | some f => exact shown_some _ f

theorem told_foldl_put (h : journal.Told) (hstate : Tidy journal.state) {keys : List Key}
    (hnamed : ∀ key ∈ keys, key.ident ≠ []) : (keys.foldl put journal).Told := by
  induction keys generalizing journal with
  | nil => exact h
  | cons key keys ih =>
    obtain ⟨hkey, hkeys⟩ := List.forall_mem_cons.mp hnamed
    refine ih (told_put h hstate key) ?_ hkeys
    rw [state_put]
    exact hstate.put hkey

theorem told_add (h : journal.Told) (hstate : Tidy journal.state) (keys : List Key) :
    (KeyList.add journal keys).1.Told := by
  rcases KeyList.add_cases journal keys with ⟨-, hadd⟩ | hadd
  · rw [hadd]
    exact h
  · rw [hadd]
    refine (told_foldl_put ((h.log _).check _ _) ?_ fun key hkey =>
      (Bucket.mem_of_mem_ofBatch hkey).2).check _ _
    rwa [Journal.state_check]

/-- Every operation tells of what it makes different. -/
theorem told_run (operations : List Operation) :
    (Operation.run operations : Journal FlatList).Told := by
  induction operations using List.reverseRecOn with
  | nil => exact Journal.told_ofState shown_nil
  | append_singleton operations operation ih =>
    have hstate := (run_spec operations).2
    rw [Operation.run_concat]
    cases operation with
    | add keys => exact told_add ih hstate keys
    | addOne key => exact told_add ih hstate [key]
    | set keys => exact @told_add (clear (Operation.run operations)) (ih.reset shown_nil) tidy_nil keys
    | remove f => exact told_remove ih hstate f
    | clear => exact ih.reset shown_nil

end FlatList

/-- Whatever is done to a forest or a flat list, the changes tell of all that becomes different in
the rows that can be reached, and who follows them sees the same rows at every change and in the
end. -/
theorem run_followed (operations : List Operation) :
    (Operation.run operations : Journal Forest).Followed ∧
      (Operation.run operations : Journal FlatList).Followed := by
  have hforest := Forest.run_induction (Journal.told_ofState Forest.shown_empty) Forest.Step.told
  exact ⟨(hforest operations).followed, (FlatList.told_run operations).followed⟩

end KeyForest
