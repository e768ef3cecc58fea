import KeyForest.Proofs.Forest.Promotions

/-!
# Rows that are told to have changed at the end of a batch

Listing a key marks its parent and the keys above it, up to the first that is marked already. That
is enough because the marks are closed upwards at every moment: whoever is marked, or has been
placed by the batch, stands under a marked key (`Covers`), even after marked keys have moved. So at
the end every key above a placed one is marked, and told to have changed (`run_add_touches`).
-/
namespace KeyForest.Forest

open Placements Listing

variable {forest before after base : Forest} {outline : Outline} {placing : Placing}
  {orphans rest : List Key} {there : Set Ident} {key : Key} {f : Fingerprint}
  {parent : Option Fingerprint} {p : Ident} {touched : Table Unit} {handled : Set Ident}
  {up : Placements} {n steps : ℕ}

/-- Whoever is handled or touched stands at the top level or under a touched key. -/
def Covers (touched : Table Unit) (up : Placements) (handled : Set Ident) : Prop :=
  ∀ x p, x ∈ handled ∨ x ∈ touched.idents → up x = some (some p) → p ∈ touched.idents

theorem Covers.mono {fewer : Set Ident} (h : Covers touched up handled) (hsub : fewer ⊆ handled) :
    Covers touched up fewer :=
  fun x p hx => h x p (hx.imp_left fun hmem => hsub hmem)

/-! ### Touching -/

theorem isSorted_touch (h : touched.IsSorted) : (touch forest steps parent touched).IsSorted := by
  induction steps generalizing parent touched with
  | zero => exact h
  | succ steps ih =>
    cases parent with
    | none => exact h
    | some f =>
      rw [touch]
      split
      · exact h
      · exact ih (h.put f ())

/-- The way up from a parent is shorter. -/
theorem exists_ends_above {g : Fingerprint} (hends : Ends forest.placed n f.ident)
    (hg : (forest.parents.get? f).join = some g) : ∃ m < n, Ends forest.placed m g.ident := by
  have hplaced := placed_of_get? (Option.join_eq_some_iff.mp hg)
  cases hends with
  | here hnone => exact absurd hplaced (hnone _)
  | @child _ _ m hp hends =>
    rw [hplaced] at hp
    cases hp
    exact ⟨m, Nat.lt_succ_self m, hends⟩

/-- When one parent alone stands in the way of closure, touching it and what is above it restores
closure. -/
theorem covers_touch (hends : ∀ f ∈ parent, ∃ n < steps, Ends forest.placed n f.ident)
    (hedge : ∀ x p, x ∈ handled ∨ x ∈ touched.idents → forest.placed x = some (some p) →
      p ∈ touched.idents ∨ parent.map Fingerprint.ident = some p) :
    Covers (touch forest steps parent touched) forest.placed handled := by
  induction steps generalizing parent touched with
  | zero =>
    cases parent with
    | none => exact fun x p hx hp => (hedge x p hx hp).resolve_right (by simp)
    | some f =>
      obtain ⟨n, hn, -⟩ := hends f rfl
      omega
  | succ steps ih =>
    cases parent with
    | none => exact fun x p hx hp => (hedge x p hx hp).resolve_right (by simp)
    | some f =>
      rw [touch]
      split
      · rename_i hhas
        rw [Table.has_iff, ← Table.mem_idents] at hhas
        intro x p hx hp
        rcases hedge x p hx hp with hmem | heq
        · exact hmem
        · cases heq
          exact hhas
      · refine ih (fun g hg => ?_) fun x p hx hp => ?_
        · obtain ⟨n, hn, hends⟩ := hends f rfl
          obtain ⟨m, hm, hends⟩ := exists_ends_above hends hg
          exact ⟨m, by omega, hends⟩
        · rw [Table.mem_idents_put] at hx ⊢
          rcases or_left_comm.mp hx with rfl | hx
          · obtain ⟨value, hvalue, hident⟩ := Option.map_eq_some_iff.mp hp
            right
            rw [Table.get?_eq, hvalue, Option.join_some, hident]
          · rcases hedge x p hx hp with hmem | heq
            · exact .inl (.inr hmem)
            · exact .inl (.inl (Option.some.inj heq).symm)

/-- Placing a key where its target says, and touching that parent, keeps the marks closed. -/
theorem Covers.place (h : Covers touched before.placed handled) (hacyclic : Acyclic after.placed)
    (hother : ∀ x ≠ key.ident, ∀ p, after.placed x = some (some p) →
      before.placed x = some (some p))
    (hself : ∀ p, after.placed key.ident = some (some p) →
      parent.map Fingerprint.ident = some p) :
    Covers (touch after (after.parents.length + 1) parent touched) after.placed
      (insert key.ident handled) := by
  refine covers_touch (fun f _ => ?_) fun x p hx hp => ?_
  · obtain ⟨n, hn⟩ := hacyclic f.ident
    exact ⟨n, Nat.lt_succ_of_le (ends_le_parents hn), hn⟩
  · by_cases hxkey : x = key.ident
    · rw [hxkey] at hp
      exact .inr (hself p hp)
    · refine .inl (h x p ?_ (hother x hxkey p hp))
      exact hx.imp_left fun hmem => hmem.resolve_left hxkey

/-! ### Deliveries -/

theorem touched_promote (placing : Placing) (orphan : Key) :
    (promote placing orphan).touched = placing.touched := by
  unfold promote
  split
  · rfl
  · dsimp only
    split <;> rfl

theorem touched_started (placing : Placing) (key : Key) :
    (started placing key).touched = placing.touched := by
  have hfold (orphans : List Key) (placing : Placing) :
      (orphans.foldl promote placing).touched = placing.touched := by
    induction orphans generalizing placing with
    | nil => rfl
    | cons orphan orphans ih => rw [List.foldl_cons, ih, touched_promote]
  exact hfold _ _

theorem touched_place (placing : Placing) (key : Key) (arrival : Arrival) :
    (place placing key arrival).touched = touch (place placing key arrival).journal.state
      ((place placing key arrival).journal.state.parents.length + 1)
      ((started placing key).journal.state.targetOf key).parent placing.touched := by
  rw [← touched_started placing key]
  rfl

theorem covers_place_delivered (h : placing.journal.Faultless)
    (hstate : placing.journal.state.Settled outline) (hproper : outline.Proper)
    (hqueue : placing.queue = []) (hnamed : key.ident ≠ [])
    (hcovers : Covers placing.touched placing.journal.state.placed handled) :
    Covers (place placing key .delivered).touched (place placing key .delivered).journal.state.placed
      (insert key.ident handled) := by
  obtain ⟨-, hgathers, -⟩ := started_delivered h hstate hproper hqueue key
  obtain ⟨-, hshows, -, -⟩ := place_delivered h hstate hproper hqueue hnamed
  rw [touched_place]
  refine hcovers.place hshows.arranged.acyclic (fun x hx p hp => ?_) fun p hp => ?_
  · obtain ⟨hrests, hup⟩ := hshows.up_of_placed hp
    rw [hstate.placed_eq, ← hup, eq_comm]
    refine Outline.up_deliver_other hproper hx fun other hother hident hissuer => ?_
    by_contra hnew
    exact hrests other (hstate.waits.awaiting_iff.mpr ⟨hother, hissuer, hnew⟩) hident
  · have hup := (hshows.up_of_placed hp).2
    rw [hgathers.up_self hnamed] at hup
    exact Option.some.inj hup

theorem covers_place_promoted (h : placing.journal.Faultless)
    (hshows : placing.journal.state.Shows outline (key :: rest) { x | outline.Has x })
    (hproper : outline.Proper) (hnodup : ((key :: rest).map Key.ident).Nodup)
    (hup : outline.up key.ident = some (some p)) (hp : Attached placing.journal.state.placed p)
    (hcovers : Covers placing.touched placing.journal.state.placed handled) :
    Covers (place placing key .promoted).touched (place placing key .promoted).journal.state.placed
      (insert key.ident handled) := by
  obtain ⟨-, hreadies, hplaced, -⟩ := started_promoted h hshows hnodup
  obtain ⟨-, hshows', -, -⟩ := place_promoted h hshows hproper hnodup hup hp
  have hmem : key ∈ outline.keys := hshows.mem_keys.mpr (.inr List.mem_cons_self)
  have hissuer := ((Outline.up_eq_under hproper.sorted hmem).mp hup).1
  rw [touched_place]
  refine hcovers.place hshows'.arranged.acyclic (fun x hx q hq => ?_) fun q hq => ?_
  · obtain ⟨hrests, hq⟩ := hshows'.up_of_placed hq
    rw [hshows.placed_eq (List.forall_mem_cons.mpr ⟨Ne.symm hx, hrests⟩), hq]
  · cases hup.symm.trans (hshows'.up_of_placed hq).2
    exact hreadies.parent_target hissuer (hplaced ▸ hp)

theorem covers_drain {steps : ℕ} (h : Draining placing outline orphans p)
    (hproper : outline.Proper) (hsteps : orphans.length ≤ steps)
    (hcovers : Covers placing.touched placing.journal.state.placed handled) :
    Covers (drain steps placing).touched (drain steps placing).journal.state.placed
      (handled ∪ { x | ∃ orphan ∈ orphans, orphan.ident = x }) := by
  induction orphans generalizing steps placing handled with
  | nil =>
    rw [drain_of_queue_eq_nil h.queue_eq]
    simpa using hcovers
  | cons orphan orphans ih =>
    cases steps with
    | zero => simp at hsteps
    | succ steps =>
      have hplaced := @covers_place_promoted outline (dequeued placing orphans) orphans orphan p
        handled h.faultless h.shows hproper h.nodup (h.up_eq orphan List.mem_cons_self) h.attached
        hcovers
      rw [h.drain_eq]
      refine (ih (h.next hproper) (Nat.le_of_succ_le_succ hsteps) hplaced).mono fun x hx => ?_
      rcases hx with hx | ⟨other, hother, hident⟩
      · exact .inl (.inr hx)
      · rcases List.mem_cons.mp hother with rfl | hother
        · exact .inl (.inl hident.symm)
        · exact .inr ⟨other, hother, hident⟩

theorem covers_deliver (h : placing.journal.Faultless)
    (hstate : placing.journal.state.Settled outline) (hproper : outline.Proper)
    (hnamed : key.ident ≠ [])
    (hcovers : Covers placing.touched placing.journal.state.placed handled) :
    Covers (deliver placing key).touched (deliver placing key).journal.state.placed
      (insert key.ident handled ∪
        { x | ∃ orphan ∈ placing.journal.state.awaiting key.ident, orphan.ident = x }) := by
  have hplaced := @covers_place_delivered outline { placing with queue := [] } key handled h hstate
    hproper rfl hnamed hcovers
  rw [deliver_eq]
  exact covers_drain (draining_delivered h hstate hproper hnamed) (hproper.deliver hnamed)
    (length_awaiting_le _ _) hplaced

/-! ### Marks in ascending order -/

theorem isSorted_touched_drain (h : placing.touched.IsSorted) :
    (drain steps placing).touched.IsSorted := by
  induction steps generalizing placing with
  | zero => exact h
  | succ steps ih =>
    rw [drain]
    split
    · exact h
    · refine ih ?_
      rw [touched_place]
      exact isSorted_touch h

theorem isSorted_touched_delivered (journal : Journal Forest) (keys : List Key) :
    (delivered journal keys).touched.IsSorted := by
  have hfold (batch : List Key) {placing : Placing} (h : placing.touched.IsSorted) :
      (batch.foldl deliver placing).touched.IsSorted := by
    induction batch generalizing placing with
    | nil => exact h
    | cons key batch ih => exact ih (isSorted_touched_drain h)
  exact hfold _ List.Pairwise.nil

/-! ### Batches -/

/-- The keys whose rows are told to have moved. -/
def arrived (told : List (Change × Forest)) : List Key :=
  (arrivals told).filterMap fun arrival => keyAt arrival.2 arrival.1

theorem arrived_append (told told' : List (Change × Forest)) :
    arrived (told ++ told') = arrived told ++ arrived told' := by
  rw [arrived, arrivals_append, List.filterMap_append]
  rfl

theorem filterMap_keyAt_of_arrives {arriving : List (RowIndex × Forest)}
    (h : List.Forall₂ (Arrives base) orphans arriving) :
    arriving.filterMap (fun arrival => keyAt arrival.2 arrival.1) = orphans := by
  induction h with
  | nil => rfl
  | cons hfirst _ ih => rw [List.filterMap_cons, hfirst.keyAt_eq, ih]

theorem covers_foldl_deliver (h : placing.journal.Faultless)
    (hstate : placing.journal.state.Settled outline) (hproper : outline.Proper) {keys : List Key}
    (hkeys : ∀ key ∈ keys, key.ident ≠ [])
    (hcovers : Covers placing.touched placing.journal.state.placed handled) :
    ∃ told, (keys.foldl deliver placing).journal.notices = placing.journal.notices ++ told ∧
      Covers (keys.foldl deliver placing).touched (keys.foldl deliver placing).journal.state.placed
        (handled ∪ { x | ∃ key ∈ keys ++ arrived told, key.ident = x }) := by
  induction keys generalizing placing outline handled with
  | nil => exact ⟨[], by simp, by simpa [arrived, arrivals] using hcovers⟩
  | cons key keys ih =>
    obtain ⟨hkey, hkeys⟩ := List.forall_mem_cons.mp hkeys
    obtain ⟨hfaultless, hsettled⟩ := deliver_spec h hstate hproper hkey
    obtain ⟨first, hfirst, -, harrives, -⟩ := deliver_promotes h hstate hproper hkey
    obtain ⟨told, htold, hcovered⟩ := ih hfaultless hsettled (hproper.deliver hkey) hkeys
      (covers_deliver h hstate hproper hkey hcovers)
    have harrived : arrived first = placing.journal.state.awaiting key.ident :=
      filterMap_keyAt_of_arrives harrives
    refine ⟨first ++ told, ?_, hcovered.mono ?_⟩
    · rw [List.foldl_cons, htold, hfirst, List.append_assoc]
    · rintro x (hx | ⟨other, hother, rfl⟩)
      · exact .inl (.inl (.inr hx))
      · rw [arrived_append, harrived, List.mem_append, List.mem_cons, List.mem_append] at hother
        rcases hother with (rfl | hother) | hother | hother
        · exact .inl (.inl (.inl rfl))
        · exact .inr ⟨other, List.mem_append_left _ hother, rfl⟩
        · exact .inl (.inr ⟨other, hother, rfl⟩)
        · exact .inr ⟨other, List.mem_append_right _ hother, rfl⟩

/-! ### Ancestors -/

theorem mem_under_of_row {parent child : Key}
    (hrow : child ∈ Listing.rows forest (some parent.fingerprint)) :
    child ∈ forest.under (some parent.ident) := by
  rw [← childrenOf_eq]
  exact hrow

/-- All keys above one that is handled are touched. -/
theorem Covers.above (h : Covers touched forest.placed handled) (harranged : forest.Arranged there)
    {ancestor child : Key} (hwithin : Within forest ancestor (n + 1) child)
    (hchild : child.ident ∈ handled ∨ child.ident ∈ touched.idents) :
    ancestor.ident ∈ touched.idents := by
  induction n generalizing child with
  | zero =>
    obtain _ | ⟨_ | _, hrow⟩ := hwithin
    exact h _ _ hchild (harranged.placed_of_mem (mem_under_of_row hrow))
  | succ n ih =>
    obtain _ | ⟨hparent, hrow⟩ := hwithin
    exact ih hparent (.inr (h _ _ hchild (harranged.placed_of_mem (mem_under_of_row hrow))))

/-- The row of a key, and the key as it is stored. -/
def found? (forest : Forest) (f : Fingerprint) : Option (RowIndex × Key) := do
  let index ← forest.placeOf f
  let key ← keyAt forest index
  return (index, key)

theorem Arranged.found?_eq_some (h : forest.Arranged there) {entry : RowIndex × Key}
    (hfound : forest.found? f = some entry) :
    keyAt forest entry.1 = some entry.2 ∧ entry.2.ident = f.ident := by
  simp only [found?, Option.bind_eq_bind, Option.bind_eq_some_iff] at hfound
  obtain ⟨index, hindex, key, hkey, heq⟩ := hfound
  cases heq
  obtain ⟨other, hother, hident⟩ := h.getElem?_placeOf hindex
  cases hkey.symm.trans hother
  exact ⟨hkey, hident⟩

theorem Arranged.exists_found? (h : forest.Arranged there) (hkey : key ∈ forest.stored)
    (hf : f.ident = key.ident) :
    ∃ index, forest.found? f = some (index, key) := by
  obtain ⟨o, hunder, -⟩ := (h.stored_iff key).mp hkey
  have hplaced := h.placed_of_mem hunder
  rw [← hf] at hplaced
  obtain ⟨index, hindex, rfl⟩ := h.exists_placeOf hplaced
  obtain ⟨other, hother, hident⟩ := h.getElem?_placeOf hindex
  have hmem := List.mem_of_getElem? hother
  rw [rows_eq] at hmem
  obtain rfl := (h.rows_sorted _).eq_of_ident hmem hunder (hident.trans hf)
  have hkeyAt : keyAt forest index = some other := hother
  exact ⟨index, by simp [found?, hindex, hkeyAt]⟩

theorem Arranged.dataNotice?_eq (h : forest.Arranged there) (f : Fingerprint) :
    forest.dataNotice? f =
      (forest.found? f).map fun entry => (.dataChanged entry.1.parent entry.1.row, forest) := by
  rw [dataNotice?, found?]
  cases hindex : forest.placeOf f with
  | none => rfl
  | some index =>
    obtain ⟨key, hkey, -⟩ := h.getElem?_placeOf hindex
    have hkeyAt : keyAt forest index = some key := hkey
    simp [hkeyAt]

/-- What is told in the end of the keys below which something was placed. -/
structure Touches (after : Forest) (placed : List Key) (block : List (RowIndex × Key)) : Prop where
  /-- A row is told of where it is in the end. -/
  keyAt_eq : ∀ entry ∈ block, keyAt after entry.1 = some entry.2
  sorted : Bucket.IsSorted (block.map (·.2))
  /-- All keys above one that was placed are told of. -/
  covers : ∀ key ∈ placed, ∀ child, child.ident = key.ident → ∀ ancestor ∈ after.stored, ∀ n,
    Within after ancestor (n + 1) child → ancestor ∈ block.map (·.2)

theorem Covers.touches (h : Covers touched forest.placed handled) (hstate : forest.Settled outline)
    (hsorted : touched.IsSorted) {keys : List Key}
    (hkeys : ∀ key ∈ keys, key.ident ≠ [] → key.ident ∈ handled) :
    Touches forest keys (touched.fingerprints.filterMap forest.found?) where
  keyAt_eq entry hentry := by
    obtain ⟨f, -, hfound⟩ := List.mem_filterMap.mp hentry
    exact (hstate.arranged.found?_eq_some hfound).1
  sorted := by
    rw [Bucket.IsSorted, List.pairwise_map, Table.fingerprints, List.filterMap_map]
    refine List.Pairwise.filterMap _ (fun a b hlt entry hentry entry' hentry' => ?_) hsorted
    show Ident.Below entry.2.ident entry'.2.ident
    rw [(hstate.arranged.found?_eq_some hentry).2, (hstate.arranged.found?_eq_some hentry').2]
    exact hlt
  covers key hkey child hident ancestor hancestor n hwithin := by
    have hnamed : child.ident ≠ [] := by
      obtain _ | ⟨-, hrow⟩ := hwithin
      exact hstate.arranged.named _ child (mem_under_of_row hrow)
    rw [hident] at hnamed
    have htouched := h.above hstate.arranged hwithin (.inl (hident ▸ hkeys key hkey hnamed))
    obtain ⟨⟨f, _⟩, hf, hfident⟩ := List.mem_map.mp htouched
    obtain ⟨index, hfound⟩ := hstate.arranged.exists_found? hancestor hfident
    exact List.mem_map.mpr
      ⟨_, List.mem_filterMap.mpr ⟨f, List.mem_map.mpr ⟨_, hf, rfl⟩, hfound⟩, rfl⟩

/-- Adding keys after any run ends with telling that the rows have changed below which a key was
placed, and all rows above those. -/
theorem run_add_touches (operations : List Operation) (keys : List Key) :
    let before : Journal Forest := Operation.run operations
    let after := (KeyList.add before keys).1
    ∃ told block, after.notices = before.notices ++ told ++ block.map (fun entry =>
        (.dataChanged entry.1.parent entry.1.row, after.state)) ∧
      Touches after.state (keys ++ arrived told) block := by
  intro before after
  obtain ⟨h, hstate⟩ := run_spec operations
  have hproper := Outline.proper_afterRun operations
  obtain ⟨logged, hlogged, hsame, hnotices, hfinal, hadd⟩ := add_tells h hstate hproper keys
  rw [← hsame] at hstate
  obtain ⟨-, hsettled⟩ := delivered_spec hlogged hstate hproper keys
  obtain ⟨told, htold, hcovers⟩ := @covers_foldl_deliver _ ⟨logged, [], []⟩ ∅ hlogged hstate hproper
    (Bucket.issuersFirst (Bucket.ofBatch keys)) (fun _ hkey => named_of_mem_issuersFirst hkey)
    fun x p hx => by simp [Table.idents] at hx
  refine ⟨told, (delivered logged keys).touched.fingerprints.filterMap
    (delivered logged keys).journal.state.found?, ?_, ?_⟩
  · have hdata : (delivered logged keys).journal.state.dataNotice? =
        fun f => ((delivered logged keys).journal.state.found? f).map fun entry =>
          (.dataChanged entry.1.parent entry.1.row, (delivered logged keys).journal.state) :=
      funext hsettled.arranged.dataNotice?_eq
    rw [hadd, hfinal, List.map_filterMap, hdata, ← hnotices]
    exact congrArg (· ++ _) htold
  · rw [hfinal]
    refine hcovers.touches hsettled (isSorted_touched_delivered logged keys) fun key hkey hnamed => ?_
    refine .inr ?_
    rcases List.mem_append.mp hkey with hkey | hkey
    · obtain ⟨other, hother, hident⟩ := Bucket.exists_mem_ofBatch hkey hnamed
      have hmem := (Bucket.issuersFirst_perm _).mem_iff.mpr hother
      exact ⟨other, List.mem_append_left _ hmem, hident⟩
    · exact ⟨key, List.mem_append_right _ hkey, rfl⟩

end KeyForest.Forest
