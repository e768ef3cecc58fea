import KeyForest.Proofs.Forest.Operations
import Mathlib.Logic.Relation

/-!
# What forests do, step by step

Whatever a forest is asked to do, it writes to its journal in steps of eight kinds (`Step`), and at
each of them the forest is arranged. What every step keeps therefore holds after every run
(`run_induction`).
-/
namespace KeyForest

/-- A change that is told of although nothing has changed. -/
def Change.IsRemark : Change → Prop
  | .aboutToMove .. | .moved .. => True
  | _ => False

namespace Forest

open Placements

variable {forest : Forest} {outline : Outline} {journal : Journal Forest} {placing : Placing}
  {loose : Set Ident} {moving orphans rest : List Key} {there : Set Ident} {key orphan : Key}
  {parent : Option Fingerprint} {f : Fingerprint} {p : Ident}

/-- The forests differ at most in who waits and who is moving. -/
structure SameRows (other forest : Forest) : Prop where
  stored_eq : other.stored = forest.stored
  topLevel_eq : other.topLevel = forest.topLevel
  children_eq : other.children = forest.children
  parents_eq : other.parents = forest.parents

/-- A key may be listed under an attached key that it names as its issuer, and at the top level. -/
def Welcomes (forest : Forest) (parent : Option Fingerprint) (key : Key) : Prop :=
  ∀ p ∈ parent, Attached forest.placed p.ident ∧ key.cleanIssuer = some p

theorem Welcomes.issued (h : forest.Welcomes parent key) :
    ∀ p ∈ parent.map Fingerprint.ident, Attached forest.placed p ∧ key.issuer = some p := by
  intro p hp
  obtain ⟨g, hg, rfl⟩ := Option.map_eq_some_iff.mp hp
  exact ⟨(h g hg).1, Key.issuer_of_cleanIssuer (h g hg).2⟩

inductive Step : Journal Forest → Journal Forest → Prop
  | log (journal : Journal Forest) (event : LogEvent) : Step journal (journal.log event)
  | remark {journal : Journal Forest} {change : Change} : change.IsRemark →
      Step journal (journal.announce change)
  /-- Who waits, or who is moving, changes without a word. -/
  | mark {journal : Journal Forest} {mark : Forest → Forest} :
      SameRows (mark journal.state) journal.state → Step journal (journal.update mark)
  /-- A row is told to have changed. -/
  | refresh {journal : Journal Forest} {loose : Set Ident} {f : Fingerprint} {index : RowIndex} :
      journal.state.Arranged loose → journal.state.placeOf f = some index →
      Attached journal.state.placed f.ident →
      Step journal (journal.announce (.dataChanged index.parent index.row))
  /-- A key takes the place of the one in its row. -/
  | replace {journal : Journal Forest} {loose : Set Ident} {parent : Option Fingerprint} {key : Key}
      {row : ℕ} : journal.state.Arranged loose →
      (journal.state.rows parent).search key.fingerprint = .taken row →
      Attached journal.state.placed key.ident → journal.state.Welcomes parent key →
      Step journal
        ((journal.update (·.putRow parent key (.taken row))).announce (.dataChanged parent row))
  /-- A loose key gets a row, and with it returns what is listed below it. -/
  | insert {journal : Journal Forest} {loose : Set Ident} {parent : Option Fingerprint} {key : Key}
      {row : ℕ} : journal.state.Arranged loose → key.ident ∈ loose → key.ident ≠ [] →
      (journal.state.rows parent).search key.fingerprint = .free row →
      journal.state.Welcomes parent key →
      Step journal (((journal.announce (.aboutToInsert parent row row)).update
        (·.bringIn parent key (.free row))).announce (.inserted parent row row))
  /-- A key loses its row, and with it goes what is listed below it. -/
  | remove {journal : Journal Forest} {loose : Set Ident} {f : Fingerprint} {index : RowIndex}
      {drop : Forest → Forest} : journal.state.Arranged loose →
      journal.state.placeOf f = some index → Attached journal.state.placed f.ident →
      SameRows (drop journal.state) (journal.state.takeOut index f) →
      Step journal (((journal.announce (.aboutToRemove index.parent index.row index.row)).update
        drop).announce (.removed index.parent index.row index.row))
  | reset (journal : Journal Forest) : Step journal (clear journal)

/-- A sequence of steps. -/
abbrev Path := Relation.ReflTransGen Step

section Path

variable {before after : Journal Forest}

theorem Step.path (h : Step before after) : Path before after := .single h

theorem Path.log (h : Path before after) (event : LogEvent) : Path before (after.log event) :=
  h.tail (.log after event)

theorem Path.remark (h : Path before after) (change : Change) (hchange : change.IsRemark) :
    Path before (after.announce change) := h.tail (.remark hchange)

theorem Path.mark (h : Path before after) (mark : Forest → Forest)
    (hsame : SameRows (mark after.state) after.state) : Path before (after.update mark) :=
  h.tail (.mark hsame)

end Path

/-- When no key is moving, no key is loose. -/
theorem Shows.arranged_nothing (h : forest.Shows outline [] there) : forest.Arranged ∅ := by
  simpa using h.arranged

/-! ### Rows -/

theorem path_listRow (hstate : journal.state.Arranged loose)
    (hkey : key.ident ∈ loose ∨ journal.state.placed key.ident =
      some (parent.map Fingerprint.ident) ∧ Attached journal.state.placed key.ident)
    (hnamed : key.ident ≠ []) (hparent : journal.state.Welcomes parent key) :
    Path journal (listRow journal parent key).1 := by
  unfold listRow
  cases hslot : (journal.state.rows parent).search key.fingerprint with
  | taken row =>
    have hnot : key.ident ∉ loose := fun hloose => by
      have htaken := placed_of_taken hstate hslot
      rw [hstate.vacant _ hloose] at htaken
      contradiction
    exact (Step.replace hstate hslot (hkey.resolve_left hnot).2 hparent).path
  | free row =>
    have hloose : key.ident ∈ loose :=
      hkey.resolve_right fun hplaced => not_placed_of_free hstate hslot hplaced.1
    exact (Step.insert hstate hloose hnamed hslot hparent).path

theorem path_unlistRow (hstate : journal.state.Arranged loose)
    (hattached : (journal.state.placed f.ident).isSome → Attached journal.state.placed f.ident) :
    Path journal (unlistRow journal f).1 := by
  unfold unlistRow
  cases hindex : journal.state.placeOf f with
  | none => exact .refl
  | some index =>
    have hplaced : (journal.state.placed f.ident).isSome := by rw [placed_of_placeOf hindex]; rfl
    exact (Step.remove hstate hindex (hattached hplaced) ⟨rfl, rfl, rfl, rfl⟩).path

theorem path_leaveOldPlace (target : Target) (hstate : journal.state.Arranged loose)
    (hattached : (journal.state.placed f.ident).isSome → Attached journal.state.placed f.ident) :
    Path journal (leaveOldPlace journal f target) := by
  unfold leaveOldPlace
  split
  · split
    · exact .refl
    · exact path_unlistRow hstate hattached
  · exact .refl

theorem sameRows_rewait (forest : Forest) (former : Option Fingerprint) (target : Target)
    (key : Key) : SameRows (forest.rewait former target key) forest := by
  rw [rewait_eq]
  exact ⟨rfl, rfl, rfl, rfl⟩

/-- A key belongs under no other key than its issuer, in the spelling in which it names it. -/
theorem cleanIssuer_of_parent_targetOf {g : Fingerprint}
    (hparent : (forest.targetOf key).parent = some g) : key.cleanIssuer = some g := by
  unfold targetOf at hparent
  cases hissuer : key.cleanIssuer with
  | none => simp [hissuer, Target.parent] at hparent
  | some issuer =>
    simp only [hissuer] at hparent
    split at hparent
    · exact hparent
    · split at hparent <;> simp [Target.parent] at hparent

/-- A key finds the place where it belongs. -/
theorem path_relist (former : Option Fingerprint) (h : journal.Faultless)
    (hstate : journal.state.Arranged loose) (hnamed : key.ident ≠ [])
    (hplaced : (journal.state.placed key.ident).isSome → Attached journal.state.placed key.ident) :
    Path journal (relist journal former (journal.state.targetOf key) key).1 := by
  have hparent : ∀ g ∈ (journal.state.targetOf key).parent, Attached journal.state.placed g.ident ∧
      ¬ Hangs journal.state.placed key.ident g.ident ∧ key.cleanIssuer = some g := by
    intro g hg
    have htarget := (parent_targetOf (p := g.ident) hstate.acyclic).mp (congrArg (Option.map _) hg)
    exact ⟨htarget.2.1, htarget.2.2, cleanIssuer_of_parent_targetOf hg⟩
  generalize journal.state.targetOf key = target at hparent ⊢
  unfold relist
  refine ((path_leaveOldPlace target hstate hplaced).mark (·.rewait former target key)
    (sameRows_rewait _ former target key)).trans ?_
  rcases leaveOldPlace_spec target h hstate hplaced with
    ⟨hstays, hthere⟩ | ⟨hfaultless, harranged, hunlisted⟩
  · rw [hstays]
    refine path_listRow (hstate.rewait former target key) (.inr ?_) hnamed fun g hg => ?_
    · rw [Journal.state_update, placed_rewait]
      exact ⟨hthere, hplaced (by rw [hthere]; rfl)⟩
    · rw [Journal.state_update, placed_rewait]
      exact ⟨(hparent g hg).1, (hparent g hg).2.2⟩
  · refine path_listRow (harranged.rewait former target key) (.inl (Set.mem_insert _ _)) hnamed
      fun g hg => ?_
    obtain ⟨hattached, hnot, hissuer⟩ := hparent g hg
    rw [Journal.state_update, placed_rewait, hunlisted.placed_eq]
    exact ⟨attached_vacate.mpr ⟨hattached, hnot⟩, hissuer⟩

/-! ### Setting out -/

theorem path_promote (hshows : placing.journal.state.Shows outline moving there)
    (hplaced : placing.journal.state.placed orphan.ident = some none) :
    Path placing.journal (promote placing orphan).journal := by
  obtain ⟨index, hindex, hparent⟩ :=
    hshows.arranged.exists_placeOf (f := orphan.fingerprint) hplaced
  have hnone : index.parent.isNone = true := by
    rw [Option.isNone_iff_eq_none]
    exact Option.map_eq_none_iff.mp hparent
  unfold promote
  rw [hindex]
  dsimp only
  rw [Journal.check_of_holds hnone]
  have hunlist : Path placing.journal (unlistRow
      (placing.journal.announce (.aboutToMove index.parent index.row)) orphan.fingerprint).1 :=
    (Path.remark .refl (.aboutToMove index.parent index.row) trivial).trans
      (path_unlistRow hshows.arranged fun _ => .top hplaced)
  split
  · exact hunlist
  · rename_i key _
    exact hunlist.mark (fun forest => { forest with
      inTransit := forest.inTransit.put key.fingerprint () }) ⟨rfl, rfl, rfl, rfl⟩

theorem path_foldl_promote (h : placing.journal.Faultless)
    (hshows : placing.journal.state.Shows outline moving there)
    (horphans : ∀ orphan ∈ orphans, orphan ∈ outline.keys ∧ outline.up orphan.ident = some none)
    (hnodup : ((moving ++ orphans).map Key.ident).Nodup) :
    Path placing.journal (orphans.foldl promote placing).journal := by
  induction orphans generalizing placing moving with
  | nil => exact .refl
  | cons orphan orphans ih =>
    obtain ⟨⟨horphan, hup⟩, horphans⟩ := List.forall_mem_cons.mp horphans
    have hplaced := (hshows.placed_of_nodup hnodup).trans hup
    obtain ⟨hfaultless, hshows', -⟩ := promote_spec h hshows horphan hplaced
    rw [← List.singleton_append, ← List.append_assoc] at hnodup
    exact (path_promote hshows hplaced).trans (ih hfaultless hshows' horphans hnodup)

/-! ### Placing -/

theorem path_started_delivered (h : placing.journal.Faultless)
    (hstate : placing.journal.state.Settled outline) (hproper : outline.Proper) (key : Key) :
    Path placing.journal (started placing key).journal := by
  have hshows := hstate.shows_unmarked key.fingerprint
  have hforgot := hshows.frame hshows.isMoving_iff (hshows.waits.arrive key.fingerprint)
  have hjournal := (h.update fun forest =>
    { forest with inTransit := forest.inTransit.erase key.fingerprint }).update fun forest =>
      { forest with waiting := forest.waiting.erase key.fingerprint }
  have hpromote := @path_foldl_promote outline { placing with
      journal := (placing.journal.update fun forest =>
        { forest with inTransit := forest.inTransit.erase key.fingerprint }).update fun forest =>
          { forest with waiting := forest.waiting.erase key.fingerprint } }
    [] (placing.journal.state.awaiting key.ident) _ hjournal hforgot
    (fun orphan horphan =>
      ⟨(hstate.waits.awaiting_iff.mp horphan).1, hstate.up_awaiting hproper horphan⟩)
    (hstate.waits.ascends key.ident).nodup_idents
  rw [Key.ident, ← waitingFor_eq] at hpromote
  have hmarked : Path placing.journal ((placing.journal.update fun forest =>
      { forest with inTransit := forest.inTransit.erase key.fingerprint }).update fun forest =>
        { forest with waiting := forest.waiting.erase key.fingerprint }) := by
    refine Path.mark (Path.mark .refl _ ?_) _ ?_ <;> exact ⟨rfl, rfl, rfl, rfl⟩
  exact hmarked.trans hpromote

theorem path_started_promoted
    (hshows : placing.journal.state.Shows outline (key :: rest) { x | outline.Has x }) :
    Path placing.journal (started placing key).journal := by
  have hhas : outline.Has key.ident := ⟨key, hshows.mem_keys.mpr (.inr List.mem_cons_self), rfl⟩
  rw [started_of_nobody (hshows.awaiting_eq_nil hhas)]
  refine Path.mark .refl (fun forest =>
    { forest with
      inTransit := forest.inTransit.erase key.fingerprint
      waiting := forest.waiting.erase key.fingerprint }) ?_
  exact ⟨rfl, rfl, rfl, rfl⟩

theorem path_place {arrival : Arrival} (hstarted : Path placing.journal (started placing key).journal)
    (hlisted : Path (started placing key).journal (listed placing key).1) :
    Path placing.journal (place placing key arrival).journal := by
  rw [journal_place]
  split
  · exact Path.remark (hstarted.trans hlisted) _ trivial
  · exact hstarted.trans hlisted

theorem path_place_delivered (h : placing.journal.Faultless)
    (hstate : placing.journal.state.Settled outline) (hproper : outline.Proper)
    (hqueue : placing.queue = []) (hnamed : key.ident ≠ []) :
    Path placing.journal (place placing key .delivered).journal := by
  obtain ⟨hfaultless, hgathers, -⟩ := started_delivered h hstate hproper hqueue key
  exact path_place (path_started_delivered h hstate hproper key)
    (path_relist _ hfaultless hgathers.shows.arranged hnamed hgathers.attached_self)

theorem path_place_promoted (h : placing.journal.Faultless)
    (hshows : placing.journal.state.Shows outline (key :: rest) { x | outline.Has x })
    (hproper : outline.Proper) (hnodup : ((key :: rest).map Key.ident).Nodup) :
    Path placing.journal (place placing key .promoted).journal := by
  obtain ⟨hfaultless, hreadies, -⟩ := started_promoted h hshows hnodup
  have hnamed := hproper.named key (hshows.mem_keys.mpr (.inr List.mem_cons_self))
  refine path_place (path_started_promoted hshows)
    (path_relist _ hfaultless hreadies.arranged hnamed fun hsome => ?_)
  rw [hreadies.vacant] at hsome
  contradiction

theorem path_drain {steps : ℕ} (h : Draining placing outline orphans p)
    (hproper : outline.Proper) : Path placing.journal (drain steps placing).journal := by
  induction orphans generalizing steps placing with
  | nil => rw [drain_of_queue_eq_nil h.queue_eq]
  | cons orphan orphans ih =>
    cases steps with
    | zero => exact .refl
    | succ steps =>
      have hplace := @path_place_promoted outline (dequeued placing orphans) orphans orphan
        h.faultless h.shows hproper h.nodup
      rw [h.drain_eq]
      exact hplace.trans (ih (h.next hproper))

theorem path_deliver (h : placing.journal.Faultless)
    (hstate : placing.journal.state.Settled outline) (hproper : outline.Proper)
    (hnamed : key.ident ≠ []) : Path placing.journal (deliver placing key).journal := by
  have hplace := @path_place_delivered outline { placing with queue := [] } key h hstate hproper rfl
    hnamed
  rw [deliver_eq]
  exact hplace.trans (path_drain (draining_delivered h hstate hproper hnamed)
    (hproper.deliver hnamed))

/-! ### Operations -/

theorem path_foldl_deliver (h : placing.journal.Faultless)
    (hstate : placing.journal.state.Settled outline) (hproper : outline.Proper) {keys : List Key}
    (hkeys : ∀ key ∈ keys, key.ident ≠ []) :
    Path placing.journal (keys.foldl deliver placing).journal := by
  induction keys generalizing placing outline with
  | nil => exact .refl
  | cons key keys ih =>
    obtain ⟨hkey, hkeys⟩ := List.forall_mem_cons.mp hkeys
    obtain ⟨hfaultless, hsettled⟩ := deliver_spec h hstate hproper hkey
    exact (path_deliver h hstate hproper hkey).trans
      (ih hfaultless hsettled (hproper.deliver hkey) hkeys)

theorem path_announceData (hstate : journal.state.Arranged ∅) (f : Fingerprint) :
    Path journal (announceData journal f) := by
  unfold announceData
  split
  · rename_i index hindex
    have hplaced : (journal.state.placed f.ident).isSome := by rw [placed_of_placeOf hindex]; rfl
    have hattached := (hstate.grounded _ hplaced).resolve_right (by simp)
    exact (Step.refresh hstate hindex hattached).path
  · exact .refl

theorem path_foldl_announceData (hstate : journal.state.Arranged ∅)
    (fingerprints : List Fingerprint) : Path journal (fingerprints.foldl announceData journal) := by
  induction fingerprints generalizing journal with
  | nil => exact .refl
  | cons f fingerprints ih =>
    have hstate' : (announceData journal f).state.Arranged ∅ := by
      rwa [state_announceData]
    exact (path_announceData hstate f).trans (ih hstate')

theorem path_merge (h : journal.Faultless) (hstate : journal.state.Settled outline)
    (hproper : outline.Proper) (keys : List Key) :
    Path journal (merge journal (Bucket.ofBatch keys)).1 := by
  obtain ⟨hfaultless, hsettled⟩ := delivered_spec h hstate hproper keys
  have hdelivered : Path journal (delivered journal keys).journal :=
    @path_foldl_deliver outline ⟨journal, [], []⟩ h hstate hproper _
      fun _ hkey => named_of_mem_issuersFirst hkey
  rw [merge_ofBatch, check_sound ((foldl_announceData_spec hfaultless hsettled _).2 ▸ hsettled)
    (hproper.add keys)]
  exact hdelivered.trans (path_foldl_announceData (Shows.arranged_nothing hsettled) _)

theorem path_add (h : journal.Faultless) (hstate : journal.state.Settled outline)
    (hproper : outline.Proper) (keys : List Key) : Path journal (KeyList.add journal keys).1 := by
  rcases KeyList.add_cases journal keys with ⟨-, hadd⟩ | hadd
  · rw [hadd]
  · rw [hadd]
    exact (Path.log .refl _).trans (path_merge (h.log _) hstate hproper keys)

theorem path_park (hstate : journal.state.Arranged ∅) (f : Fingerprint) :
    Path journal (park journal f) := by
  unfold park
  dsimp only
  split
  · exact .refl
  · refine (Path.mark .refl (fun forest => { forest with
      waiting := forest.waiting.put f (journal.state.topLevel.filter fun key =>
        sameParent key.cleanIssuer (some f)) }) ?_).trans (path_foldl_announceData ?_ _)
    · exact ⟨rfl, rfl, rfl, rfl⟩
    · exact hstate.frame rfl rfl rfl rfl

theorem path_removeLeaf (h : journal.Faultless) (hstate : journal.state.Settled outline)
    (hproper : outline.Proper) (hf : outline.Has f.ident)
    (hleaf : journal.state.under (some f.ident) = []) : Path journal (removeLeaf journal f) := by
  have hattached := hstate.attached_iff.mpr hf
  obtain ⟨o, ho⟩ := Option.isSome_iff_exists.mp hattached.isSome
  obtain ⟨index, hindex, -⟩ := hstate.arranged.exists_placeOf ho
  obtain ⟨key, hkey, -⟩ := hstate.arranged.getElem?_placeOf hindex
  have hkeyAt : Listing.keyAt journal.state index = some key := hkey
  have hdropped := shows_dropLeaf hstate hproper hleaf hindex hkey
  have hsettled := (removeLeaf_spec h hstate hproper hf hleaf).2
  unfold removeLeaf at hsettled ⊢
  rw [hindex] at hsettled ⊢
  dsimp only at hsettled ⊢
  rw [hkeyAt, Option.bind_some, checkSound, Journal.state_check] at hsettled
  rw [hkeyAt, Option.bind_some, check_sound hsettled (hproper.drop f)]
  refine (Step.remove hstate.arranged hindex hattached ?_).path.trans (path_park ?_ f)
  · rw [dropLeaf_eq hleaf, endWait_eq]
    exact ⟨rfl, rfl, rfl, rfl⟩
  · exact hdropped.arranged_nothing

theorem path_remove (h : journal.Faultless) (hstate : journal.state.Settled outline)
    (hproper : outline.Proper) (f : Fingerprint) : Path journal (remove journal f) := by
  unfold remove
  split
  · exact .refl
  · rename_i hstored
    rw [Bool.not_eq_true, Bool.not_eq_false', hstate.has_stored] at hstored
    split
    · rename_i hleaf
      rw [childrenOf_eq] at hleaf
      exact path_removeLeaf h hstate hproper hstored (List.isEmpty_iff.mp hleaf)
    · have hlog := h.log (.rebuildingForest f
        (journal.state.stored.filter fun key => !(key.fingerprint == f)).length)
      obtain ⟨hcleared, hempty⟩ := clear_spec hlog hstate
      exact ((Path.log .refl _).tail (.reset _)).trans
        (path_add hcleared hempty Outline.proper_empty _)

/-- Every run is a sequence of steps. -/
theorem run_path (operations : List Operation) :
    Path KeyList.fresh (Operation.run operations : Journal Forest) := by
  induction operations using List.reverseRecOn with
  | nil => exact .refl
  | append_singleton operations operation ih =>
    obtain ⟨h, hstate⟩ := run_spec operations
    have hproper := Outline.proper_afterRun operations
    rw [Operation.run_concat]
    refine ih.trans ?_
    cases operation with
    | add keys => exact path_add h hstate hproper keys
    | addOne key => exact path_add h hstate hproper [key]
    | set keys =>
      obtain ⟨hcleared, hempty⟩ := clear_spec h hstate
      exact (Step.reset _).path.trans (path_add hcleared hempty Outline.proper_empty keys)
    | remove f => exact path_remove h hstate hproper f
    | clear => exact (Step.reset _).path

/-- What every step keeps is kept by every sequence of steps. -/
theorem Path.keeps {holds : Journal Forest → Prop} {before after : Journal Forest}
    (hstep : ∀ {before after}, Step before after → holds before → holds after)
    (hpath : Path before after) (h : holds before) : holds after := by
  induction hpath with
  | refl => exact h
  | tail _ hlast ih => exact hstep hlast ih

/-- What holds at first, and is kept by every step, holds after every run. -/
theorem run_induction {holds : Journal Forest → Prop} (hfresh : holds KeyList.fresh)
    (hstep : ∀ {before after}, Step before after → holds before → holds after)
    (operations : List Operation) : holds (Operation.run operations) :=
  (run_path operations).keeps hstep hfresh

end Forest

end KeyForest
