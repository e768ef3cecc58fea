import KeyForest.Proofs.Forest.Cycles
import KeyForest.Proofs.Forest.Steps
import KeyForest.Proofs.Forest.Structure

/-!
# Adding the same keys again

A key that is delivered again is placed anew, in a forest that other keys of its batch may have
changed since it was delivered first. It stays where it is unless it was cut from its issuer and the
way up from the issuer does not lead to it any more. Adding a batch again therefore changes nothing,
and tells of refreshed rows only, exactly if it has left every key of it where the key belongs
(`run_repeatable_iff`).
-/
namespace KeyForest

open Placements

namespace Outline

variable {outline : Outline} {key : Key} {batch : List Key} {x : Ident}

/-! ### Delivering keys again -/

/-- To deliver a key again makes no difference if it is cut as before. -/
theorem deliver_eq_self (h : outline.Proper) (hkey : key ∈ outline.keys)
    (hcut : key.ident ∈ (outline.deliver key).cut ↔ key.ident ∈ outline.cut) :
    outline.deliver key = outline := by
  have hkeys : (outline.deliver key).keys = outline.keys := h.sorted.put_self hkey
  have hsame : (outline.deliver key).cut = outline.cut := by
    ext x
    by_cases hx : x = key.ident
    · rw [hx, hcut]
    · exact mem_cut_deliver hx
  exact congrArg₂ Outline.mk hkeys hsame

theorem deliver_eq_self_iff (h : outline.Proper) (hkey : key ∈ outline.keys) :
    outline.deliver key = outline ↔
      (key.ident ∈ outline.cut ↔ ∃ p, key.issuer = some p ∧ Hangs outline.up key.ident p) := by
  have hcut : key.ident ∈ (outline.deliver key).cut ↔
      ∃ p, key.issuer = some p ∧ Hangs outline.up key.ident p := by
    simp [deliver, h.sorted.put_self hkey]
  constructor
  · intro hself
    rwa [hself] at hcut
  · intro hstill
    exact deliver_eq_self h hkey (hcut.trans hstill.symm)

/-- Whether a key is cut is settled when it is delivered. -/
theorem mem_cut_foldl_deliver (hx : ∀ key ∈ batch, x ≠ key.ident) :
    x ∈ (batch.foldl deliver outline).cut ↔ x ∈ outline.cut := by
  induction batch generalizing outline with
  | nil => rfl
  | cons key batch ih =>
    obtain ⟨hkey, hbatch⟩ := List.forall_mem_cons.mp hx
    exact (ih hbatch).trans (mem_cut_deliver hkey)

/-- If the same keys are cut after a batch has been delivered again, no single delivery has made a
difference. -/
theorem deliver_eq_self_of_foldl (h : outline.Proper) (hkeys : ∀ key ∈ batch, key ∈ outline.keys)
    (hnodup : (batch.map Key.ident).Nodup)
    (hcut : (batch.foldl deliver outline).cut = outline.cut) :
    ∀ key ∈ batch, outline.deliver key = outline := by
  induction batch with
  | nil => simp
  | cons key batch ih =>
    obtain ⟨hkey, hkeys⟩ := List.forall_mem_cons.mp hkeys
    obtain ⟨hfresh, hnodup⟩ := List.nodup_cons.mp hnodup
    have hlater : ∀ other ∈ batch, key.ident ≠ other.ident := fun other hother heq =>
      hfresh (List.mem_map.mpr ⟨other, hother, heq.symm⟩)
    have hself : outline.deliver key = outline := by
      refine deliver_eq_self h hkey ?_
      rw [← mem_cut_foldl_deliver hlater, ← List.foldl_cons, hcut]
    rw [List.foldl_cons, hself] at hcut
    exact List.forall_mem_cons.mpr ⟨hself, ih hkeys hnodup hcut⟩

end Outline

namespace Forest

variable {forest : Forest} {outline other : Outline} {journal before after : Journal Forest}
  {placing : Placing} {key : Key} {parent : Option Fingerprint} {f : Fingerprint} {row : ℕ}

/-! ### Spellings -/

/-- Every key is recorded under its parent in the spelling in which it names it. -/
def Spelled (forest : Forest) : Prop :=
  ∀ x p, forest.parents.value? x = some (some p) →
    ∀ key ∈ forest.under (some p.ident), key.ident = x → key.cleanIssuer = some p

theorem Spelled.of_sameRows {before after : Forest} (h : before.Spelled)
    (hsame : SameRows after before) : after.Spelled := by
  intro x p
  rw [hsame.parents_eq, under_congr hsame.topLevel_eq hsame.children_eq]
  exact h x p

/-- A key that gets a row, or another one's, names its parent as it is recorded. -/
theorem Spelled.put {before after : Forest} (h : before.Spelled)
    (hparents : after.parents = before.parents.put key.fingerprint parent)
    (hunder : ∀ {o child}, child ∈ after.under o ↔
      child = key ∧ o = parent.map Fingerprint.ident ∨ child ∈ before.under o ∧ child.ident ≠ key.ident)
    (hparent : before.Welcomes parent key) : after.Spelled := by
  intro x p hvalue child hchild hident
  rw [hparents, Table.value?_put] at hvalue
  rcases hunder.mp hchild with ⟨rfl, -⟩ | ⟨hchild, hne⟩
  · rw [if_pos hident, Option.some.injEq] at hvalue
    exact (hparent p hvalue).2
  · rw [if_neg fun heq => hne (hident.trans heq.symm)] at hvalue
    exact h x p hvalue child hchild hident

theorem Step.spelled (hstep : Step before after) (h : before.state.Spelled) :
    after.state.Spelled := by
  cases hstep with
  | log | remark | refresh => exact h
  | mark hsame => exact h.of_sameRows hsame
  | replace hstate hslot hattached hparent =>
    refine h.put (parents_putRow _ _ _ _) (hstate.mem_under_putRow hslot fun o ho => ?_) hparent
    rw [placed_of_taken hstate hslot] at ho
    exact (Option.some.inj ho).symm
  | insert hstate hloose hnamed hslot hparent =>
    refine h.put (parents_putRow _ _ _ _) (fun {o child} => ?_) hparent
    refine (listed_bringIn hstate hslot fun o ho => ?_).mem_under
    rw [hstate.vacant _ hloose] at ho
    contradiction
  | @remove loose f index drop hstate hindex hattached hsame =>
    refine Spelled.of_sameRows (fun x p hvalue child hchild hident => ?_) hsame
    rw [parents_takeOut, Table.value?_erase] at hvalue
    have hchild' := ((unlisted_takeOut hstate hindex).mem_under.mp hchild)
    rw [if_neg fun heq => hchild'.2 (hident.trans heq.symm)] at hvalue
    exact h x p hvalue child hchild'.1 hident
  | reset => simp [Spelled, clear]

theorem spelled_run (operations : List Operation) :
    (Operation.run operations : Journal Forest).state.Spelled :=
  run_induction (by simp [Spelled, KeyList.fresh, Journal.ofState, KeyList.empty]) Step.spelled
    operations

/-! ### Placing a key again -/

section Again

variable (h : forest.Settled outline)
include h

theorem Settled.erase_waiting (hf : outline.Has f.ident) :
    forest.waiting.erase f = forest.waiting := by
  refine Table.erase_eq_self ?_
  have hnobody := Shows.awaiting_eq_nil h hf
  rw [awaiting] at hnobody
  cases hvalue : forest.waiting.value? f.ident with
  | none => rfl
  | some keys =>
    obtain ⟨g, hmem, -⟩ := Table.exists_mem_of_value? hvalue
    rw [hvalue] at hnobody
    exact absurd hnobody (h.waits.nonempty _ hmem)

/-- A key that waits may be told to wait again. -/
theorem Settled.await_self (hkey : key ∈ forest.awaiting f.ident) : forest.await f key = forest := by
  have hput : (forest.waitingFor f).put key = forest.awaiting f.ident := by
    rw [waitingFor_eq]
    exact (h.waits.ascends _).put_self hkey
  have hvalue : forest.waiting.value? f.ident = some (forest.awaiting f.ident) := by
    rw [awaiting] at hkey ⊢
    cases hvalue : forest.waiting.value? f.ident with
    | none => simp [hvalue] at hkey
    | some keys => rfl
  rw [await, hput, h.waits.sorted.put_self hvalue]

theorem Settled.forgetOrphan_self (hf : outline.Has f.ident) (g : Fingerprint) :
    forest.forgetOrphan f g = forest := by
  have hnobody : (forest.waitingFor f).erase g = [] := by
    rw [waitingFor_eq, Shows.awaiting_eq_nil h hf]
    rfl
  rw [forgetOrphan, hnobody, h.erase_waiting hf]
  rfl

variable (hproper : outline.Proper) (hkey : key ∈ outline.keys)
include hproper hkey

theorem Settled.gathers_self : forest.Gathers outline [] key where
  proper := hproper
  shows := by
    have hhas : key.ident ∈ { x | outline.Has x } := ⟨key, hkey, rfl⟩
    rw [Set.insert_eq_of_mem hhas]
    exact h
  mem_orphans := by
    intro orphan
    have hhas : outline.Has key.ident := ⟨key, hkey, rfl⟩
    simp [hhas]

theorem Settled.formerIssuer_self : forest.formerIssuer key = key.cleanIssuer := by
  rw [formerIssuer, h.lookup (by rwa [h.stored_eq hproper.sorted]), Option.bind_some]

omit hproper in
/-- A key waits already where its target says. -/
theorem Settled.rewait_self :
    forest.rewait key.cleanIssuer (forest.targetOf key) key = forest := by
  have hawaited {x : Ident} := @awaited_targetOf forest key x
  have hthere {x : Ident} : outline.Has x ↔ ¬ (forest.placed x = none ∧ ¬ forest.IsMoving x) := by
    rw [Shows.has_iff h, Option.isSome_iff_ne_none]
    tauto
  cases htarget : forest.targetOf key with
  | orphan awaited =>
    obtain ⟨hident, hnot⟩ := (@hawaited awaited.ident).mp (by rw [htarget]; rfl)
    obtain ⟨issuer, hissuer, hsame⟩ := Option.map_eq_some_iff.mp hident
    have hleft : (key.cleanIssuer.filter fun issuer =>
        !(Target.orphan awaited).isOrphanOf issuer) = none := by
      simp [hissuer, Option.filter, Target.isOrphanOf, hsame]
    rw [rewait, hleft]
    exact h.await_self (h.waits.awaiting_iff.mpr ⟨hkey, hident, fun hhas => hthere.mp hhas hnot⟩)
  | topLevel | under g =>
    cases hissuer : key.cleanIssuer with
    | none => rfl
    | some issuer =>
      have hhas : outline.Has issuer.ident := hthere.mpr fun hnot => by
        have hwaits := hawaited.mpr ⟨Key.issuer_of_cleanIssuer hissuer, hnot⟩
        rw [htarget] at hwaits
        contradiction
      exact h.forgetOrphan_self hhas key.fingerprint

/-- The target of a key that is not to be moved is what is recorded about it. -/
theorem Settled.parent_target_self (hspelled : forest.Spelled)
    (hself : outline.deliver key = outline) :
    forest.parents.value? key.ident = some (forest.targetOf key).parent := by
  have hup := (h.gathers_self hproper hkey).up_self (hproper.named key hkey)
  rw [hself] at hup
  have hplaced := hup
  rw [← h.placed_eq] at hplaced
  obtain ⟨parent, hvalue, hident⟩ := Option.map_eq_some_iff.mp hplaced
  rw [hvalue]
  cases hparent : (forest.targetOf key).parent with
  | none =>
    rw [hparent, Option.map_none, Option.map_eq_none_iff] at hident
    rw [hident]
  | some g =>
    rw [hparent] at hident hup
    obtain ⟨p, rfl, hsame⟩ := Option.map_eq_some_iff.mp hident
    have hmem : key ∈ forest.under (some p.ident) := h.mem_under.mpr ⟨hkey, by rw [hup, hsame]; rfl⟩
    have hissuer := hspelled key.ident p hvalue key hmem rfl
    rw [cleanIssuer_of_parent_targetOf hparent] at hissuer
    rw [hissuer]

end Again

/-- Putting a key in its own row again leaves the forest as it is. -/
theorem putRow_self {loose : Set Ident} (h : forest.Arranged loose)
    (hkey : key ∈ forest.rows parent) (hstored : key ∈ forest.stored)
    (hslot : (forest.rows parent).search key.fingerprint = .taken row)
    (hvalue : forest.parents.value? key.ident = some parent) :
    forest.putRow parent key (.taken row) = forest := by
  have hrows : (forest.rows parent).putAt key (.taken row) = forest.rows parent := by
    have hsorted := h.rows_sorted (parent.map Fingerprint.ident)
    rw [← rows_eq] at hsorted
    have hput := hsorted.put_self hkey
    rwa [Bucket.put, hslot] at hput
  have hset : forest.setRows parent (forest.rows parent) = forest := by
    cases parent with
    | none => rfl
    | some f =>
      have hnonempty : (forest.rows (some f)).isEmpty = false := by
        rw [← Bool.not_eq_true, List.isEmpty_iff]
        exact List.ne_nil_of_mem hkey
      have hchildren : forest.children.value? f.ident = some (forest.rows (some f)) := by
        rw [rows_eq, Option.map_some, under] at hkey ⊢
        cases hvalue : forest.children.value? f.ident with
        | none => simp [hvalue] at hkey
        | some keys => rfl
      rw [setRows, hnonempty, h.children_sorted.put_self hchildren]
      rfl
  rw [putRow, hrows, hset, store, h.stored_sorted.put_self hstored, h.parents_sorted.put_self hvalue]

/-! ### Nothing but refreshed rows -/

/-- From one journal to the next nothing has changed, and nothing is told but that rows have. -/
structure Refreshes (before after : Journal Forest) : Prop where
  state_eq : after.state = before.state
  told : ∃ told, after.changes = before.changes ++ told ∧
    ∀ change ∈ told, change.isDataChanged = true

namespace Refreshes

theorem refl (journal : Journal Forest) : Refreshes journal journal := ⟨rfl, [], by simp⟩

theorem log (h : Refreshes before after) (event : LogEvent) : Refreshes before (after.log event) :=
  ⟨h.state_eq, by rw [Journal.changes_log]; exact h.told⟩

theorem dataChanged (h : Refreshes before after) (parent : Option Fingerprint) (row : ℕ) :
    Refreshes before (after.announce (.dataChanged parent row)) := by
  obtain ⟨told, hchanges, htold⟩ := h.told
  refine ⟨h.state_eq, told ++ [.dataChanged parent row], ?_, fun change hchange => ?_⟩
  · rw [Journal.changes_announce, hchanges, List.append_assoc]
  · rcases List.mem_append.mp hchange with hchange | hchange
    · exact htold change hchange
    · rw [List.mem_singleton.mp hchange]
      rfl

theorem trans (h : Refreshes before journal) (h' : Refreshes journal after) :
    Refreshes before after := by
  obtain ⟨told, hchanges, htold⟩ := h.told
  obtain ⟨told', hchanges', htold'⟩ := h'.told
  refine ⟨h'.state_eq.trans h.state_eq, told ++ told', ?_, List.forall_mem_append.mpr ⟨htold, htold'⟩⟩
  rw [hchanges', hchanges, List.append_assoc]

end Refreshes

theorem refreshes_announceData (journal : Journal Forest) (f : Fingerprint) :
    Refreshes journal (announceData journal f) := by
  unfold announceData
  split
  · exact (Refreshes.refl journal).dataChanged _ _
  · exact .refl journal

theorem refreshes_foldl_announceData (journal : Journal Forest) (fingerprints : List Fingerprint) :
    Refreshes journal (fingerprints.foldl announceData journal) := by
  induction fingerprints generalizing journal with
  | nil => exact .refl journal
  | cons f fingerprints ih => exact (refreshes_announceData journal f).trans (ih _)

/-- Nobody sets out when a key is placed that is there already. -/
theorem started_self (hstate : placing.journal.state.Settled outline) (hkey : key ∈ outline.keys) :
    started placing key = placing := by
  have hhas : outline.Has key.fingerprint.ident := ⟨key, hkey, rfl⟩
  rw [started_of_nobody (Shows.awaiting_eq_nil hstate hhas), Journal.update_eq_self]
  rw [hstate.erase_waiting hhas, hstate.inTransit_eq]
  exact congrArg (fun marks => { placing.journal.state with inTransit := marks })
    hstate.inTransit_eq.symm

/-- A key that stays where it is only has its row refreshed. -/
theorem place_self (hstate : placing.journal.state.Settled outline) (hproper : outline.Proper)
    (hkey : key ∈ outline.keys) (hspelled : placing.journal.state.Spelled)
    (hself : outline.deliver key = outline) :
    ∃ row, (place placing key .delivered).journal = placing.journal.announce
      (.dataChanged (placing.journal.state.targetOf key).parent row) := by
  have hvalue := hstate.parent_target_self hproper hkey hspelled hself
  have hget : placing.journal.state.parents.get? key.fingerprint =
      some (placing.journal.state.targetOf key).parent := (Table.get?_eq _ _).trans hvalue
  have hplaced := placed_of_get? hget
  have hmem : key ∈ placing.journal.state.rows (placing.journal.state.targetOf key).parent := by
    rw [rows_eq, hstate.mem_under, ← hstate.placed_eq]
    exact ⟨hkey, hplaced⟩
  have hstored : key ∈ placing.journal.state.stored := by rwa [hstate.stored_eq hproper.sorted]
  rw [journal_place, if_neg (by simp), listed, started_self hstate hkey,
    hstate.formerIssuer_self hproper hkey, relist, leaveOldPlace, hget]
  dsimp only
  rw [if_pos (sameParent_self _), Journal.update_eq_self (hstate.rewait_self hkey), listRow]
  cases hslot : (placing.journal.state.rows (placing.journal.state.targetOf key).parent).search
      key.fingerprint with
  | taken row =>
    have hput := putRow_self hstate.arranged hmem hstored hslot hvalue
    refine ⟨row, ?_⟩
    dsimp only
    rw [Journal.update_eq_self hput]
  | free row => exact absurd hplaced (not_placed_of_free hstate.arranged hslot)

theorem refreshes_deliver (hstate : placing.journal.state.Settled outline)
    (hproper : outline.Proper) (hkey : key ∈ outline.keys)
    (hspelled : placing.journal.state.Spelled) (hself : outline.deliver key = outline) :
    Refreshes placing.journal (deliver placing key).journal := by
  obtain ⟨row, hjournal⟩ := @place_self outline { placing with queue := [] } key hstate hproper hkey
    hspelled hself
  have hqueue : (place { placing with queue := [] } key .delivered).queue = [] := by
    rw [queue_place, @started_self outline { placing with queue := [] } key hstate hkey]
  rw [deliver_eq, drain_of_queue_eq_nil hqueue, hjournal]
  exact (Refreshes.refl _).dataChanged _ _

theorem refreshes_foldl_deliver {keys : List Key} (hstate : placing.journal.state.Settled outline)
    (hproper : outline.Proper) (hspelled : placing.journal.state.Spelled)
    (hkeys : ∀ key ∈ keys, key ∈ outline.keys) (hself : ∀ key ∈ keys, outline.deliver key = outline) :
    Refreshes placing.journal (keys.foldl deliver placing).journal := by
  induction keys generalizing placing with
  | nil => exact .refl _
  | cons key keys ih =>
    obtain ⟨hkey, hkeys⟩ := List.forall_mem_cons.mp hkeys
    obtain ⟨hkeyself, hself⟩ := List.forall_mem_cons.mp hself
    have hdeliver := refreshes_deliver hstate hproper hkey hspelled hkeyself
    refine hdeliver.trans (ih ?_ ?_ hkeys hself)
    · rwa [hdeliver.state_eq]
    · rwa [hdeliver.state_eq]

theorem refreshes_merge (hstate : journal.state.Settled outline) (hproper : outline.Proper)
    (hspelled : journal.state.Spelled) {keys : List Key}
    (hkeys : ∀ key ∈ Bucket.ofBatch keys, key ∈ outline.keys)
    (hself : ∀ key ∈ Bucket.ofBatch keys, outline.deliver key = outline) :
    Refreshes journal (merge journal (Bucket.ofBatch keys)).1 := by
  have hperm := Bucket.issuersFirst_perm (Bucket.ofBatch keys)
  have hdelivered : Refreshes journal (delivered journal keys).journal :=
    @refreshes_foldl_deliver outline ⟨journal, [], []⟩ _ hstate hproper hspelled
      (fun key hkey => hkeys key (hperm.mem_iff.mp hkey))
      fun key hkey => hself key (hperm.mem_iff.mp hkey)
  have htold := hdelivered.trans (refreshes_foldl_announceData _
    (delivered journal keys).touched.fingerprints)
  rw [merge_ofBatch, check_sound (htold.state_eq ▸ hstate) hproper]
  exact htold

theorem refreshes_add (hstate : journal.state.Settled outline) (hproper : outline.Proper)
    (hspelled : journal.state.Spelled) {keys : List Key}
    (hkeys : ∀ key ∈ Bucket.ofBatch keys, key ∈ outline.keys)
    (hself : ∀ key ∈ Bucket.ofBatch keys, outline.deliver key = outline) :
    Refreshes journal (KeyList.add journal keys).1 := by
  rcases KeyList.add_cases journal keys with ⟨-, hadd⟩ | hadd
  · rw [hadd]
    exact .refl _
  · rw [hadd]
    exact ((Refreshes.refl _).log _).trans
      (@refreshes_merge outline (journal.log _) hstate hproper hspelled keys hkeys hself)

/-! ### Adding keys twice -/

/-- To add the keys twice is as good as adding them once: the second time the forest stays as it is,
the keys are found where they were, and nothing is told but that rows have changed. -/
structure Repeatable (journal : Journal Forest) (keys : List Key) : Prop where
  refreshes : Refreshes (KeyList.add journal keys).1
    (KeyList.add (KeyList.add journal keys).1 keys).1
  indexes_eq : (KeyList.add (KeyList.add journal keys).1 keys).2 = (KeyList.add journal keys).2

theorem indexes_add (journal : Journal Forest) (keys : List Key) :
    (KeyList.add journal keys).2 = (Bucket.ofBatch keys).filterMap fun key =>
      (KeyList.add journal keys).1.state.placeOf key.fingerprint := by
  rcases KeyList.add_cases journal keys with ⟨hempty, hadd⟩ | hadd
  · rw [hadd, hempty]
    rfl
  · rw [hadd]
    rfl

/-- A forest at rest shows one outline only. -/
theorem Settled.outline_unique (h : forest.Settled outline) (h' : forest.Settled other)
    (hproper : outline.Proper) (hproper' : other.Proper) : outline = other := by
  have hkeys : outline.keys = other.keys :=
    (h.stored_eq hproper.sorted).symm.trans (h'.stored_eq hproper'.sorted)
  have hup : outline.up = other.up := h.placed_eq.symm.trans h'.placed_eq
  have hcut {a b : Outline} (ha : a.Proper) (hb : b.Proper) (hkeys : a.keys = b.keys)
      (hup : a.up = b.up) {x : Ident} (hx : x ∈ a.cut) : x ∈ b.cut := by
    obtain ⟨key, hkey, rfl, p, hp, hhas⟩ := ha.cut_issued x hx
    have htop : b.up key.ident = some none := by
      rw [← hup]
      exact (Outline.up_eq_top ha.sorted hkey).mpr (.inl hx)
    refine ((Outline.up_eq_top hb.sorted (hkeys ▸ hkey)).mp htop).resolve_right fun hnone => ?_
    refine hnone p hp ?_
    rwa [Outline.Has, ← hkeys]
  have hsame : outline.cut = other.cut :=
    Set.ext fun x => ⟨hcut hproper hproper' hkeys hup, hcut hproper' hproper hkeys.symm hup.symm⟩
  cases outline
  exact congrArg₂ Outline.mk hkeys hsame

theorem Settled.isWithin_iff (h : forest.Settled outline) {root : Fingerprint} :
    forest.isWithin f root = true ↔ Hangs outline.up root.ident f.ident := by
  rw [Forest.isWithin_iff h.arranged.acyclic, h.placed_eq]

/-- The key is where it belongs: under its issuer, unless the issuer is not there, or is listed below
the key itself. -/
def InPlace (forest : Forest) (key : Key) : Prop :=
  ∀ issuer, key.cleanIssuer = some issuer → forest.stored.has issuer = true →
    key ∈ forest.rows (some issuer) ∨ forest.isWithin issuer key.fingerprint = true

/-- A key may be delivered again if it is where it belongs. -/
theorem Settled.deliver_eq_self_iff (h : forest.Settled outline) (hproper : outline.Proper)
    (hkey : key ∈ outline.keys) : outline.deliver key = outline ↔ forest.InPlace key := by
  have hissuer_of {p : Ident} (hp : key.issuer = some p) :
      ∃ issuer, key.cleanIssuer = some issuer ∧ issuer.ident = p := Option.map_eq_some_iff.mp hp
  rw [Outline.deliver_eq_self_iff hproper hkey]
  constructor
  · intro hstill issuer hissuer hhas
    rw [h.mem_rows_issuer_iff hproper hkey hissuer (h.has_stored.mp hhas), h.isWithin_iff]
    by_cases hcut : key.ident ∈ outline.cut
    · obtain ⟨p, hp, hhangs⟩ := hstill.mp hcut
      obtain ⟨same, hsame, rfl⟩ := hissuer_of hp
      rw [hissuer, Option.some.injEq] at hsame
      exact .inr (hsame ▸ hhangs)
    · exact .inl hcut
  · intro hall
    constructor
    · intro hcut
      obtain ⟨same, hsame, hident, p, hp, hhas⟩ := hproper.cut_issued _ hcut
      obtain rfl : same = key := hproper.sorted.eq_of_ident hsame hkey hident
      obtain ⟨issuer, hissuer, rfl⟩ := hissuer_of hp
      have hplace := hall issuer hissuer (h.has_stored.mpr hhas)
      rw [h.mem_rows_issuer_iff hproper hkey hissuer hhas, h.isWithin_iff] at hplace
      exact ⟨_, hp, hplace.resolve_left (not_not.mpr hcut)⟩
    · rintro ⟨p, hp, hhangs⟩
      by_contra hcut
      have hhas : outline.Has p := by
        rcases hhangs.eq_or_child with heq | ⟨q, hq, -⟩
        · exact absurd heq (Key.issuer_ne hp).1
        · exact Outline.isSome_up.mp (by simp [hq])
      have hup := (Outline.up_eq_under hproper.sorted hkey).mpr ⟨hp, hhas, hcut⟩
      obtain ⟨n, hn⟩ := h.arranged.acyclic key.ident
      rw [h.placed_eq] at hn
      exact hn.not_hangs_child hup hhangs

/-- A batch may be added twice exactly if, once it has been added, every key of it is where it
belongs. -/
theorem repeatable_iff (h : journal.Faultless) (hstate : journal.state.Settled outline)
    (hproper : outline.Proper) (hspelled : journal.state.Spelled) (keys : List Key) :
    Repeatable journal keys ↔
      ∀ key ∈ Bucket.ofBatch keys, (KeyList.add journal keys).1.state.InPlace key := by
  obtain ⟨hfirst, hsettled⟩ := add_spec h hstate hproper keys
  have hproper' := hproper.add keys
  have hspelled' := Path.keeps Step.spelled (path_add h hstate hproper keys) hspelled
  have hmem : ∀ key ∈ Bucket.ofBatch keys, key ∈ (outline.add keys).keys :=
    fun key hkey => (Outline.mem_add hproper).mpr (.inl hkey)
  have hself (key : Key) (hkey : key ∈ Bucket.ofBatch keys) :=
    hsettled.deliver_eq_self_iff hproper' (hmem key hkey)
  refine Iff.trans ⟨fun hrepeat => ?_, fun hall => ?_⟩ (forall₂_congr hself)
  · have hagain := (add_spec hfirst hsettled hproper' keys).2
    rw [hrepeat.refreshes.state_eq] at hagain
    have hsame := hsettled.outline_unique hagain hproper' (hproper'.add keys)
    have hperm := Bucket.issuersFirst_perm (Bucket.ofBatch keys)
    intro key hkey
    refine Outline.deliver_eq_self_of_foldl hproper'
      (fun other hother => hmem other (hperm.mem_iff.mp hother)) ?_ (congrArg Outline.cut hsame).symm
      key (hperm.mem_iff.mpr hkey)
    exact (hperm.map Key.ident).nodup_iff.mpr (Bucket.isSorted_ofBatch keys).nodup_idents
  · have hrefreshes := refreshes_add hsettled hproper' hspelled' hmem hall
    refine ⟨hrefreshes, ?_⟩
    rw [indexes_add, hrefreshes.state_eq, ← indexes_add]

/-- After any run, adding the same keys twice is as good as adding them once exactly if the first time
leaves every one of them where it belongs. -/
theorem run_repeatable_iff (operations : List Operation) (keys : List Key) :
    Repeatable (Operation.run operations) keys ↔ ∀ key ∈ Bucket.ofBatch keys,
      (KeyList.add (Operation.run operations : Journal Forest) keys).1.state.InPlace key := by
  obtain ⟨h, hstate⟩ := run_spec operations
  exact repeatable_iff h hstate (Outline.proper_afterRun operations) (spelled_run operations) keys

/-- As long as no certificate changes its issuer, every batch may be added twice. -/
theorem repeatable_of_steady {operations : List Operation} {keys : List Key}
    (hsteady : Operation.Steady (operations ++ [.add keys])) :
    Repeatable (Operation.run operations) keys := by
  obtain ⟨h, hstate⟩ := run_spec operations
  have hproper := Outline.proper_afterRun operations
  rw [repeatable_iff h hstate hproper (spelled_run operations)]
  intro key hkey issuer hissuer hhas
  have hsettled := (add_spec h hstate hproper keys).2
  have hmem : key ∈ ((Outline.afterRun operations).add keys).keys :=
    (Outline.mem_add hproper).mpr (.inl hkey)
  have hsteady' : ((Outline.afterRun operations).add keys).Steady := by
    have hsteady' := Outline.steady_afterRun hsteady
    rwa [Outline.afterRun_concat] at hsteady'
  rw [hsettled.mem_rows_issuer_iff (hproper.add keys) hmem hissuer (hsettled.has_stored.mp hhas),
    hsettled.isWithin_iff]
  by_cases hcut : key.ident ∈ ((Outline.afterRun operations).add keys).cut
  · exact .inr (hsteady'.hangs _ hcut key hmem rfl _ (Key.issuer_of_cleanIssuer hissuer))
  · exact .inl hcut

/-- A names B, B names C, and C names A. When A is delivered last it is cut, but then C becomes a
root in the same batch, so that A could be listed under B. It is when the batch is added again. -/
theorem not_repeatable_of_opened_cycle :
    let first := (Key.ofFingerprint (.ofText "A")).issuedBy (.ofText "B")
    let second := (Key.ofFingerprint (.ofText "B")).issuedBy (.ofText "C")
    let third := (Key.ofFingerprint (.ofText "C")).issuedBy (.ofText "A")
    ¬ Repeatable (Operation.run [.add [second], .add [third]]) [first, third.asRoot] := by
  intro first second third hrepeat
  have hbatch : Bucket.ofBatch [first, third.asRoot] = [first, third.asRoot] :=
    Bucket.ofBatch_of_isSorted (Bucket.isSorted_eq_true.mp (by decide +kernel)) (by decide +kernel)
  have hadd (journal : Journal Forest) : (KeyList.add journal [first, third.asRoot]).1 =
      (merge (journal.log (.addingKeys 2)) [first, third.asRoot]).1 := by
    rw [KeyList.add, Journal.addBy, hbatch]
    rfl
  have htop := congrArg Forest.topLevel hrepeat.refreshes.state_eq
  rw [hadd, hadd] at htop
  revert htop
  decide +kernel

end Forest

end KeyForest
