import KeyForest.Proofs.Forest.Rows
import KeyForest.Proofs.Outline

/-!
# Delivering a key

A forest `Shows` an outline when every key stands where the outline has it, except for those that
are moving. Delivering a key puts the keys that wait for it on the move (`promoteWaiting_spec`),
lists the key (`place_delivered`), and lists the moving keys under it one by one
(`place_promoted`), until the forest shows the outline with the key delivered (`deliver_spec`).
-/
namespace KeyForest.Forest

open Placements

variable {forest : Forest} {outline : Outline} {moving orphans : List Key} {there : Set Ident}
  {key orphan : Key} {f : Fingerprint} {x p : Ident} {placing : Placing}

structure Shows (forest : Forest) (outline : Outline) (moving : List Key) (there : Set Ident) :
    Prop where
  arranged : forest.Arranged { x | ∃ key ∈ moving, key.ident = x }
  isMoving_iff : ∀ {x}, forest.IsMoving x ↔ ∃ key ∈ moving, key.ident = x
  placed_eq : ∀ {x}, (∀ key ∈ moving, key.ident ≠ x) → forest.placed x = outline.up x
  mem_keys : ∀ {key}, key ∈ outline.keys ↔ (∃ o, key ∈ forest.under o) ∨ key ∈ moving
  waits : forest.Waits outline.keys there

/-- A forest at rest: no key is moving, and only keys whose issuers are not there wait. -/
def Settled (forest : Forest) (outline : Outline) : Prop :=
  forest.Shows outline [] { x | outline.Has x }

theorem settled_empty : Settled {} {} := by
  refine ⟨?_, by simp [IsMoving, Table.idents], by simp [placed, Outline.up, Bucket.key?], ?_, ?_⟩
  · simpa using arranged_empty
  · intro key
    simp only [List.not_mem_nil, or_false, false_iff, not_exists]
    intro o
    cases o <;> simp [under]
  · simpa [Outline.Has] using waits_empty

namespace Shows

variable (h : forest.Shows outline moving there)
include h

theorem placed_of_moving (hkey : key ∈ moving) : forest.placed key.ident = none :=
  h.arranged.vacant _ ⟨key, hkey, rfl⟩

/-- Whoever has a place is not moving, and has the place that the outline gives it. -/
theorem up_of_placed {o : Option Ident} (hplaced : forest.placed x = some o) :
    (∀ key ∈ moving, key.ident ≠ x) ∧ outline.up x = some o := by
  have hrests : ∀ key ∈ moving, key.ident ≠ x := by
    rintro key hkey rfl
    rw [h.placed_of_moving hkey] at hplaced
    contradiction
  exact ⟨hrests, (h.placed_eq hrests).symm.trans hplaced⟩

/-- A key is there exactly if it has a place or is moving. -/
theorem has_iff : outline.Has x ↔ (forest.placed x).isSome ∨ forest.IsMoving x := by
  rw [h.isMoving_iff]
  constructor
  · rintro ⟨key, hkey, rfl⟩
    rcases h.mem_keys.mp hkey with ⟨o, ho⟩ | hmoving
    · exact .inl (by rw [h.arranged.placed_of_mem ho]; rfl)
    · exact .inr ⟨key, hmoving, rfl⟩
  · rintro (hx | ⟨key, hkey, rfl⟩)
    · obtain ⟨o, ho⟩ := Option.isSome_iff_exists.mp hx
      obtain ⟨key, hkey, rfl⟩ := (h.arranged.rowsMatch _ _).mp ho
      exact ⟨key, h.mem_keys.mpr (.inl ⟨o, hkey⟩), rfl⟩
    · exact ⟨key, h.mem_keys.mpr (.inr hkey), rfl⟩

end Shows

theorem Shows.mem_under_of_placed (h : forest.Shows outline moving there) {o : Option Ident}
    (hkey : key ∈ outline.keys) (hplaced : forest.placed key.ident = some o) :
    key ∈ forest.under o := by
  rcases h.mem_keys.mp hkey with ⟨o', hrow⟩ | hmoving
  · rw [h.arranged.placed_of_mem hrow] at hplaced
    cases hplaced
    exact hrow
  · rw [h.placed_of_moving hmoving] at hplaced
    contradiction

/-- A row holds the keys that the outline has there, except for those that are moving. -/
theorem Shows.mem_under (h : forest.Shows outline moving there) {o : Option Ident} :
    key ∈ forest.under o ↔ key ∈ outline.keys ∧ outline.up key.ident = some o ∧
      ∀ other ∈ moving, other.ident ≠ key.ident := by
  constructor
  · intro hkey
    obtain ⟨hrests, hup⟩ := h.up_of_placed (h.arranged.placed_of_mem hkey)
    exact ⟨h.mem_keys.mpr (.inl ⟨o, hkey⟩), hup, hrests⟩
  · rintro ⟨hkey, hup, hrests⟩
    exact h.mem_under_of_placed hkey ((h.placed_eq hrests).trans hup)

/-- Nobody waits for a key that is there. -/
theorem Shows.awaiting_eq_nil (h : forest.Shows outline moving { x | outline.Has x })
    (hx : outline.Has x) : forest.awaiting x = [] :=
  List.eq_nil_iff_forall_not_mem.mpr fun _ hchild => (h.waits.awaiting_iff.mp hchild).2.2 hx

/-- At rest every placed key can be reached, and the stored keys are those of the outline. -/
theorem Settled.attached_iff (h : forest.Settled outline) :
    Attached forest.placed x ↔ outline.Has x := by
  rw [Shows.has_iff h, h.isMoving_iff]
  simp only [List.not_mem_nil, false_and, exists_false, or_false]
  refine ⟨Attached.isSome, fun hx => ?_⟩
  exact (h.arranged.grounded x hx).resolve_right (by simp)

theorem Settled.placed_eq (h : forest.Settled outline) : forest.placed = outline.up :=
  funext fun _ => Shows.placed_eq h (by simp)

theorem Settled.stored_eq (h : forest.Settled outline) (hsorted : Bucket.IsSorted outline.keys) :
    forest.stored = outline.keys := by
  refine h.arranged.stored_sorted.ext hsorted fun key => ?_
  rw [h.arranged.stored_iff, h.mem_keys]
  simp only [List.not_mem_nil, or_false]
  refine exists_congr fun o => and_iff_left_of_imp fun hkey => ?_
  exact h.attached_iff.mpr ⟨key, h.mem_keys.mpr (.inl ⟨o, hkey⟩), rfl⟩

/-! ### Setting out -/

/-- The marks of moving keys and the table of waiting keys may change on their own. -/
theorem Shows.frame (h : forest.Shows outline moving there) {waiting : Table Bucket}
    {inTransit : Table Unit} {there' : Set Ident}
    (hmoving : ∀ {x}, x ∈ inTransit.idents ↔ ∃ key ∈ moving, key.ident = x)
    (hwaits : ({ forest with waiting := waiting } : Forest).Waits outline.keys there') :
    ({ forest with waiting := waiting, inTransit := inTransit } : Forest).Shows outline moving
      there' where
  arranged := h.arranged.frame rfl rfl rfl rfl
  isMoving_iff := hmoving
  placed_eq := h.placed_eq
  mem_keys := h.mem_keys.trans (or_congr_left (exists_under_congr rfl rfl))
  waits := hwaits.frame rfl

/-- When a key at the top level loses its row and is marked as moving, the rest is shown as before. -/
theorem Shows.setOut {after : Forest} (h : forest.Shows outline moving there)
    (hrow : orphan ∈ forest.under none) (hunlisted : Unlisted forest after orphan.ident)
    (harranged : after.Arranged (insert orphan.ident { x | ∃ key ∈ moving, key.ident = x })) :
    ({ after with inTransit := after.inTransit.put orphan.fingerprint () } : Forest).Shows outline
      (moving ++ [orphan]) there := by
  have hmem {x : Ident} : (∃ key ∈ moving ++ [orphan], key.ident = x) ↔
      x = orphan.ident ∨ ∃ key ∈ moving, key.ident = x := by
    simp only [List.mem_append, List.mem_singleton, or_and_right, exists_or, exists_eq_left]
    rw [or_comm, eq_comm]
  have hset : { x | ∃ key ∈ moving ++ [orphan], key.ident = x } =
      insert orphan.ident { x | ∃ key ∈ moving, key.ident = x } := Set.ext fun x => hmem
  have hmoving {x : Ident} : x ∈ (after.inTransit.put orphan.fingerprint ()).idents ↔
      ∃ key ∈ moving ++ [orphan], key.ident = x := by
    rw [Table.mem_idents_put, hunlisted.inTransit_eq, hmem, ← h.isMoving_iff, IsMoving]
  have hkeys {key : Key} : key ∈ outline.keys ↔
      (∃ o, key ∈ after.under o) ∨ key ∈ moving ++ [orphan] := by
    rw [h.mem_keys, List.mem_append, List.mem_singleton]
    simp only [hunlisted.mem_under]
    constructor
    · rintro (⟨o, ho⟩ | hkey)
      · by_cases hident : key.ident = orphan.ident
        · exact .inr (.inr (h.arranged.row_unique ho hrow hident).2)
        · exact .inl ⟨o, ho, hident⟩
      · exact .inr (.inl hkey)
    · rintro (⟨o, ho, -⟩ | hkey | rfl)
      · exact .inl ⟨o, ho⟩
      · exact .inr hkey
      · exact .inl ⟨none, hrow⟩
  exact
    { arranged := by rw [hset]; exact harranged.frame rfl rfl rfl rfl
      isMoving_iff := hmoving
      placed_eq := fun {x} hx => by
        change after.placed x = _
        rw [hunlisted.placed_eq, vacate, Function.update_of_ne (hx orphan (by simp)).symm]
        exact h.placed_eq fun key hkey => hx key (by simp [hkey])
      mem_keys := hkeys.trans (or_congr_left (exists_under_congr rfl rfl))
      waits := h.waits.frame hunlisted.waiting_eq }

/-- A key at the top level that leaves its row is moving. -/
theorem promote_spec (h : placing.journal.Faultless)
    (hshows : placing.journal.state.Shows outline moving there) (horphan : orphan ∈ outline.keys)
    (hplaced : placing.journal.state.placed orphan.ident = some none) :
    (promote placing orphan).journal.Faultless ∧
      (promote placing orphan).journal.state.Shows outline (moving ++ [orphan]) there ∧
      (promote placing orphan).queue = placing.queue ++ [(orphan, .promoted)] := by
  have harranged := hshows.arranged
  have hrow := hshows.mem_under_of_placed horphan hplaced
  obtain ⟨index, hindex, hparent⟩ := harranged.exists_placeOf (f := orphan.fingerprint) hplaced
  have hannounced : (placing.journal.announce (.aboutToMove index.parent index.row)).Faultless :=
    h.announce harranged.consistent trivial
  obtain ⟨hkey, hfaultless, hafter, hunlisted⟩ :=
    unlistRow_spec hannounced harranged hrow (.top hplaced) rfl
  have hnone : index.parent.isNone = true := by
    rw [Option.isNone_iff_eq_none]
    exact Option.map_eq_none_iff.mp hparent
  unfold promote
  rw [hindex]
  dsimp only
  rw [Journal.check_of_holds hnone, hkey]
  dsimp only
  exact ⟨hfaultless.update _, hshows.setOut hrow hunlisted hafter, rfl⟩

/-- A key that has not set out yet stands where the outline has it. -/
theorem Shows.placed_of_nodup (h : forest.Shows outline moving there)
    (hnodup : ((moving ++ orphan :: orphans).map Key.ident).Nodup) :
    forest.placed orphan.ident = outline.up orphan.ident := by
  refine h.placed_eq fun key hkey hident => ?_
  rw [List.map_append, List.nodup_append] at hnodup
  exact hnodup.2.2 _ (List.mem_map_of_mem hkey) _ (List.mem_map_of_mem List.mem_cons_self) hident

/-- Keys at the top level set out one after the other. -/
theorem foldl_promote_spec (h : placing.journal.Faultless)
    (hshows : placing.journal.state.Shows outline moving there)
    (horphans : ∀ orphan ∈ orphans, orphan ∈ outline.keys ∧ outline.up orphan.ident = some none)
    (hnodup : ((moving ++ orphans).map Key.ident).Nodup) :
    (orphans.foldl promote placing).journal.Faultless ∧
      (orphans.foldl promote placing).journal.state.Shows outline (moving ++ orphans) there ∧
      (orphans.foldl promote placing).queue =
        placing.queue ++ orphans.map fun orphan => (orphan, .promoted) := by
  induction orphans generalizing placing moving with
  | nil => exact ⟨h, by rwa [List.append_nil], by simp⟩
  | cons orphan orphans ih =>
    obtain ⟨⟨horphan, hup⟩, horphans⟩ := List.forall_mem_cons.mp horphans
    obtain ⟨hfaultless, hshows', hqueue⟩ :=
      promote_spec h hshows horphan ((hshows.placed_of_nodup hnodup).trans hup)
    rw [← List.singleton_append, ← List.append_assoc] at hnodup ⊢
    obtain ⟨hfaultless', hshows'', hqueue'⟩ := ih hfaultless hshows' horphans hnodup
    refine ⟨hfaultless', hshows'', ?_⟩
    rw [List.singleton_append, List.foldl_cons, hqueue', hqueue]
    simp

/-- The keys that wait for a key set out. -/
theorem promoteWaiting_spec (h : placing.journal.Faultless)
    (hshows : placing.journal.state.Shows outline moving there)
    (hnodup : (moving.map Key.ident).Nodup)
    (horphans : ∀ orphan ∈ placing.journal.state.awaiting f.ident,
      outline.up orphan.ident = some none ∧ ∀ key ∈ moving, key.ident ≠ orphan.ident) :
    (promoteWaiting placing f).journal.Faultless ∧
      (promoteWaiting placing f).journal.state.Shows outline
        (moving ++ placing.journal.state.awaiting f.ident) (insert f.ident there) ∧
      (promoteWaiting placing f).queue = placing.queue ++
        (placing.journal.state.awaiting f.ident).map fun orphan => (orphan, .promoted) := by
  unfold promoteWaiting
  dsimp only
  rw [waitingFor_eq]
  have hforgot : (placing.journal.update fun forest =>
      { forest with waiting := forest.waiting.erase f }).Faultless := h.update _
  refine foldl_promote_spec (by exact hforgot)
    (hshows.frame hshows.isMoving_iff (hshows.waits.arrive f)) (fun orphan horphan => ?_) ?_
  · exact ⟨(hshows.waits.awaiting_iff.mp horphan).1, (horphans orphan horphan).1⟩
  · rw [List.map_append, List.nodup_append]
    refine ⟨hnodup, (hshows.waits.ascends _).nodup_idents, fun x hx y hy => ?_⟩
    obtain ⟨key, hkey, rfl⟩ := List.mem_map.mp hx
    obtain ⟨orphan, horphan, rfl⟩ := List.mem_map.mp hy
    exact (horphans orphan horphan).2 key hkey

/-! ### Targets -/

/-- A key is to be listed under its issuer if that can be reached and is not below the key. -/
theorem parent_targetOf (hacyclic : Acyclic forest.placed) :
    (forest.targetOf key).parent.map Fingerprint.ident = some p ↔ key.issuer = some p ∧
      Attached forest.placed p ∧ ¬ Hangs forest.placed key.ident p := by
  unfold targetOf Key.issuer
  cases key.cleanIssuer with
  | none => simp [Target.parent]
  | some issuer =>
    have hunder : (forest.isAttached issuer && !forest.isWithin issuer key.fingerprint) = true ↔
        Attached forest.placed issuer.ident ∧ ¬ Hangs forest.placed key.ident issuer.ident := by
      rw [Bool.and_eq_true, isAttached_iff, Bool.not_eq_true', ← Bool.not_eq_true,
        isWithin_iff hacyclic]
    simp only [isAttached_walks, isWithin_walks]
    split
    · rename_i hcase
      rw [hunder] at hcase
      simp only [Target.parent, Option.map_some, Option.some.injEq]
      refine ⟨?_, And.left⟩
      rintro rfl
      exact ⟨rfl, hcase⟩
    · rename_i hcase
      rw [hunder] at hcase
      have hnone (target : Target) (htarget : target.parent = none) :
          target.parent.map Fingerprint.ident = some p ↔
            (some issuer).map Fingerprint.ident = some p ∧ Attached forest.placed p ∧
              ¬ Hangs forest.placed key.ident p := by
        simp only [htarget, Option.map_none, reduceCtorEq, Option.map_some, Option.some.injEq,
          false_iff, not_and]
        rintro rfl hattached
        exact fun hnot => hcase ⟨hattached, hnot⟩
      split <;> exact hnone _ rfl

/-- It is to wait for its issuer if that is neither placed nor moving. -/
theorem awaited_targetOf : (forest.targetOf key).awaited = some x ↔
    key.issuer = some x ∧ forest.placed x = none ∧ ¬ forest.IsMoving x := by
  unfold targetOf Key.issuer
  cases key.cleanIssuer with
  | none => simp [Target.awaited]
  | some issuer =>
    have hthere : (forest.isPlaced issuer || forest.inTransit.has issuer) = true ↔
        ¬ (forest.placed issuer.ident = none ∧ ¬ forest.IsMoving issuer.ident) := by
      rw [Bool.or_eq_true, isPlaced_iff, has_inTransit_iff, Option.isSome_iff_ne_none]
      tauto
    dsimp only
    split
    · rename_i hcase
      simp only [Target.awaited, reduceCtorEq, Option.map_some, Option.some.injEq, false_iff]
      rintro ⟨rfl, hnone, -⟩
      have hattached := (isAttached_iff issuer).mp (Bool.and_eq_true_iff.mp hcase).1
      have := hattached.isSome
      simp [hnone] at this
    · split
      · rename_i hcase
        rw [hthere] at hcase
        simp only [Target.awaited, reduceCtorEq, Option.map_some, Option.some.injEq, false_iff]
        rintro ⟨rfl, hnot⟩
        exact hcase hnot
      · rename_i hcase
        rw [hthere, not_not] at hcase
        simp only [Target.awaited, Option.map_some, Option.some.injEq]
        refine ⟨?_, And.left⟩
        rintro rfl
        exact ⟨rfl, hcase⟩

/-! ### Placing one key -/

/-- The state in which a key is placed: it is no longer on the move, and the keys that wait for it
have set out. -/
def started (placing : Placing) (key : Key) : Placing :=
  promoteWaiting { placing with journal := placing.journal.update fun forest =>
    { forest with inTransit := forest.inTransit.erase key.fingerprint } } key.fingerprint

/-- The issuer that decided about the place of a key so far. -/
def formerIssuer (forest : Forest) (key : Key) : Option Fingerprint :=
  (forest.stored.lookup key.fingerprint).bind (·.cleanIssuer)

/-- The journal after a key has found its place. -/
def listed (placing : Placing) (key : Key) : Journal Forest × ℕ :=
  relist (started placing key).journal ((started placing key).journal.state.formerIssuer key)
    ((started placing key).journal.state.targetOf key) key

theorem journal_place (placing : Placing) (key : Key) (arrival : Arrival) :
    (place placing key arrival).journal = if arrival = .promoted then
        (listed placing key).1.announce
          (.moved ((started placing key).journal.state.targetOf key).parent (listed placing key).2)
      else (listed placing key).1 := rfl

theorem queue_place (placing : Placing) (key : Key) (arrival : Arrival) :
    (place placing key arrival).queue = (started placing key).queue := rfl

/-- What a forest shows when a delivered key is placed: the keys that waited for it are moving. -/
structure Gathers (forest : Forest) (outline : Outline) (orphans : List Key) (key : Key) : Prop where
  proper : outline.Proper
  shows : forest.Shows outline orphans (insert key.ident { x | outline.Has x })
  mem_orphans : ∀ {orphan}, orphan ∈ orphans ↔
    orphan ∈ outline.keys ∧ orphan.issuer = some key.ident ∧ ¬ outline.Has key.ident

namespace Gathers

variable (h : forest.Gathers outline orphans key)
include h

theorem ident_ne (horphan : orphan ∈ orphans) : orphan.ident ≠ key.ident :=
  (Key.issuer_ne (h.mem_orphans.mp horphan).2.1).1.symm

theorem attached_self (hsome : (forest.placed key.ident).isSome) :
    Attached forest.placed key.ident := by
  refine (h.shows.arranged.grounded _ hsome).resolve_right ?_
  rintro ⟨_, ⟨orphan, horphan, rfl⟩, -⟩
  exact (h.mem_orphans.mp horphan).2.2 (h.shows.has_iff.mpr (.inl hsome))

theorem placed_other (hx : x ≠ key.ident) (hmoving : ∀ orphan ∈ orphans, orphan.ident ≠ x) :
    forest.placed x = (outline.deliver key).up x := by
  rw [h.shows.placed_eq hmoving,
    Outline.up_deliver_other h.proper hx fun other hother hident hissuer => ?_]
  by_contra hnew
  exact hmoving other (h.mem_orphans.mpr ⟨hother, hissuer, hnew⟩) hident

/-- The way up from the issuer leads to the key unless it reaches the top before. -/
theorem hangs_iff (hissuer : key.issuer = some p) (hp : (outline.deliver key).Has p) :
    Hangs (outline.deliver key).up key.ident p ↔
      ¬ (Attached forest.placed p ∧ ¬ Hangs forest.placed key.ident p) := by
  -- In the forest the moving keys have no place yet; in the outline they are under the key already.
  refine hangs_of_gathered (fun y hy => ?_) (fun y hy hmoving => ?_) h.shows.arranged.grounded
    (Outline.isSome_up.mpr hp) (Key.issuer_ne hissuer).1
  · obtain ⟨orphan, horphan, rfl⟩ := hy
    obtain ⟨hmem, hissuer, hnew⟩ := h.mem_orphans.mp horphan
    exact ⟨h.shows.placed_of_moving horphan,
      Outline.up_deliver_waiter h.proper hnew hmem hissuer⟩
  · exact h.placed_other hy fun orphan horphan hident => hmoving ⟨orphan, horphan, hident⟩

/-- The target of the key is its place in the outline with the key delivered. -/
theorem up_self (hnamed : key.ident ≠ []) : (outline.deliver key).up key.ident =
    some ((forest.targetOf key).parent.map Fingerprint.ident) := by
  have htarget {p : Ident} := @parent_targetOf forest key p h.shows.arranged.acyclic
  have hsorted := (h.proper.deliver hnamed).sorted
  have hmem : key ∈ (outline.deliver key).keys := (Bucket.mem_put h.proper.sorted).mpr (.inl rfl)
  cases hparent : (forest.targetOf key).parent.map Fingerprint.ident with
  | some p =>
    obtain ⟨hissuer, hboth⟩ := htarget.mp hparent
    have hp : (outline.deliver key).Has p := (Outline.has_deliver h.proper).mpr
      (.inr (h.shows.has_iff.mpr (.inl hboth.1.isSome)))
    refine (Outline.up_eq_under hsorted hmem).mpr ⟨hissuer, hp, fun hcut => ?_⟩
    obtain ⟨q, hq, hhangs⟩ := Outline.mem_cut_deliver_self.mp hcut
    rw [hissuer] at hq
    cases hq
    exact (h.hangs_iff hissuer hp).mp hhangs hboth
  | none =>
    refine (Outline.up_eq_top hsorted hmem).mpr ?_
    by_contra hnot
    push Not at hnot
    obtain ⟨hcut, p, hissuer, hp⟩ := hnot
    refine hcut (Outline.mem_cut_deliver_self.mpr
      ⟨p, hissuer, (h.hangs_iff hissuer hp).mpr fun hboth => ?_⟩)
    rw [htarget.mpr ⟨hissuer, hboth⟩] at hparent
    contradiction

theorem formerIssuer_eq : (forest.formerIssuer key).map Fingerprint.ident =
    (outline.keys.key? key.ident).bind Key.issuer := by
  have harranged := h.shows.arranged
  have hkey? : forest.stored.key? key.ident = outline.keys.key? key.ident := by
    refine Option.ext fun child => ?_
    rw [harranged.stored_sorted.key?_eq_some, h.proper.sorted.key?_eq_some,
      harranged.stored_iff, h.shows.mem_keys]
    constructor
    · rintro ⟨⟨o, hchild, -⟩, hident⟩
      exact ⟨.inl ⟨o, hchild⟩, hident⟩
    · rintro ⟨⟨o, hchild⟩ | hmoving, hident⟩
      · refine ⟨⟨o, hchild, ?_⟩, hident⟩
        rw [hident]
        exact h.attached_self (by rw [← hident, harranged.placed_of_mem hchild]; rfl)
      · exact absurd hident (h.ident_ne hmoving)
  rw [formerIssuer, Bucket.lookup_eq harranged.stored_sorted, ← hkey?, Option.map_bind]
  rfl

theorem there_eq : insert key.ident { x | outline.Has x } = { x | (outline.deliver key).Has x } := by
  ext x
  simp [Outline.has_deliver h.proper]

theorem waits : (forest.rewait (forest.formerIssuer key) (forest.targetOf key) key).Waits
    (outline.deliver key).keys { x | (outline.deliver key).Has x } := by
  rw [← h.there_eq]
  refine h.shows.waits.rewait h.proper.sorted h.formerIssuer_eq fun x => ?_
  rw [awaited_targetOf, Set.mem_insert_iff, Set.mem_ofPred_eq, h.shows.has_iff,
    Option.isSome_iff_ne_none]
  refine and_congr_right fun hissuer => ?_
  have := (Key.issuer_ne hissuer).1
  tauto

/-- When the key is listed where its target says, the outline with the key is shown. -/
theorem shows_listed {after : Forest} (hnamed : key.ident ≠ [])
    (harranged : after.Arranged ({ x | ∃ orphan ∈ orphans, orphan.ident = x } \ {key.ident}))
    (hlisted : Listed (forest.rewait (forest.formerIssuer key) (forest.targetOf key) key) after key
      ((forest.targetOf key).parent.map Fingerprint.ident)) :
    after.Shows (outline.deliver key) orphans { x | (outline.deliver key).Has x } := by
  have hnot : key.ident ∉ { x | ∃ orphan ∈ orphans, orphan.ident = x } :=
    fun ⟨orphan, horphan, hident⟩ => h.ident_ne horphan hident
  have hkeys {child : Key} : child ∈ (outline.deliver key).keys ↔
      (∃ o, child ∈ after.under o) ∨ child ∈ orphans := by
    rw [hlisted.exists_under, under_rewait, Outline.deliver, Bucket.mem_put h.proper.sorted,
      h.shows.mem_keys]
    constructor
    · rintro (rfl | ⟨hrow | hmoving, hne⟩)
      · exact .inl (.inl rfl)
      · exact .inl (.inr ⟨hrow, hne⟩)
      · exact .inr hmoving
    · rintro ((rfl | ⟨hrow, hne⟩) | hmoving)
      · exact .inl rfl
      · exact .inr ⟨.inl hrow, hne⟩
      · exact .inr ⟨.inr hmoving, h.ident_ne hmoving⟩
  exact
    { arranged := by rwa [Set.sdiff_singleton_eq_self hnot] at harranged
      isMoving_iff := by
        intro x
        rw [← h.shows.isMoving_iff, IsMoving, IsMoving, hlisted.inTransit_eq, inTransit_rewait]
      placed_eq := by
        intro x hx
        rw [hlisted.placed_eq, placed_rewait]
        by_cases hxkey : x = key.ident
        · rw [hxkey, settle, Function.update_self, h.up_self hnamed]
        · rw [settle, Function.update_of_ne hxkey]
          exact h.placed_other hxkey hx
      mem_keys := hkeys
      waits := h.waits.frame hlisted.waiting_eq }

end Gathers

/-- Keys that wait are at the top. -/
theorem Settled.up_awaiting (hstate : forest.Settled outline) (hproper : outline.Proper)
    (horphan : orphan ∈ forest.awaiting x) : outline.up orphan.ident = some none := by
  obtain ⟨hmem, hissuer, hnot⟩ := hstate.waits.awaiting_iff.mp horphan
  refine (Outline.up_eq_top hproper.sorted hmem).mpr (.inr fun p hp => ?_)
  rw [hissuer] at hp
  cases hp
  exact hnot

/-- In a forest at rest there is no mark of moving to take away. -/
theorem Settled.shows_unmarked (hstate : forest.Settled outline) (f : Fingerprint) :
    ({ forest with inTransit := forest.inTransit.erase f } : Forest).Shows outline []
      { x | outline.Has x } := by
  refine Shows.frame hstate (fun {x} => ?_) (hstate.waits.frame rfl)
  have hnone : ¬ forest.IsMoving x := by simp [Shows.isMoving_iff hstate]
  rw [IsMoving, Table.mem_idents] at hnone
  rw [Table.mem_idents, Table.value?_erase]
  split <;> simp_all

/-- Before a delivered key is placed, the keys that waited for it set out. -/
theorem started_delivered (h : placing.journal.Faultless)
    (hstate : placing.journal.state.Settled outline) (hproper : outline.Proper)
    (hqueue : placing.queue = []) (key : Key) :
    (started placing key).journal.Faultless ∧
      (started placing key).journal.state.Gathers outline
        (placing.journal.state.awaiting key.ident) key ∧
      (started placing key).queue =
        (placing.journal.state.awaiting key.ident).map fun orphan => (orphan, .promoted) := by
  have hshows := hstate.shows_unmarked key.fingerprint
  have horphans : ∀ orphan ∈ placing.journal.state.awaiting key.ident,
      outline.up orphan.ident = some none ∧ ∀ key ∈ ([] : List Key), key.ident ≠ orphan.ident :=
    fun orphan horphan => ⟨hstate.up_awaiting hproper horphan, by simp⟩
  have herased : (placing.journal.update fun forest =>
      { forest with inTransit := forest.inTransit.erase key.fingerprint }).Faultless := h.update _
  obtain ⟨hfaultless, hstarted, hqueue'⟩ := @promoteWaiting_spec outline [] _ key.fingerprint
    { placing with journal := placing.journal.update fun forest =>
      { forest with inTransit := forest.inTransit.erase key.fingerprint } }
    herased hshows List.nodup_nil horphans
  refine ⟨hfaultless, ⟨hproper, hstarted, hstate.waits.awaiting_iff⟩, ?_⟩
  rw [hqueue] at hqueue'
  rw [started, hqueue]
  exact hqueue'

/-- Delivering a key lists it where the outline with the key has it. -/
theorem place_delivered (h : placing.journal.Faultless)
    (hstate : placing.journal.state.Settled outline) (hproper : outline.Proper)
    (hqueue : placing.queue = []) (hnamed : key.ident ≠ []) :
    (place placing key .delivered).journal.Faultless ∧
      (place placing key .delivered).journal.state.Shows (outline.deliver key)
        (placing.journal.state.awaiting key.ident) { x | (outline.deliver key).Has x } ∧
      Attached (place placing key .delivered).journal.state.placed key.ident ∧
      (place placing key .delivered).queue =
        (placing.journal.state.awaiting key.ident).map fun orphan => (orphan, .promoted) := by
  obtain ⟨hfaultless, hgathers, hqueue'⟩ := started_delivered h hstate hproper hqueue key
  rw [journal_place, queue_place, if_neg (by simp), listed]
  generalize started placing key = started at hfaultless hgathers hqueue' ⊢
  generalize placing.journal.state.awaiting key.ident = orphans at hgathers hqueue' ⊢
  have harranged := hgathers.shows.arranged
  have htarget {p : Ident} := @parent_targetOf started.journal.state key p harranged.acyclic
  obtain ⟨hfaultless', harranged', hlisted⟩ :=
    relist_spec (started.journal.state.formerIssuer key) (started.journal.state.targetOf key)
      hfaultless harranged hnamed hgathers.attached_self fun p hp => by
        obtain ⟨hissuer, hattached, hnot⟩ := htarget.mp hp
        exact ⟨hattached, hnot, hissuer⟩
  refine ⟨hfaultless', hgathers.shows_listed hnamed harranged' hlisted, ?_, hqueue'⟩
  rw [hlisted.placed_eq, placed_rewait]
  exact attached_settle_self fun p hp => (htarget.mp hp).2

/-- A key for which no key waits is placed at once. -/
theorem started_of_nobody (hnobody : placing.journal.state.awaiting key.ident = []) :
    started placing key = { placing with journal := placing.journal.update fun forest =>
      { forest with
        inTransit := forest.inTransit.erase key.fingerprint
        waiting := forest.waiting.erase key.fingerprint } } := by
  have hnobody' : placing.journal.state.waitingFor key.fingerprint = [] := by
    rw [waitingFor_eq, hnobody]
  unfold started promoteWaiting
  change List.foldl promote _ (placing.journal.state.waitingFor key.fingerprint) = _
  rw [hnobody']
  rfl

theorem rewait_of_parent {target : Target} (htarget : target.parent.map Fingerprint.ident = some p) :
    forest.rewait none target key = forest := by
  cases target with
  | under issuer => rfl
  | topLevel | orphan issuer => simp [Target.parent] at htarget

/-- What a forest shows when a moving key is placed: only its mark of moving is gone. -/
structure Readies (forest : Forest) (outline : Outline) (key : Key) (rest : List Key) : Prop where
  arranged : forest.Arranged { x | ∃ other ∈ key :: rest, other.ident = x }
  isMoving_iff : ∀ {x}, forest.IsMoving x ↔ ∃ other ∈ rest, other.ident = x
  placed_eq : ∀ {x}, (∀ other ∈ key :: rest, other.ident ≠ x) → forest.placed x = outline.up x
  mem_keys : ∀ {child}, child ∈ outline.keys ↔
    (∃ o, child ∈ forest.under o) ∨ child ∈ key :: rest
  waits : forest.Waits outline.keys { x | outline.Has x }

variable {rest : List Key}

theorem Readies.vacant (h : forest.Readies outline key rest) : forest.placed key.ident = none :=
  h.arranged.vacant _ ⟨key, List.mem_cons_self, rfl⟩

/-- The key is to be listed under its issuer. -/
theorem Readies.parent_target (h : forest.Readies outline key rest)
    (hissuer : key.issuer = some p) (hp : Attached forest.placed p) :
    (forest.targetOf key).parent.map Fingerprint.ident = some p :=
  (parent_targetOf h.arranged.acyclic).mpr
    ⟨hissuer, hp, fun hhangs => h.arranged.not_attached ⟨key, List.mem_cons_self, rfl⟩ hhangs hp⟩

/-- When the key is listed at its place in the outline, one key less is moving. -/
theorem Readies.shows_listed {after : Forest} {o : Option Ident}
    (h : forest.Readies outline key rest) (hnodup : ((key :: rest).map Key.ident).Nodup)
    (hup : outline.up key.ident = some o)
    (harranged : after.Arranged ({ x | ∃ other ∈ key :: rest, other.ident = x } \ {key.ident}))
    (hlisted : Listed forest after key o) : after.Shows outline rest { x | outline.Has x } := by
  have hself : key.ident ∈ { x | ∃ other ∈ key :: rest, other.ident = x } :=
    ⟨key, List.mem_cons_self, rfl⟩
  have hset : { x | ∃ other ∈ key :: rest, other.ident = x } \ {key.ident} =
      { x | ∃ other ∈ rest, other.ident = x } := by
    ext x
    have := (List.nodup_cons.mp hnodup).1
    simp only [Set.mem_sdiff, Set.mem_ofPred_eq, List.exists_mem_cons_iff, Set.mem_singleton_iff]
    grind
  have hkeys {child : Key} : child ∈ outline.keys ↔
      (∃ o, child ∈ after.under o) ∨ child ∈ rest := by
    rw [hlisted.exists_under, h.mem_keys, List.mem_cons]
    constructor
    · rintro (⟨o, hrow⟩ | rfl | hrest)
      · exact .inl (.inr ⟨⟨o, hrow⟩, h.arranged.ident_ne_of_loose hself hrow⟩)
      · exact .inl (.inl rfl)
      · exact .inr hrest
    · rintro ((rfl | ⟨hrow, -⟩) | hrest)
      · exact .inr (.inl rfl)
      · exact .inl hrow
      · exact .inr (.inr hrest)
  exact
    { arranged := by rwa [hset] at harranged
      isMoving_iff := by
        intro x
        rw [← h.isMoving_iff, IsMoving, IsMoving, hlisted.inTransit_eq]
      placed_eq := by
        intro x hx
        rw [hlisted.placed_eq]
        by_cases hxkey : x = key.ident
        · rw [hxkey, settle, Function.update_self, hup]
        · rw [settle, Function.update_of_ne hxkey]
          exact h.placed_eq (List.forall_mem_cons.mpr ⟨Ne.symm hxkey, hx⟩)
      mem_keys := hkeys
      waits := h.waits.frame hlisted.waiting_eq }

theorem started_promoted (h : placing.journal.Faultless)
    (hshows : placing.journal.state.Shows outline (key :: rest) { x | outline.Has x })
    (hnodup : ((key :: rest).map Key.ident).Nodup) :
    (started placing key).journal.Faultless ∧
      (started placing key).journal.state.Readies outline key rest ∧
      (started placing key).journal.state.placed = placing.journal.state.placed ∧
      (started placing key).queue = placing.queue := by
  have hself : key.ident ∈ { x | outline.Has x } :=
    ⟨key, hshows.mem_keys.mpr (.inr List.mem_cons_self), rfl⟩
  have hjournal := h.update fun forest =>
    { forest with
      inTransit := forest.inTransit.erase key.fingerprint
      waiting := forest.waiting.erase key.fingerprint }
  rw [started_of_nobody (hshows.awaiting_eq_nil hself)]
  refine ⟨hjournal, ⟨hshows.arranged.frame rfl rfl rfl rfl, fun {x} => ?_, hshows.placed_eq,
    fun {child} => ?_, ?_⟩, rfl, rfl⟩
  · have hbefore := @Shows.isMoving_iff _ _ _ _ hshows x
    rw [IsMoving, Table.mem_idents] at hbefore
    change x ∈ Table.idents (Table.erase _ _) ↔ _
    rw [Table.mem_idents, Table.value?_erase]
    split
    · rename_i hx
      simp only [Option.isSome_none, Bool.false_eq_true, false_iff]
      rintro ⟨other, hother, hident⟩
      exact (List.nodup_cons.mp hnodup).1 (List.mem_map.mpr ⟨other, hother, hident.trans hx.symm⟩)
    · rename_i hx
      rw [hbefore, List.exists_mem_cons_iff, or_iff_right hx]
  · exact hshows.mem_keys.trans (or_congr_left (exists_under_congr rfl rfl))
  · have harrive := hshows.waits.arrive key.fingerprint
    rw [Set.insert_eq_of_mem hself] at harrive
    exact harrive.frame rfl

/-- A moving key is listed under the key that has been delivered. -/
theorem place_promoted (h : placing.journal.Faultless)
    (hshows : placing.journal.state.Shows outline (key :: rest) { x | outline.Has x })
    (hproper : outline.Proper) (hnodup : ((key :: rest).map Key.ident).Nodup)
    (hup : outline.up key.ident = some (some p))
    (hp : Attached placing.journal.state.placed p) :
    (place placing key .promoted).journal.Faultless ∧
      (place placing key .promoted).journal.state.Shows outline rest { x | outline.Has x } ∧
      Attached (place placing key .promoted).journal.state.placed p ∧
      (place placing key .promoted).queue = placing.queue := by
  have hmem : key ∈ outline.keys := hshows.mem_keys.mpr (.inr List.mem_cons_self)
  have hissuer := ((Outline.up_eq_under hproper.sorted hmem).mp hup).1
  obtain ⟨hfaultless, hreadies, hplaced, hqueue⟩ := started_promoted h hshows hnodup
  rw [← hplaced] at hp
  rw [journal_place, queue_place, hqueue, if_pos rfl, listed]
  generalize started placing key = started at *
  have harranged := hreadies.arranged
  have hself : key.ident ∈ { x | ∃ other ∈ key :: rest, other.ident = x } :=
    ⟨key, List.mem_cons_self, rfl⟩
  have hformer : started.journal.state.formerIssuer key = none := by
    rw [formerIssuer, Bucket.lookup_eq harranged.stored_sorted, Bucket.key?_eq_none.mpr,
      Option.bind_none]
    intro child hchild hident
    have hattached := harranged.attached_of_mem hchild
    rw [hident] at hattached
    exact harranged.not_attached hself .self hattached
  have htarget {q : Ident} := @parent_targetOf started.journal.state key q harranged.acyclic
  have hparent := hreadies.parent_target hissuer hp
  obtain ⟨hfaultless', harranged', hlisted⟩ := relist_spec none
    (started.journal.state.targetOf key) hfaultless harranged (hproper.named key hmem)
    (fun hsome => by rw [hreadies.vacant] at hsome; contradiction) fun q hq => by
      obtain ⟨hissuer, hattached, hnot⟩ := htarget.mp hq
      exact ⟨hattached, hnot, hissuer⟩
  rw [hparent, rewait_of_parent hparent] at hlisted
  rw [hformer]
  refine ⟨hfaultless'.announce harranged'.consistent trivial,
    hreadies.shows_listed hnodup hup harranged' hlisted, ?_, rfl⟩
  rw [Journal.state_announce, hlisted.placed_eq]
  exact hp.settle hreadies.vacant

/-! ### Delivering a key and all that moves because of it -/

/-- A delivered key is in its place, and the queue holds the moving keys, which belong under it, and
nothing else: no key waits for one that is moving. -/
structure Draining (placing : Placing) (outline : Outline) (orphans : List Key) (p : Ident) :
    Prop where
  faultless : placing.journal.Faultless
  shows : placing.journal.state.Shows outline orphans { x | outline.Has x }
  nodup : (orphans.map Key.ident).Nodup
  up_eq : ∀ orphan ∈ orphans, outline.up orphan.ident = some (some p)
  attached : Attached placing.journal.state.placed p
  queue_eq : placing.queue = orphans.map fun orphan => (orphan, .promoted)

theorem draining_delivered (h : placing.journal.Faultless)
    (hstate : placing.journal.state.Settled outline) (hproper : outline.Proper)
    (hnamed : key.ident ≠ []) :
    Draining (place { placing with queue := [] } key .delivered) (outline.deliver key)
      (placing.journal.state.awaiting key.ident) key.ident := by
  obtain ⟨hfaultless, hshows, hself, hqueue⟩ :=
    @place_delivered outline key { placing with queue := [] } h hstate hproper rfl hnamed
  refine ⟨hfaultless, hshows, (hstate.waits.ascends key.ident).nodup_idents, fun orphan horphan => ?_,
    hself, hqueue⟩
  obtain ⟨hmem, hissuer, hnew⟩ := hstate.waits.awaiting_iff.mp horphan
  exact Outline.up_deliver_waiter hproper hnew hmem hissuer

/-- The placing in which the first key of a queue is placed. -/
def dequeued (placing : Placing) (orphans : List Key) : Placing :=
  { placing with queue := orphans.map fun orphan => (orphan, .promoted) }

theorem Draining.next (h : Draining placing outline (orphan :: orphans) p)
    (hproper : outline.Proper) :
    Draining (place (dequeued placing orphans) orphan .promoted) outline orphans p := by
  obtain ⟨hup, hups⟩ := List.forall_mem_cons.mp h.up_eq
  obtain ⟨hfaultless, hshows, hp, hqueue⟩ := @place_promoted outline orphan p
    (dequeued placing orphans) orphans h.faultless h.shows hproper h.nodup hup h.attached
  exact ⟨hfaultless, hshows, (List.nodup_cons.mp h.nodup).2, hups, hp, hqueue⟩

theorem drain_of_queue_eq_nil {steps : ℕ} (hqueue : placing.queue = []) :
    drain steps placing = placing := by
  cases steps with
  | zero => rfl
  | succ steps => rw [drain, hqueue]

theorem Draining.drain_eq {steps : ℕ} (h : Draining placing outline (orphan :: orphans) p) :
    drain (steps + 1) placing =
      drain steps (place (dequeued placing orphans) orphan .promoted) := by
  rw [drain, h.queue_eq]
  rfl

theorem drain_spec {steps : ℕ} (h : Draining placing outline orphans p) (hproper : outline.Proper)
    (hsteps : orphans.length ≤ steps) :
    (drain steps placing).journal.Faultless ∧ (drain steps placing).journal.state.Settled outline := by
  induction orphans generalizing steps placing with
  | nil =>
    rw [drain_of_queue_eq_nil h.queue_eq]
    exact ⟨h.faultless, h.shows⟩
  | cons orphan orphans ih =>
    cases steps with
    | zero => simp at hsteps
    | succ steps =>
      rw [h.drain_eq]
      exact ih (h.next hproper) (Nat.le_of_succ_le_succ hsteps)

theorem length_awaiting_le (forest : Forest) (x : Ident) :
    (forest.awaiting x).length ≤ Table.total forest.waiting := by
  rw [awaiting]
  cases hvalue : forest.waiting.value? x with
  | none => simp
  | some keys =>
    obtain ⟨f, hmem, -⟩ := Table.exists_mem_of_value? hvalue
    exact Table.length_le_total hmem

/-- A delivered key is placed, and then what it sent on the move. -/
theorem deliver_eq (placing : Placing) (key : Key) :
    deliver placing key = drain (Table.total placing.journal.state.waiting)
      (place { placing with queue := [] } key .delivered) := rfl

/-- Delivering a key to a forest at rest leaves it at rest, with the key in its place. -/
theorem deliver_spec (h : placing.journal.Faultless)
    (hstate : placing.journal.state.Settled outline) (hproper : outline.Proper)
    (hnamed : key.ident ≠ []) :
    (deliver placing key).journal.Faultless ∧
      (deliver placing key).journal.state.Settled (outline.deliver key) := by
  rw [deliver_eq]
  exact drain_spec (draining_delivered h hstate hproper hnamed) (hproper.deliver hnamed)
    (length_awaiting_le _ _)

end KeyForest.Forest
