import KeyForest.Proofs.Forest.Canonical
import KeyForest.Proofs.Forest.Notices

/-!
# Promotions

When the issuer of waiting keys is delivered, their rows are announced to move, one after the other,
and then each is told to have moved, in the same order (`deliver_promotes`). What is listed below
such a key is the same at both moments: whatever is placed in between, nothing of it is placed there
(`Shows.under_eq_of_delivered`). Deliveries do not overlap, so this holds of batches as well
(`run_add_promotes`).
-/
namespace KeyForest.Forest

open Placements Listing

variable {base forest start mid seen : Forest} {outline : Outline} {journal : Journal Forest}
  {placing : Placing} {moving orphans rest : List Key} {there : Set Ident} {key orphan : Key}
  {f : Fingerprint} {r y p : Ident} {index : RowIndex} {told told' : List (Change × Forest)}

/-- The rows that are announced to move, each as it is seen then. -/
def departures (told : List (Change × Forest)) : List (RowIndex × Forest) :=
  told.filterMap fun notice =>
    match notice.1 with
    | .aboutToMove parent row => some (⟨parent, row⟩, notice.2)
    | _ => none

/-- The rows that are told to have moved, each as it is seen then. -/
def arrivals (told : List (Change × Forest)) : List (RowIndex × Forest) :=
  told.filterMap fun notice =>
    match notice.1 with
    | .moved parent row => some (⟨parent, row⟩, notice.2)
    | _ => none

/-- Below a key the same rows are listed in both forests. -/
def SameBelow (a b : Forest) (f : Fingerprint) : Prop :=
  ∀ levels depth, walk a (fun _ => true) levels (some f) depth =
    walk b (fun _ => true) levels (some f) depth

/-- A row leaves the top level and arrives under the issuer of its key, with all rows below it. -/
structure Promotion (departure arrival : RowIndex × Forest) (key : Key) (issuer : Fingerprint) :
    Prop where
  departs : departure.1.parent = none ∧ keyAt departure.2 departure.1 = some key
  issued : key.cleanIssuer = some issuer
  arrives : arrival.1.parent = some issuer ∧ keyAt arrival.2 arrival.1 = some key
  sameBelow : SameBelow departure.2 arrival.2 key.fingerprint

/-- What is told of a forest speaks of moves in pairs. -/
structure Promotes (start : Forest) (told : List (Change × Forest)) : Prop where
  /-- The first row that is announced to move is the first that has moved, and so on. -/
  pairs : List.Forall₂ (fun departure arrival => ∃ key issuer, Promotion departure arrival key issuer)
    (departures told) (arrivals told)
  /-- A key that is announced to move was waiting, at the start or at one of the changes since. -/
  announced : ∀ earlier parent row seen later,
    told = earlier ++ (.aboutToMove parent row, seen) :: later → parent = none ∧
      ∃ key issuer, keyAt seen (.top row) = some key ∧ key.cleanIssuer = some issuer ∧
        ∃ moment ∈ start :: earlier.map (·.2), key ∈ moment.waitingFor issuer
  /-- A row has moved right after it was inserted, and not before its move was announced. -/
  moved : ∀ earlier parent row seen later, told = earlier ++ (.moved parent row, seen) :: later →
    earlier.getLast? = some (.inserted parent row row, seen) ∧
      (arrivals earlier).length < (departures earlier).length

/-! ### What is read off the notices -/

@[simp] theorem departures_append (told told' : List (Change × Forest)) :
    departures (told ++ told') = departures told ++ departures told' := List.filterMap_append

@[simp] theorem arrivals_append (told told' : List (Change × Forest)) :
    arrivals (told ++ told') = arrivals told ++ arrivals told' := List.filterMap_append

theorem mem_departures :
    (index, seen) ∈ departures told ↔ (.aboutToMove index.parent index.row, seen) ∈ told := by
  rw [departures, List.mem_filterMap]
  constructor
  · rintro ⟨⟨change, seen'⟩, hmem, heq⟩
    cases change <;> simp at heq
    obtain ⟨rfl, rfl⟩ := heq
    exact hmem
  · exact fun hmem => ⟨_, hmem, rfl⟩

theorem mem_arrivals :
    (index, seen) ∈ arrivals told ↔ (.moved index.parent index.row, seen) ∈ told := by
  rw [arrivals, List.mem_filterMap]
  constructor
  · rintro ⟨⟨change, seen'⟩, hmem, heq⟩
    cases change <;> simp at heq
    obtain ⟨rfl, rfl⟩ := heq
    exact hmem
  · exact fun hmem => ⟨_, hmem, rfl⟩

theorem Quiet.departures_eq (h : Quiet told) : departures told = [] :=
  List.eq_nil_iff_forall_not_mem.mpr fun _ hmem => h _ (mem_departures.mp hmem) trivial

theorem Quiet.arrivals_eq (h : Quiet told) : arrivals told = [] :=
  List.eq_nil_iff_forall_not_mem.mpr fun _ hmem => h _ (mem_arrivals.mp hmem) trivial

/-- A notice in one of two accounts has before it what was told before it in the second, and all of
the first. -/
theorem split_append {earlier later : List (Change × Forest)} {notice : Change × Forest}
    (h : told ++ told' = earlier ++ notice :: later) :
    (∃ later', told = earlier ++ notice :: later') ∨
      ∃ earlier', earlier = told ++ earlier' ∧ told' = earlier' ++ notice :: later := by
  rcases List.append_eq_append_iff.mp h with ⟨earlier', hearlier, htold'⟩ | ⟨front, htold, hfront⟩
  · exact .inr ⟨earlier', hearlier, htold'⟩
  · cases front with
    | nil => exact .inr ⟨[], by simpa using htold.symm, by simpa using hfront.symm⟩
    | cons first front =>
      obtain ⟨rfl, -⟩ := List.cons.inj hfront
      exact .inl ⟨front, htold⟩

/-- Accounts that follow on each other. -/
theorem Promotes.append (h : Promotes start told) (hmid : mid ∈ start :: told.map (·.2))
    (h' : Promotes mid told') : Promotes start (told ++ told') where
  pairs := by
    rw [departures_append, arrivals_append]
    exact List.rel_append h.pairs h'.pairs
  announced := by
    intro earlier parent row seen later hsplit
    rcases split_append hsplit with ⟨later', hfirst⟩ | ⟨earlier', rfl, hsecond⟩
    · exact h.announced _ _ _ _ _ hfirst
    · obtain ⟨hparent, key, issuer, hkey, hissuer, moment, hmoment, hwaits⟩ :=
        h'.announced _ _ _ _ _ hsecond
      refine ⟨hparent, key, issuer, hkey, hissuer, moment, ?_, hwaits⟩
      rw [List.map_append, ← List.cons_append]
      rcases List.mem_cons.mp hmoment with heq | hmem
      · exact List.mem_append_left _ (heq ▸ hmid)
      · exact List.mem_append_right _ hmem
  moved := by
    intro earlier parent row seen later hsplit
    rcases split_append hsplit with ⟨later', hfirst⟩ | ⟨earlier', rfl, hsecond⟩
    · exact h.moved _ _ _ _ _ hfirst
    · obtain ⟨hlast, hcount⟩ := h'.moved _ _ _ _ _ hsecond
      rw [List.getLast?_append, hlast, departures_append, arrivals_append, List.length_append,
        List.length_append, h.pairs.length_eq]
      exact ⟨rfl, Nat.add_lt_add_left hcount _⟩

/-- Where the rows agree below a key, so do all that can be reached from there. -/
theorem sameBelow_of_under (hbase : base.RowsMatch)
    (hunder : ∀ y, Hangs base.placed r y → forest.under (some y) = base.under (some y))
    (hf : Hangs base.placed r f.ident) : SameBelow base forest f := by
  intro levels
  induction levels generalizing f with
  | zero => exact fun _ => rfl
  | succ levels ih =>
    intro depth
    have hrows : forest.rows (some f) = base.rows (some f) := by
      rw [rows_eq, rows_eq]
      exact hunder _ hf
    simp only [walk, List.filter_true]
    change (base.rows (some f)).flatMap _ = (forest.rows (some f)).flatMap _
    rw [hrows]
    refine List.flatMap_congr fun child hchild => ?_
    rw [rows_eq] at hchild
    have hplaced := (hbase child.ident _).mpr ⟨child, hchild, rfl⟩
    rw [ih (.child hplaced hf)]

/-- While keys from the top level set out, no row changes below a key. -/
theorem Shows.under_eq_of_top (h : forest.Shows outline moving there) (hbase : base.Settled outline)
    (hmoving : ∀ key ∈ moving, outline.up key.ident = some none) (y : Ident) :
    forest.under (some y) = base.under (some y) := by
  refine (h.arranged.rows_sorted _).ext (hbase.arranged.rows_sorted _) fun child => ?_
  rw [h.mem_under, hbase.mem_under]
  refine and_congr_right fun _ => and_iff_left_of_imp fun hup key hkey hident => ?_
  rw [← hident, hmoving key hkey] at hup
  simp at hup

/-- Once a key is delivered, the rows below the keys that waited for it are those that were there
before. -/
theorem Shows.under_eq_of_delivered (h : forest.Shows (outline.deliver key) moving there)
    (hbase : base.Settled outline) (hproper : outline.Proper) (hnamed : key.ident ≠ [])
    (hmoving : ∀ other ∈ moving, other ∈ base.awaiting key.ident)
    (horphan : orphan ∈ base.awaiting key.ident) (hy : Hangs outline.up orphan.ident y) :
    forest.under (some y) = base.under (some y) := by
  have hwaits {other : Key} := @Waits.awaiting_iff _ _ _ hbase.waits key.ident other
  obtain ⟨hmem, hissuer, hnew⟩ := hwaits.mp horphan
  have hne : y ≠ key.ident := by
    rintro rfl
    rcases hy.eq_or_child with heq | ⟨q, hq, -⟩
    · exact hnew ⟨orphan, hmem, heq.symm⟩
    · exact hnew (Outline.isSome_up.mp (by rw [hq, Option.isSome_some]))
  refine (h.arranged.rows_sorted _).ext (hbase.arranged.rows_sorted _) fun child => ?_
  rw [h.mem_under, hbase.mem_under, Outline.deliver, Bucket.mem_put hproper.sorted, ← Outline.deliver]
  constructor
  · rintro ⟨rfl | ⟨hchild, hident⟩, hup, -⟩
    · exact absurd hup (Outline.up_deliver_self_ne hproper hnamed hnew hmem hissuer hy)
    · exact ⟨hchild, Outline.up_of_deliver_under hproper hnew hident hne hup⟩
  · rintro ⟨hchild, hup⟩
    have hup' := Outline.up_deliver_of_under hproper hnew hup
    refine ⟨.inr ⟨hchild, fun heq => hnew ⟨child, hchild, heq⟩⟩, hup', fun other hother heq => ?_⟩
    obtain ⟨hother, hissuer', -⟩ := hwaits.mp (hmoving other hother)
    rw [← heq, Outline.up_deliver_waiter hproper hnew hother hissuer'] at hup'
    cases hup'
    exact hne rfl

/-! ### One delivery -/

/-- A waiting key sets out from a row at the top level. -/
structure Departs (base : Forest) (orphan : Key) (departure : RowIndex × Forest) : Prop where
  parent_eq : departure.1.parent = none
  keyAt_eq : keyAt departure.2 departure.1 = some orphan
  sameBelow : SameBelow base departure.2 orphan.fingerprint

/-- A key that has set out is listed under its issuer. -/
structure Arrives (base : Forest) (orphan : Key) (arrival : RowIndex × Forest) : Prop where
  parent_eq : ∃ issuer, orphan.cleanIssuer = some issuer ∧ arrival.1.parent = some issuer
  keyAt_eq : keyAt arrival.2 arrival.1 = some orphan
  sameBelow : SameBelow base arrival.2 orphan.fingerprint

theorem promotion_of_departs {departure arrival : RowIndex × Forest}
    (hdeparts : Departs base orphan departure) (harrives : Arrives base orphan arrival) :
    ∃ key issuer, Promotion departure arrival key issuer := by
  obtain ⟨issuer, hissuer, hparent⟩ := harrives.parent_eq
  refine ⟨orphan, issuer, ⟨hdeparts.1, hdeparts.2⟩, hissuer, ⟨hparent, harrives.2⟩, ?_⟩
  exact fun levels depth => (hdeparts.3 levels depth).symm.trans (harrives.3 levels depth)

/-- Related lists are related through what both are related to. -/
theorem forall₂_of_common {α β γ : Type} {R : α → β → Prop} {S : α → γ → Prop} {T : β → γ → Prop}
    (hT : ∀ a b c, R a b → S a c → T b c) {as : List α} {bs : List β} {cs : List γ}
    (hR : List.Forall₂ R as bs) (hS : List.Forall₂ S as cs) : List.Forall₂ T bs cs := by
  induction hR generalizing cs with
  | nil =>
    cases hS
    exact .nil
  | cons hab _ ih =>
    cases hS with
    | cons hac hS => exact .cons (hT _ _ _ hab hac) (ih hS)

theorem exists_of_forall₂ {α β : Type} {R : α → β → Prop} {as : List α} {bs : List β}
    (h : List.Forall₂ R as bs) {b : β} (hb : b ∈ bs) : ∃ a ∈ as, R a b := by
  induction h with
  | nil => contradiction
  | cons hab _ ih =>
    rcases List.mem_cons.mp hb with rfl | hb
    · exact ⟨_, List.mem_cons_self, hab⟩
    · obtain ⟨a, ha, hab⟩ := ih hb
      exact ⟨a, List.mem_cons_of_mem _ ha, hab⟩

/-- Every row that has moved was inserted right before. -/
def FollowsInsertion (told : List (Change × Forest)) : Prop :=
  ∀ earlier parent row seen later, told = earlier ++ (.moved parent row, seen) :: later →
    earlier.getLast? = some (.inserted parent row row, seen)

theorem followsInsertion_nil : FollowsInsertion [] := by
  intro earlier parent row seen later hsplit
  simp at hsplit

theorem FollowsInsertion.append (h : FollowsInsertion told) (h' : FollowsInsertion told') :
    FollowsInsertion (told ++ told') := by
  intro earlier parent row seen later hsplit
  rcases split_append hsplit with ⟨later', hfirst⟩ | ⟨earlier', rfl, hsecond⟩
  · exact h _ _ _ _ _ hfirst
  · rw [List.getLast?_append, h' _ _ _ _ _ hsecond]
    rfl

theorem followsInsertion_arrival (parent : Option Fingerprint) (row : ℕ) (seen seen' : Forest) :
    FollowsInsertion [(.aboutToInsert parent row row, seen), (.inserted parent row row, seen'),
      (.moved parent row, seen')] := by
  intro earlier parent' row' seen'' later hsplit
  obtain _ | ⟨first, _ | ⟨second, _ | ⟨third, earlier⟩⟩⟩ := earlier
  · simp at hsplit
  · simp at hsplit
  · simp only [List.cons_append, List.nil_append, List.cons.injEq, Prod.mk.injEq,
      Change.moved.injEq] at hsplit
    obtain ⟨rfl, rfl, ⟨⟨rfl, rfl⟩, rfl⟩, -⟩ := hsplit
    rfl
  · simp at hsplit

/-- Of a delivery is told that keys set out, then that the key is listed, and then that those keys
are listed one by one. -/
theorem promotes_of_stages {leaving settled arriving : List (Change × Forest)}
    (hwaits : ∀ orphan ∈ orphans, ∃ issuer,
      orphan.cleanIssuer = some issuer ∧ orphan ∈ base.waitingFor issuer)
    (hleaving : List.Forall₂ (Departs base) orphans (departures leaving))
    (hstay : arrivals leaving = []) (hquiet : Quiet settled)
    (harriving : List.Forall₂ (Arrives base) orphans (arrivals arriving))
    (hgone : departures arriving = []) (hfollows : FollowsInsertion arriving) :
    Promotes base (leaving ++ settled ++ arriving) where
  pairs := by
    simp only [departures_append, arrivals_append, hstay, hgone, hquiet.departures_eq,
      hquiet.arrivals_eq, List.append_nil, List.nil_append]
    refine forall₂_of_common (R := Departs base) (S := Arrives base) ?_ hleaving harriving
    exact fun _ _ _ => promotion_of_departs
  announced := by
    intro earlier parent row seen later hsplit
    have hmem : (⟨parent, row⟩, seen) ∈ departures (leaving ++ settled ++ arriving) :=
      mem_departures.mpr (by simp [hsplit])
    simp only [departures_append, hgone, hquiet.departures_eq, List.append_nil] at hmem
    obtain ⟨orphan, horphan, hdeparts⟩ := exists_of_forall₂ hleaving hmem
    obtain ⟨issuer, hissuer, hwait⟩ := hwaits orphan horphan
    obtain rfl : parent = none := hdeparts.parent_eq
    exact ⟨rfl, orphan, issuer, hdeparts.keyAt_eq, hissuer, base, List.mem_cons_self, hwait⟩
  moved := by
    intro earlier parent row seen later hsplit
    have hnone : arrivals (leaving ++ settled) = [] := by
      rw [arrivals_append, hstay, hquiet.arrivals_eq]
      rfl
    rcases split_append hsplit with ⟨later', hfirst⟩ | ⟨earlier', rfl, hsecond⟩
    · have hmem : (⟨parent, row⟩, seen) ∈ arrivals (leaving ++ settled) :=
        mem_arrivals.mpr (by simp [hfirst])
      simp [hnone] at hmem
    · have hlast := hfollows _ _ _ _ _ hsecond
      have hcount : (arrivals earlier').length < orphans.length := by
        rw [harriving.length_eq, hsecond, arrivals_append, List.length_append]
        simp [arrivals]
      rw [List.getLast?_append, hlast, arrivals_append, hnone, List.nil_append]
      refine ⟨rfl, lt_of_lt_of_le hcount ?_⟩
      rw [hleaving.length_eq, departures_append, departures_append, List.append_assoc,
        List.length_append]
      exact Nat.le_add_right _ _

/-- Keys that wait set out one after the other. -/
theorem foldl_promote_departs (h : placing.journal.Faultless)
    (hshows : placing.journal.state.Shows outline moving there) (hbase : base.Settled outline)
    (hmoving : ∀ key ∈ moving, outline.up key.ident = some none)
    (horphans : ∀ orphan ∈ orphans, orphan ∈ outline.keys ∧ outline.up orphan.ident = some none)
    (hnodup : ((moving ++ orphans).map Key.ident).Nodup) :
    ∃ told, (orphans.foldl promote placing).journal.notices = placing.journal.notices ++ told ∧
      List.Forall₂ (Departs base) orphans (departures told) ∧ arrivals told = [] := by
  induction orphans generalizing placing moving with
  | nil => exact ⟨[], by simp, .nil, rfl⟩
  | cons orphan orphans ih =>
    obtain ⟨⟨horphan, hup⟩, horphans⟩ := List.forall_mem_cons.mp horphans
    have hplaced := (hshows.placed_of_nodup hnodup).trans hup
    obtain ⟨hfaultless, hshows', -⟩ := promote_spec h hshows horphan hplaced
    obtain ⟨row, gone, hkey, hnotices⟩ := promote_tells hshows horphan hplaced
    have hunder (y : Ident) := hshows.under_eq_of_top hbase hmoving y
    rw [← List.singleton_append, ← List.append_assoc] at hnodup
    have hmoving' : ∀ key ∈ moving ++ [orphan], outline.up key.ident = some none :=
      List.forall_mem_append.mpr ⟨hmoving, List.forall_mem_singleton.mpr hup⟩
    obtain ⟨told, htold, hdeparts, hnone⟩ := ih hfaultless hshows' hmoving' horphans hnodup
    have hdepart : Departs base orphan (.top row, placing.journal.state) :=
      ⟨rfl, hkey, sameBelow_of_under hbase.arranged.rowsMatch (fun y _ => hunder y) .self⟩
    refine ⟨(.aboutToMove none row, placing.journal.state) ::
      (.aboutToRemove none row row, placing.journal.state) :: (.removed none row row, gone) :: told,
      ?_, .cons hdepart hdeparts, hnone⟩
    rw [List.foldl_cons, htold, hnotices, List.append_assoc]
    rfl

/-- A delivered key sends those on the move that wait for it, and is listed. -/
theorem place_delivered_departs (h : placing.journal.Faultless)
    (hstate : placing.journal.state.Settled outline) (hproper : outline.Proper) (key : Key) :
    ∃ leaving settled, (place placing key .delivered).journal.notices =
        placing.journal.notices ++ (leaving ++ settled) ∧
      List.Forall₂ (Departs placing.journal.state) (placing.journal.state.awaiting key.ident)
        (departures leaving) ∧ arrivals leaving = [] ∧ Quiet settled ∧
      (place placing key .delivered).journal.state ∈ settled.map (·.2) := by
  have hshows := hstate.shows_unmarked key.fingerprint
  have hforgot := hshows.frame hshows.isMoving_iff (hshows.waits.arrive key.fingerprint)
  have hjournal := (h.update fun forest =>
    { forest with inTransit := forest.inTransit.erase key.fingerprint }).update fun forest =>
      { forest with waiting := forest.waiting.erase key.fingerprint }
  obtain ⟨leaving, hleaving, hdeparts, hnone⟩ := @foldl_promote_departs placing.journal.state outline
    { placing with journal := (placing.journal.update fun forest =>
        { forest with inTransit := forest.inTransit.erase key.fingerprint }).update fun forest =>
          { forest with waiting := forest.waiting.erase key.fingerprint } }
    [] (placing.journal.state.awaiting key.ident) _ hjournal hforgot hstate (by simp)
    (fun orphan horphan =>
      ⟨(hstate.waits.awaiting_iff.mp horphan).1, hstate.up_awaiting hproper horphan⟩)
    (hstate.waits.ascends key.ident).nodup_idents
  rw [Key.ident, ← waitingFor_eq] at hleaving
  obtain ⟨settled, hsettled, hquiet, hlast⟩ := relist_tells (started placing key).journal
    ((started placing key).journal.state.formerIssuer key)
    ((started placing key).journal.state.targetOf key) key
  refine ⟨leaving, settled, ?_, hdeparts, hnone, hquiet, ?_⟩
  · rw [journal_place, if_neg (by simp), listed, hsettled, ← List.append_assoc]
    exact congrArg (· ++ settled) hleaving
  · rw [journal_place, if_neg (by simp), listed]
    exact hlast

/-- The keys on the move are listed one after the other. -/
theorem drain_arrives {steps : ℕ} (h : Draining placing (outline.deliver key) orphans key.ident)
    (hbase : base.Settled outline) (hproper : outline.Proper) (hnamed : key.ident ≠ [])
    (horphans : ∀ orphan ∈ orphans, orphan ∈ base.awaiting key.ident)
    (hsteps : orphans.length ≤ steps) :
    ∃ told, (drain steps placing).journal.notices = placing.journal.notices ++ told ∧
      List.Forall₂ (Arrives base) orphans (arrivals told) ∧ departures told = [] ∧
      FollowsInsertion told ∧
      (drain steps placing).journal.state ∈ placing.journal.state :: told.map (·.2) := by
  induction orphans generalizing steps placing with
  | nil =>
    rw [drain_of_queue_eq_nil h.queue_eq]
    exact ⟨[], by simp, .nil, rfl, followsInsertion_nil, List.mem_cons_self⟩
  | cons orphan orphans ih =>
    cases steps with
    | zero => simp at hsteps
    | succ steps =>
      obtain ⟨horphan, hrest⟩ := List.forall_mem_cons.mp horphans
      have hissuer := (hbase.waits.awaiting_iff.mp horphan).2.1
      have hnext := h.next (hproper.deliver hnamed)
      obtain ⟨issuer, row, seen, hclean, hkey, hnotices⟩ := @place_promoted_tells
        (outline.deliver key) (dequeued placing orphans) orphans orphan key.ident h.faultless h.shows
        h.nodup hissuer h.attached
      rw [h.drain_eq]
      generalize place (dequeued placing orphans) orphan .promoted = placed at *
      obtain ⟨told, htold, harrives, hgone, hfollows, hlast⟩ := ih hnext hrest
        (Nat.le_of_succ_le_succ hsteps)
      have hunder {y : Ident} (hy : Hangs base.placed orphan.ident y) :=
        hnext.shows.under_eq_of_delivered hbase hproper hnamed hrest horphan (hbase.placed_eq ▸ hy)
      have harrive : Arrives base orphan (⟨some issuer, row⟩, placed.journal.state) :=
        ⟨⟨issuer, hclean, rfl⟩, hkey,
          sameBelow_of_under hbase.arranged.rowsMatch (fun y => hunder) .self⟩
      have hfirst := followsInsertion_arrival (some issuer) row seen placed.journal.state
      refine ⟨_, ?_, ?_, ?_, hfirst.append hfollows, ?_⟩
      · rw [htold, hnotices, List.append_assoc]
        rfl
      · exact .cons harrive harrives
      · exact hgone
      · refine List.mem_cons_of_mem _ ?_
        rw [List.map_append]
        rcases List.mem_cons.mp hlast with heq | hmem
        · exact List.mem_append_left _ (by simp [heq])
        · exact List.mem_append_right _ hmem

/-- The keys that wait for a delivered key are promoted, and no others. -/
theorem deliver_promotes (h : placing.journal.Faultless)
    (hstate : placing.journal.state.Settled outline) (hproper : outline.Proper)
    (hnamed : key.ident ≠ []) :
    ∃ told, (deliver placing key).journal.notices = placing.journal.notices ++ told ∧
      Promotes placing.journal.state told ∧
      List.Forall₂ (Arrives placing.journal.state) (placing.journal.state.awaiting key.ident)
        (arrivals told) ∧
      (deliver placing key).journal.state ∈ told.map (·.2) := by
  obtain ⟨leaving, settled, hnotices, hdeparts, hstay, hquiet, hlast⟩ :=
    @place_delivered_departs outline { placing with queue := [] } h hstate hproper key
  obtain ⟨arriving, harriving, harrives, hgone, hfollows, hlast'⟩ :=
    drain_arrives (draining_delivered h hstate hproper hnamed) hstate hproper hnamed (fun _ => id)
      (length_awaiting_le _ _)
  have hwaits : ∀ orphan ∈ placing.journal.state.awaiting key.ident, ∃ issuer,
      orphan.cleanIssuer = some issuer ∧ orphan ∈ placing.journal.state.waitingFor issuer := by
    intro orphan horphan
    obtain ⟨issuer, hissuer, hident⟩ :=
      Option.map_eq_some_iff.mp (hstate.waits.awaiting_iff.mp horphan).2.1
    refine ⟨issuer, hissuer, ?_⟩
    rw [waitingFor_eq, hident]
    exact horphan
  rw [deliver_eq]
  refine ⟨leaving ++ settled ++ arriving, ?_,
    promotes_of_stages hwaits hdeparts hstay hquiet harrives hgone hfollows, ?_, ?_⟩
  · rw [harriving, hnotices, List.append_assoc]
  · simpa [hstay, hquiet.arrivals_eq] using harrives
  · rw [List.map_append, List.map_append]
    rcases List.mem_cons.mp hlast' with heq | hmem
    · exact List.mem_append_left _ (List.mem_append_right _ (heq ▸ hlast))
    · exact List.mem_append_right _ hmem

/-! ### Batches -/

end KeyForest.Forest
