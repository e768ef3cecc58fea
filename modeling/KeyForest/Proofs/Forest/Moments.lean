import KeyForest.Proofs.Forest.Calls
import KeyForest.Proofs.Forest.Operations
import KeyForest.Proofs.Forest.Traversals

/-!
# At what moments a forest is walked through

Every function that changes a forest is called under conditions (`Call.Sound`) that hold of the calls
it makes in turn (`Calls.sound`). They make the walks exact wherever these are taken, and only while
a row leaves are the keys below it still stored. So whatever answers as the loops do without a limit
may stand in for the bounded walks (`run_traverses`).
-/
namespace KeyForest.Forest

open Placements

variable {outline : Outline} {journal : Journal Forest} {placing : Placing} {walks : Walks}
  {orphans : List Key} {key : Key} {arrival : Arrival} {f : Fingerprint} {p : Ident}

/-! ### Under which conditions calls are made -/

/-- The forest is arranged, whatever keys are loose. -/
def Orderly (forest : Forest) : Prop := ∃ loose, forest.Arranged loose

/-- Between two operations, and between the deliveries of an operation. -/
def AtRest (journal : Journal Forest) : Prop :=
  journal.Faultless ∧ ∃ outline : Outline, outline.Proper ∧ journal.state.Settled outline

/-- It is a key's turn to be placed: it is delivered, or it is the first of the moving keys. -/
inductive Turn : Placing → Key → Arrival → Prop
  | delivered {placing : Placing} {key : Key} : AtRest placing.journal → placing.queue = [] →
      key.ident ≠ [] → Turn placing key .delivered
  | promoted {before : Placing} {outline : Outline} {orphans : List Key} {key : Key} {p : Ident} :
      Draining before outline (key :: orphans) p → outline.Proper →
      Turn (dequeued before orphans) key .promoted

/-- Whoever is first in the queue, it is its turn. -/
def Proceeds (placing : Placing) : Prop :=
  ∀ key arrival rest, placing.queue = (key, arrival) :: rest →
    Turn { placing with queue := rest } key arrival

/-- What holds when a function is called. -/
def Call.Sound : Call → Prop
  | operation journal _ | add journal _ => AtRest journal
  | merge journal batch => AtRest journal ∧ ∃ keys, batch = Bucket.ofBatch keys
  | deliver placing key => AtRest placing.journal ∧ key.ident ≠ []
  | drain _ placing => placing.journal.state.Orderly ∧ Proceeds placing
  | place placing key arrival => Turn placing key arrival
  | promoteWaiting placing issuer => AtRest placing.journal ∨
      placing.journal.state.Orderly ∧ placing.journal.state.awaiting issuer.ident = []
  | promote placing _ => placing.journal.state.Orderly
  | targetOf forest _ | isAttached forest _ | isWithin forest _ _ => forest.Orderly
  | relist journal _ _ key => journal.Faultless ∧ ∃ loose, journal.state.Arranged loose ∧
      ((journal.state.placed key.ident).isSome → Attached journal.state.placed key.ident)
  | unlistRow journal _ | listRow journal _ _ => journal.state.Orderly
  | subtree forest f => forest.Orderly ∨ ∃ (before : Forest) (index : RowIndex), before.Orderly ∧
      before.placeOf f = some index ∧ forest = before.dropRow index f

theorem AtRest.orderly (h : AtRest journal) : journal.state.Orderly := by
  obtain ⟨-, outline, -, hstate⟩ := h
  exact ⟨_, hstate.arranged⟩

theorem Turn.orderly (h : Turn placing key arrival) : placing.journal.state.Orderly := by
  cases h with
  | delivered hrest _ _ => exact hrest.orderly
  | promoted hdraining _ => exact ⟨_, hdraining.shows.arranged⟩

theorem Orderly.walks_exact {forest : Forest} (h : forest.Orderly) : forest.Exact := by
  obtain ⟨loose, hstate⟩ := h
  exact hstate.walks_exact

/-- The walks are exact on the forest of a sound call, or would be but for the keys that leave. -/
theorem Call.Sound.exact_or_leaving {call : Call} (h : call.Sound) :
    call.state.Exact ∨ ∃ f, call = .subtree call.state f ∧ call.state.Leaving f := by
  cases call with
  | operation journal operation => exact .inl (AtRest.orderly h).walks_exact
  | add journal keys => exact .inl (AtRest.orderly h).walks_exact
  | merge journal batch => exact .inl h.1.orderly.walks_exact
  | deliver placing key => exact .inl h.1.orderly.walks_exact
  | drain steps placing => exact .inl h.1.walks_exact
  | place placing key arrival => exact .inl (Turn.orderly h).walks_exact
  | promoteWaiting placing issuer => exact .inl (h.elim AtRest.orderly And.left).walks_exact
  | promote placing orphan => exact .inl (Orderly.walks_exact h)
  | targetOf forest key => exact .inl (Orderly.walks_exact h)
  | relist journal former target key =>
    obtain ⟨-, loose, hstate, -⟩ := h
    exact .inl hstate.walks_exact
  | unlistRow journal f => exact .inl (Orderly.walks_exact h)
  | listRow journal parent key => exact .inl (Orderly.walks_exact h)
  | isAttached forest f => exact .inl (Orderly.walks_exact h)
  | isWithin forest f root => exact .inl (Orderly.walks_exact h)
  | subtree forest f =>
    rcases h with horderly | ⟨before, index, ⟨loose, hstate⟩, hindex, rfl⟩
    · exact .inl horderly.walks_exact
    · exact .inr ⟨f, rfl, hstate.leaving_dropRow hindex⟩

/-! ### Placing -/

theorem Draining.proceeds (h : Draining placing outline orphans p) (hproper : outline.Proper) :
    Proceeds placing := by
  intro key arrival rest hqueue
  rw [h.queue_eq] at hqueue
  cases orphans with
  | nil => contradiction
  | cons orphan orphans =>
    obtain ⟨hfirst, rfl⟩ := List.cons.inj hqueue
    cases hfirst
    exact .promoted h hproper

/-- When a key has been placed, it is the turn of the next. -/
theorem Turn.next (h : Turn placing key arrival) :
    (place placing key arrival).journal.state.Orderly ∧ Proceeds (place placing key arrival) := by
  cases h with
  | delivered hrest hqueue hnamed =>
    obtain ⟨hfaultless, outline, hproper, hstate⟩ := hrest
    have hdraining := draining_delivered hfaultless hstate hproper hnamed
    rw [← hqueue] at hdraining
    exact ⟨⟨_, hdraining.shows.arranged⟩, hdraining.proceeds (hproper.deliver hnamed)⟩
  | promoted hdraining hproper =>
    have hnext := hdraining.next hproper
    exact ⟨⟨_, hnext.shows.arranged⟩, hnext.proceeds hproper⟩

/-- Whoever waits for a key is at the top level when the key is delivered, and nobody waits for a
moving key. -/
theorem Turn.departing (h : Turn placing key arrival) : AtRest (unmark placing.journal key) ∨
    (unmark placing.journal key).state.Orderly ∧
      (unmark placing.journal key).state.awaiting key.ident = [] := by
  cases h with
  | delivered hrest _ _ =>
    obtain ⟨hfaultless, outline, hproper, hstate⟩ := hrest
    exact .inl ⟨hfaultless.update _, outline, hproper, hstate.shows_unmarked key.fingerprint⟩
  | promoted hdraining _ =>
    have hshows := hdraining.shows
    exact .inr ⟨⟨_, hshows.arranged.frame rfl rfl rfl rfl⟩,
      hshows.awaiting_eq_nil ⟨key, hshows.mem_keys.mpr (.inr List.mem_cons_self), rfl⟩⟩

/-- A key for which it is time to find a place can be reached, or has none. -/
theorem Turn.started (h : Turn placing key arrival) : (started placing key).journal.Faultless ∧
    ∃ loose, (started placing key).journal.state.Arranged loose ∧
      (((started placing key).journal.state.placed key.ident).isSome →
        Attached (started placing key).journal.state.placed key.ident) := by
  cases h with
  | delivered hrest hqueue _ =>
    obtain ⟨hfaultless, outline, hproper, hstate⟩ := hrest
    obtain ⟨hfaultless', hgathers, -⟩ := started_delivered hfaultless hstate hproper hqueue key
    exact ⟨hfaultless', _, hgathers.shows.arranged, hgathers.attached_self⟩
  | promoted hdraining _ =>
    obtain ⟨hfaultless, hreadies, -⟩ := @started_promoted _ key (dequeued _ _) _
      hdraining.faultless hdraining.shows hdraining.nodup
    refine ⟨hfaultless, _, hreadies.arranged, fun hsome => ?_⟩
    rw [hreadies.vacant] at hsome
    contradiction

/-- While the keys that wait for a key set out, the forest stays arranged. -/
theorem AtRest.orderly_promote (h : AtRest placing.journal) {front back : List Key} {orphan : Key}
    (hwaiting : placing.journal.state.waitingFor f = front ++ orphan :: back) :
    (front.foldl promote
      { placing with journal := forget placing.journal f }).journal.state.Orderly := by
  obtain ⟨hfaultless, outline, hproper, hstate⟩ := h
  rw [waitingFor_eq] at hwaiting
  have hsub : front ⊆ placing.journal.state.awaiting f.ident := by
    rw [hwaiting]
    exact List.subset_append_left _ _
  have hnodup := (hstate.waits.ascends f.ident).nodup_idents
  rw [hwaiting, List.map_append] at hnodup
  have hforgot := Shows.frame hstate (Shows.isMoving_iff hstate) (hstate.waits.arrive f)
  have hjournal : (forget placing.journal f).Faultless := hfaultless.update _
  obtain ⟨-, hshows, -⟩ := @foldl_promote_spec outline [] front _
    { placing with journal := forget placing.journal f } hjournal hforgot
    (fun orphan horphan => ⟨(hstate.waits.awaiting_iff.mp (hsub horphan)).1,
      hstate.up_awaiting hproper (hsub horphan)⟩) hnodup.of_append_left
  exact ⟨_, hshows.arranged⟩

theorem AtRest.deliver (h : AtRest placing.journal) (hnamed : key.ident ≠ []) :
    AtRest (deliver placing key).journal := by
  obtain ⟨hfaultless, outline, hproper, hstate⟩ := h
  obtain ⟨hfaultless', hsettled⟩ := deliver_spec hfaultless hstate hproper hnamed
  exact ⟨hfaultless', _, hproper.deliver hnamed, hsettled⟩

theorem AtRest.foldl_deliver {keys : List Key} (h : AtRest placing.journal)
    (hnamed : ∀ key ∈ keys, key.ident ≠ []) : AtRest (keys.foldl Forest.deliver placing).journal := by
  induction keys generalizing placing with
  | nil => exact h
  | cons key keys ih =>
    obtain ⟨hkey, hkeys⟩ := List.forall_mem_cons.mp hnamed
    exact ih (h.deliver hkey) hkeys

/-! ### Every call -/

/-- The calls of a sound call are sound. -/
theorem Calls.sound {caller call : Call} (h : Calls caller call) (hsound : caller.Sound) :
    call.Sound := by
  cases h with
  | add => exact hsound
  | addOne => exact hsound
  | set =>
    obtain ⟨hfaultless, outline, -, hstate⟩ := hsound
    obtain ⟨hcleared, hempty⟩ := clear_spec hfaultless hstate
    exact ⟨hcleared, _, Outline.proper_empty, hempty⟩
  | rebuild =>
    obtain ⟨hfaultless, outline, -, hstate⟩ := hsound
    obtain ⟨hcleared, hempty⟩ := clear_spec (hfaultless.log _) hstate
    exact ⟨hcleared, _, Outline.proper_empty, hempty⟩
  | merge =>
    obtain ⟨hfaultless, hsettled⟩ := hsound
    exact ⟨⟨hfaultless.log _, hsettled⟩, _, rfl⟩
  | deliver horder =>
    obtain ⟨hrest, keys, rfl⟩ := hsound
    have hlength := (Bucket.issuersFirst_perm (Bucket.ofBatch keys)).length_eq
    rw [Journal.check_of_holds (Bucket.isSorted_eq_true.mpr (Bucket.isSorted_ofBatch keys)),
      Journal.check_of_holds (beq_iff_eq.mpr hlength)]
    have hnamed := fun key => @named_of_mem_issuersFirst key keys
    rw [horder] at hnamed
    exact ⟨AtRest.foldl_deliver hrest fun key hkey => hnamed key (List.mem_append_left _ hkey),
      hnamed _ (by simp)⟩
  | drain =>
    obtain ⟨hrest, hnamed⟩ := hsound
    refine ⟨hrest.orderly, fun key arrival rest hqueue => ?_⟩
    obtain ⟨hfirst, rfl⟩ := List.cons.inj hqueue
    cases hfirst
    exact .delivered hrest rfl hnamed
  | place hqueue => exact hsound.2 _ _ _ hqueue
  | drainRest hqueue => exact (hsound.2 _ _ _ hqueue).next
  | promoteWaiting => exact Turn.departing hsound
  | targetOf =>
    obtain ⟨-, loose, hstate, -⟩ := Turn.started hsound
    exact ⟨loose, hstate⟩
  | relist => exact Turn.started hsound
  | promote hwaiting =>
    rcases hsound with hrest | ⟨-, hnobody⟩
    · exact hrest.orderly_promote hwaiting
    · rw [waitingFor_eq, hnobody] at hwaiting
      simp at hwaiting
  | departure _ =>
    simpa only [Call.Sound, Journal.state_announce, Journal.state_check] using hsound
  | leaveOldPlace _ _ =>
    obtain ⟨-, loose, hstate, -⟩ := hsound
    exact ⟨loose, hstate⟩
  | @listRow journal former target key =>
    obtain ⟨hfaultless, loose, hstate, hplaced⟩ := hsound
    rcases leaveOldPlace_spec target hfaultless hstate hplaced with
      ⟨hstays, -⟩ | ⟨-, harranged, -⟩
    · rw [hstays]
      exact ⟨loose, hstate.rewait former target key⟩
    · exact ⟨_, harranged.rewait former target key⟩
  | isAttached _ => exact hsound
  | isWithin _ _ => exact hsound
  | returning _ => exact .inl hsound
  | leaving hindex => exact .inr ⟨_, _, hsound, hindex, rfl⟩

theorem Leads.sound {caller call : Call} (h : Leads caller call) (hsound : caller.Sound) :
    call.Sound := by
  induction h with
  | refl => exact hsound
  | tail _ hlast ih => exact hlast.sound ih

/-- Whether the loops end with what walks answer to a call, if it is a call of them. -/
def Walks.Follows (walks : Walks) : Call → Prop
  | .isAttached forest f => forest.Climbs f (walks.isAttached forest f)
  | .isWithin forest f root => forest.Seeks root f (walks.isWithin forest f root)
  | .subtree forest f => forest.Collects [f] [] (walks.subtree forest f)
  | _ => True

/-- Where the loops end, whoever follows them answers as the bounded walks do. -/
theorem Traversed.agrees {call : Call} (h : call.state.Traversed) (hfollows : walks.Follows call) :
    walks.Agrees call := by
  cases call with
  | isAttached forest f => exact (h.climbs_iff f _).mp hfollows
  | isWithin forest f root => exact (h.seeks_iff f root _).mp hfollows
  | subtree forest f => exact (h.collects_iff f _).mp hfollows
  | _ => trivial

theorem Call.Sound.traversed {call : Call} (h : call.Sound) : call.state.Traversed := by
  rcases h.exact_or_leaving with hexact | ⟨f, -, hleaving⟩
  · exact hexact.toTraversed
  · exact hleaving.toTraversed

theorem atRest_run (operations : List Operation) : AtRest (Operation.run operations) := by
  obtain ⟨hfaultless, hstate⟩ := run_spec operations
  exact ⟨hfaultless, _, Outline.proper_afterRun operations, hstate⟩

/-- The walks are exact after every run, and on the forest of every call that an operation leads
to. Only what is listed below a key whose row is being taken out is asked for while it can be
reached no more and is stored still; then the walks are exact but for these keys. No walk is taken
but by these calls: if the loops end with other answers to them, an operation that goes by those
does the same. -/
theorem run_traverses (operations : List Operation) :
    (Operation.run operations : Journal Forest).state.Exact ∧ ∀ operation,
      (∀ call, Leads (.operation (Operation.run operations) operation) call →
        call.state.Exact ∨ ∃ f, call = .subtree call.state f ∧ call.state.Leaving f) ∧
      ∀ walks : Walks, (∀ call, Leads (.operation (Operation.run operations) operation) call →
          walks.Follows call) →
        walks.apply (Operation.run operations) operation =
          operation.apply (Operation.run operations) := by
  refine ⟨(atRest_run operations).orderly.walks_exact, fun operation => ⟨fun call hleads => ?_,
    fun walks hfollows => apply_congr fun call hleads => ?_⟩⟩
  · exact (hleads.sound (atRest_run operations)).exact_or_leaving
  · exact (hleads.sound (atRest_run operations)).traversed.agrees (hfollows call hleads)

/-- To look whether a key is stored is as good as to climb up from it. -/
theorem run_traverses_by_storage :
    let first := Key.ofFingerprint (.ofText "A")
    let second := (Key.ofFingerprint (.ofText "B")).issuedBy (.ofText "A")
    let third := (Key.ofFingerprint (.ofText "C")).issuedBy (.ofText "B")
    let journal : Journal Forest := Operation.run [.addOne second, .addOne third]
    let walks : Walks := ⟨fun forest f => forest.stored.has f, isWithin, subtree⟩
    (∀ call, Leads (.operation journal (.addOne first)) call → walks.Follows call) ∧
      walks.apply journal (.addOne first) = (Operation.addOne first).apply journal := by
  intro first second third journal walks
  obtain ⟨hcalls, happly⟩ := (run_traverses [.addOne second, .addOne third]).2 (.addOne first)
  have hfollows : ∀ call, Leads (.operation journal (.addOne first)) call →
      walks.Follows call := by
    intro call hleads
    cases call with
    | isAttached forest f =>
      rcases hcalls _ hleads with hexact | ⟨g, hcall, -⟩
      · refine (hexact.climbs_iff f _).mpr ?_
        rw [Bool.eq_iff_iff]
        exact (hexact.isAttached_iff f).symm
      · cases hcall
    | isWithin forest f root =>
      rcases hcalls _ hleads with hexact | ⟨g, hcall, -⟩
      · exact (hexact.seeks_iff f root _).mpr rfl
      · cases hcall
    | subtree forest f =>
      rcases hcalls _ hleads with hexact | ⟨g, -, hleaving⟩
      · exact (hexact.collects_iff f _).mpr rfl
      · exact (hleaving.collects_iff f _).mpr rfl
    | _ => trivial
  exact ⟨hfollows, happly walks hfollows⟩

/-- When the issuer of a waiting key arrives, the key leaves the top level, and with it a key that
is still stored when it is asked for, although it cannot be reached any more. -/
theorem not_exact_of_departure :
    let first := Key.ofFingerprint (.ofText "A")
    let second := (Key.ofFingerprint (.ofText "B")).issuedBy (.ofText "A")
    let third := (Key.ofFingerprint (.ofText "C")).issuedBy (.ofText "B")
    ∃ forest : Forest,
      Leads (.operation (Operation.run [.addOne second, .addOne third]) (.addOne first))
        (.subtree forest second.fingerprint) ∧
      forest.stored.has third.fingerprint = true ∧
      forest.isAttached third.fingerprint = false ∧ ¬ forest.Exact := by
  intro first second third
  have hstart : Leads (.operation (Operation.run [.addOne second, .addOne third]) (.addOne first))
      (.operation (Operation.run [.addOne second, .addOne third]) (.addOne first)) := .refl
  have hdelivers := ((hstart.tail .addOne).tail (.merge (by decide +kernel))).tail
    (@Calls.deliver _ _ [] [] first (by decide +kernel))
  have hsetsOut := (((hdelivers.tail .drain).tail (.place rfl)).tail .promoteWaiting).tail
    (@Calls.promote _ _ [] [] second (by decide +kernel))
  have hasks := (hsetsOut.tail (@Calls.departure _ _ (.top 0) (by decide +kernel))).tail
    (@Calls.leaving _ _ (.top 0) (by decide +kernel))
  have hlost : ∃ forest : Forest,
      Leads (.operation (Operation.run [.addOne second, .addOne third]) (.addOne first))
        (.subtree forest second.fingerprint) ∧
      forest.stored.has third.fingerprint = true ∧
      forest.isAttached third.fingerprint = false :=
    ⟨_, hasks, by decide +kernel, by decide +kernel⟩
  obtain ⟨forest, hasks, hstored, hattached⟩ := hlost
  refine ⟨forest, hasks, hstored, hattached, fun hexact => ?_⟩
  rw [← hexact.isAttached_iff, hattached] at hstored
  exact Bool.noConfusion hstored

end KeyForest.Forest
