import KeyForest.Proofs.Forest.Deliveries
import Mathlib.Logic.Relation

/-!
# What is called while a forest changes

The functions that change a forest call each other on forests that nobody sees: keys have lost
their places, and what is listed below them waits to be listed again with them. `Calls` says which
function calls which, and on what. No call is left out: what a function gives depends on nothing but
what the walks answer to the calls that it leads to, function by function up to a whole operation
(`apply_congr`).
-/
namespace KeyForest.Forest

variable {walks : Walks} {journal : Journal Forest} {placing : Placing} {forest : Forest}
  {keys : List Key} {batch : Bucket} {key orphan : Key} {arrival : Arrival}
  {f issuer : Fingerprint} {parent former : Option Fingerprint} {target : Target} {steps : ℕ}

/-- A call of one of the functions that change a forest. -/
inductive Call where
  | operation (journal : Journal Forest) (operation : Operation)
  | add (journal : Journal Forest) (keys : List Key)
  | merge (journal : Journal Forest) (batch : Bucket)
  | deliver (placing : Placing) (key : Key)
  | drain (steps : Nat) (placing : Placing)
  | place (placing : Placing) (key : Key) (arrival : Arrival)
  | promoteWaiting (placing : Placing) (issuer : Fingerprint)
  | promote (placing : Placing) (orphan : Key)
  | targetOf (forest : Forest) (key : Key)
  | relist (journal : Journal Forest) (former : Option Fingerprint) (target : Target) (key : Key)
  | unlistRow (journal : Journal Forest) (fingerprint : Fingerprint)
  | listRow (journal : Journal Forest) (parent : Option Fingerprint) (key : Key)
  | isAttached (forest : Forest) (fingerprint : Fingerprint)
  | isWithin (forest : Forest) (fingerprint root : Fingerprint)
  | subtree (forest : Forest) (fingerprint : Fingerprint)

/-- The forest on which a function is called. -/
def Call.state : Call → Forest
  | operation journal _ | add journal _ | merge journal _ => journal.state
  | deliver placing _ | drain _ placing | place placing _ _ => placing.journal.state
  | promoteWaiting placing _ | promote placing _ => placing.journal.state
  | relist journal _ _ _ | unlistRow journal _ | listRow journal _ _ => journal.state
  | targetOf forest _ | isAttached forest _ | isWithin forest _ _ | subtree forest _ => forest

/-- Takes away the mark that a key is moving. -/
def unmark (journal : Journal Forest) (key : Key) : Journal Forest :=
  journal.update fun forest => { forest with inTransit := forest.inTransit.erase key.fingerprint }

/-- Lets no key wait for an issuer. -/
def forget (journal : Journal Forest) (issuer : Fingerprint) : Journal Forest :=
  journal.update fun forest => { forest with waiting := forest.waiting.erase issuer }

/-- One function calls another. In loops, what has been done before is what the first elements of
the list have led to. -/
inductive Calls : Call → Call → Prop
  | add {journal : Journal Forest} {keys : List Key} :
      Calls (.operation journal (.add keys)) (.add journal keys)
  | addOne {journal : Journal Forest} {key : Key} :
      Calls (.operation journal (.addOne key)) (.add journal [key])
  | set {journal : Journal Forest} {keys : List Key} :
      Calls (.operation journal (.set keys)) (.add (clear journal) keys)
  /-- When a key with children is removed, the other keys are added anew. -/
  | rebuild {journal : Journal Forest} {f : Fingerprint} {left : Bucket} :
      left = (journal.state.stored.filter fun key => !(key.fingerprint == f)) →
      journal.state.stored.has f = true → (journal.state.childrenOf f).isEmpty = false →
      Calls (.operation journal (.remove f))
        (.add (clear (journal.log (.rebuildingForest f left.length))) left)
  | merge {journal : Journal Forest} {keys : List Key} : (Bucket.ofBatch keys).isEmpty = false →
      Calls (.add journal keys)
        (.merge (journal.log (.addingKeys (Bucket.ofBatch keys).length)) (Bucket.ofBatch keys))
  | deliver {journal : Journal Forest} {batch : Bucket} {front back : List Key} {key : Key} :
      Bucket.issuersFirst batch = front ++ key :: back →
      Calls (.merge journal batch)
        (.deliver (front.foldl deliver
          ⟨(journal.check .sortedBatch (Bucket.isSorted batch)).check .completeOrder
            ((Bucket.issuersFirst batch).length == batch.length), [], []⟩) key)
  | drain {placing : Placing} {key : Key} :
      Calls (.deliver placing key) (.drain (Table.total placing.journal.state.waiting + 1)
        { placing with queue := [(key, .delivered)] })
  | place {steps : Nat} {placing : Placing} {key : Key} {arrival : Arrival}
      {rest : List (Key × Arrival)} : placing.queue = (key, arrival) :: rest →
      Calls (.drain (steps + 1) placing) (.place { placing with queue := rest } key arrival)
  | drainRest {steps : Nat} {placing : Placing} {key : Key} {arrival : Arrival}
      {rest : List (Key × Arrival)} : placing.queue = (key, arrival) :: rest →
      Calls (.drain (steps + 1) placing)
        (.drain steps (Forest.place { placing with queue := rest } key arrival))
  | promoteWaiting {placing : Placing} {key : Key} {arrival : Arrival} :
      Calls (.place placing key arrival)
        (.promoteWaiting { placing with journal := unmark placing.journal key } key.fingerprint)
  | targetOf {placing : Placing} {key : Key} {arrival : Arrival} :
      Calls (.place placing key arrival) (.targetOf (started placing key).journal.state key)
  | relist {placing : Placing} {key : Key} {arrival : Arrival} :
      Calls (.place placing key arrival)
        (.relist (started placing key).journal ((started placing key).journal.state.formerIssuer key)
          ((started placing key).journal.state.targetOf key) key)
  | promote {placing : Placing} {issuer : Fingerprint} {front back : List Key} {orphan : Key} :
      placing.journal.state.waitingFor issuer = front ++ orphan :: back →
      Calls (.promoteWaiting placing issuer)
        (.promote (front.foldl Forest.promote
          { placing with journal := forget placing.journal issuer }) orphan)
  | departure {placing : Placing} {orphan : Key} {index : RowIndex} :
      placing.journal.state.placeOf orphan.fingerprint = some index →
      Calls (.promote placing orphan)
        (.unlistRow ((placing.journal.check .waitingAtTop index.parent.isNone).announce
          (.aboutToMove index.parent index.row)) orphan.fingerprint)
  /-- A key leaves its old place only for another one. -/
  | leaveOldPlace {journal : Journal Forest} {former parent : Option Fingerprint} {target : Target}
      {key : Key} : journal.state.parents.get? key.fingerprint = some parent →
      sameParent parent target.parent = false →
      Calls (.relist journal former target key) (.unlistRow journal key.fingerprint)
  | listRow {journal : Journal Forest} {former : Option Fingerprint} {target : Target} {key : Key} :
      Calls (.relist journal former target key)
        (.listRow ((Forest.leaveOldPlace journal key.fingerprint target).update
          (·.rewait former target key)) target.parent key)
  | isAttached {forest : Forest} {key : Key} {issuer : Fingerprint} :
      key.cleanIssuer = some issuer → Calls (.targetOf forest key) (.isAttached forest issuer)
  | isWithin {forest : Forest} {key : Key} {issuer : Fingerprint} :
      key.cleanIssuer = some issuer → forest.isAttached issuer = true →
      Calls (.targetOf forest key) (.isWithin forest issuer key.fingerprint)
  /-- What is listed below a key that returns is asked for before its row is put in. -/
  | returning {journal : Journal Forest} {parent : Option Fingerprint} {key : Key} {row : Nat} :
      (journal.state.rows parent).search key.fingerprint = .free row →
      Calls (.listRow journal parent key) (.subtree journal.state key.fingerprint)
  /-- What is listed below a key that leaves is asked for once its row is taken out. -/
  | leaving {journal : Journal Forest} {f : Fingerprint} {index : RowIndex} :
      journal.state.placeOf f = some index →
      Calls (.unlistRow journal f) (.subtree (journal.state.dropRow index f) f)

/-- One function has called another, which has called another, and so on. -/
abbrev Leads := Relation.ReflTransGen Calls

/-! ### Functions depend on nothing but the calls they make -/

/-- Whether walks answer a call as the bounded walks do, if it is a call of them. -/
def Walks.Agrees (walks : Walks) : Call → Prop
  | .isAttached forest f => walks.isAttached forest f = forest.isAttached f
  | .isWithin forest f root => walks.isWithin forest f root = forest.isWithin f root
  | .subtree forest f => walks.subtree forest f = forest.subtree f
  | _ => True

/-- Whether walks answer as the bounded walks do wherever a call leads to. -/
def Walks.AgreesFrom (walks : Walks) (call : Call) : Prop :=
  ∀ asked, Leads call asked → walks.Agrees asked

theorem Walks.AgreesFrom.of_calls {caller call : Call} (h : walks.AgreesFrom caller)
    (hcall : Calls caller call) : walks.AgreesFrom call :=
  fun asked hasked => h asked (.head hcall hasked)

theorem Walks.AgreesFrom.agrees {caller call : Call} (h : walks.AgreesFrom caller)
    (hcall : Calls caller call) : walks.Agrees call := h.of_calls hcall call .refl

/-- A loop through a list is another one if they agree on each element, after those before it. -/
theorem foldl_congr_prefix {α β : Type} {step other : β → α → β} {xs : List α} {start : β}
    (h : ∀ front x back, xs = front ++ x :: back →
      other (front.foldl step start) x = step (front.foldl step start) x) :
    xs.foldl other start = xs.foldl step start := by
  induction xs generalizing start with
  | nil => rfl
  | cons x xs ih =>
    have hfirst : other start x = step start x := h [] x xs rfl
    rw [List.foldl_cons, List.foldl_cons, hfirst]
    refine ih fun front y back hxs => ?_
    exact h (x :: front) y back (congrArg (x :: ·) hxs)

theorem targetOf_congr (h : walks.AgreesFrom (.targetOf forest key)) :
    @targetOf ⟨walks⟩ forest key = targetOf forest key := by
  unfold targetOf
  cases hissuer : key.cleanIssuer with
  | none => rfl
  | some issuer =>
    have hattached : walks.isAttached forest issuer = forest.isAttached issuer :=
      h.agrees (.isAttached hissuer)
    -- Whether the issuer is below the key is asked only if the issuer can be reached.
    have hasked : (walks.isAttached forest issuer &&
        !walks.isWithin forest issuer key.fingerprint) =
        (forest.isAttached issuer && !forest.isWithin issuer key.fingerprint) := by
      rw [hattached]
      by_cases hcase : forest.isAttached issuer = true
      · have hwithin : walks.isWithin forest issuer key.fingerprint =
            forest.isWithin issuer key.fingerprint := h.agrees (.isWithin hissuer hcase)
        rw [hwithin]
      · simp [hcase]
    simp only [hasked, isAttached_walks, isWithin_walks]

theorem listRow_congr (h : walks.AgreesFrom (.listRow journal parent key)) :
    @listRow ⟨walks⟩ journal parent key = listRow journal parent key := by
  unfold listRow
  cases hslot : (journal.state.rows parent).search key.fingerprint with
  | taken row => rfl
  | free row =>
    have hbelow : walks.subtree journal.state key.fingerprint =
        journal.state.subtree key.fingerprint := h.agrees (.returning hslot)
    simp only [Journal.update, Journal.state_announce, bringIn, subtree_walks, hbelow]

theorem unlistRow_congr (h : walks.AgreesFrom (.unlistRow journal f)) :
    @unlistRow ⟨walks⟩ journal f = unlistRow journal f := by
  unfold unlistRow
  cases hindex : journal.state.placeOf f with
  | none => rfl
  | some index =>
    have hbelow : walks.subtree (journal.state.dropRow index f) f =
        (journal.state.dropRow index f).subtree f := h.agrees (.leaving hindex)
    simp only [Journal.update, Journal.state_announce, takeOut, subtree_walks, hbelow]

theorem promote_congr (h : walks.AgreesFrom (.promote placing orphan)) :
    @promote ⟨walks⟩ placing orphan = promote placing orphan := by
  unfold promote
  cases hindex : placing.journal.state.placeOf orphan.fingerprint with
  | none => rfl
  | some index => simp only [unlistRow_congr (h.of_calls (.departure hindex))]

theorem promoteWaiting_congr (h : walks.AgreesFrom (.promoteWaiting placing issuer)) :
    @promoteWaiting ⟨walks⟩ placing issuer = promoteWaiting placing issuer :=
  foldl_congr_prefix fun _ _ _ hwaiting => promote_congr (h.of_calls (.promote hwaiting))

theorem leaveOldPlace_congr (h : walks.AgreesFrom (.relist journal former target key)) :
    @leaveOldPlace ⟨walks⟩ journal key.fingerprint target =
      leaveOldPlace journal key.fingerprint target := by
  unfold leaveOldPlace
  cases hparent : journal.state.parents.get? key.fingerprint with
  | none => rfl
  | some parent =>
    dsimp only
    split
    · rfl
    · rename_i hmoves
      rw [Bool.not_eq_true] at hmoves
      rw [unlistRow_congr (h.of_calls (.leaveOldPlace hparent hmoves))]

theorem relist_congr (h : walks.AgreesFrom (.relist journal former target key)) :
    @relist ⟨walks⟩ journal former target key = relist journal former target key := by
  have hlist := listRow_congr (h.of_calls .listRow)
  unfold relist
  rw [leaveOldPlace_congr h]
  exact hlist

theorem place_congr (h : walks.AgreesFrom (.place placing key arrival)) :
    @place ⟨walks⟩ placing key arrival = place placing key arrival := by
  have hstarted := promoteWaiting_congr (h.of_calls .promoteWaiting)
  have htarget := targetOf_congr (h.of_calls .targetOf)
  have hlisted := relist_congr (h.of_calls .relist)
  simp only [started, formerIssuer, unmark] at hstarted htarget hlisted
  simp only [place, hstarted, htarget, hlisted]

theorem drain_congr (h : walks.AgreesFrom (.drain steps placing)) :
    @drain ⟨walks⟩ steps placing = drain steps placing := by
  induction steps generalizing placing with
  | zero => rfl
  | succ steps ih =>
    cases hqueue : placing.queue with
    | nil => simp only [drain, hqueue]
    | cons entry rest =>
      simp only [drain, hqueue]
      rw [place_congr (h.of_calls (.place hqueue))]
      exact ih (h.of_calls (.drainRest hqueue))

theorem deliver_congr (h : walks.AgreesFrom (.deliver placing key)) :
    @deliver ⟨walks⟩ placing key = deliver placing key := drain_congr (h.of_calls .drain)

theorem merge_congr (h : walks.AgreesFrom (.merge journal batch)) :
    @merge ⟨walks⟩ journal batch = merge journal batch := by
  have hdelivered := foldl_congr_prefix fun _ _ _ horder =>
    deliver_congr (h.of_calls (.deliver horder))
  simp only [merge, hdelivered]

theorem add_congr (h : walks.AgreesFrom (.add journal keys)) :
    journal.addBy (@merge ⟨walks⟩) keys = journal.addBy merge keys := by
  simp only [Journal.addBy]
  split
  · rfl
  · rename_i hsome
    rw [Bool.not_eq_true] at hsome
    exact merge_congr (h.of_calls (.merge hsome))

theorem remove_congr (h : walks.AgreesFrom (.operation journal (.remove f))) :
    @remove ⟨walks⟩ journal f = remove journal f := by
  simp only [remove]
  split
  · rfl
  · split
    · rfl
    · rename_i hstored hchildren
      rw [Bool.not_eq_true', Bool.not_eq_false] at hstored
      rw [Bool.not_eq_true] at hchildren
      simp only [rebuildWithout, add_congr (h.of_calls (.rebuild rfl hstored hchildren))]

/-- What an operation does if the questions are answered by certain walks. -/
def Walks.apply (walks : Walks) : Journal Forest → Operation → Journal Forest :=
  @Operation.apply Forest (@keyList ⟨walks⟩)

/-- What an operation does depends on nothing but what the walks answer to the calls it leads to. -/
theorem apply_congr {operation : Operation}
    (h : walks.AgreesFrom (.operation journal operation)) :
    walks.apply journal operation = operation.apply journal := by
  simp only [Walks.apply]
  cases operation with
  | add keys =>
    simp only [Operation.apply, KeyList.add, KeyList.merge]
    rw [add_congr (h.of_calls .add)]
  | addOne key =>
    simp only [Operation.apply, KeyList.addOne, KeyList.add, KeyList.merge]
    rw [add_congr (h.of_calls .addOne)]
  | set keys =>
    simp only [Operation.apply, KeyList.set, KeyList.add, KeyList.merge, KeyList.clear]
    rw [add_congr (h.of_calls .set)]
  | remove f =>
    simp only [Operation.apply, KeyList.remove]
    rw [remove_congr h]
  | clear => simp only [Operation.apply, KeyList.clear]

end KeyForest.Forest
