import KeyForest.Forest.Update
import KeyForest.Proofs.Respelling

/-!
# Forests in other spellings

Nothing that is done to a forest depends on the spelling of fingerprints: neither where a key is
placed, nor which row is taken for an issuer, nor what is told of it. One lemma for each function
says that it answers for a respelled forest what it answers for the forest, respelled.
-/
namespace KeyForest.Respelling

open Forest

variable (r : Respelling)

def forest (forest : Forest) : Forest where
  stored := forest.stored.map r.key
  topLevel := forest.topLevel.map r.key
  children := r.table (List.map r.key) forest.children
  waiting := r.table (List.map r.key) forest.waiting
  parents := r.table r.parent forest.parents
  inTransit := r.table id forest.inTransit

def membership : Membership → Membership
  | .unseen => .unseen
  | .topLevel => .topLevel
  | .childOf parent => .childOf (r.spell parent)
  | .waitingFor issuer => .waitingFor (r.spell issuer)

/-! ### Looking at a forest -/

section Looking

variable (forest : Forest) (f : Fingerprint) (parent : Option Fingerprint)

@[simp] theorem stored_forest : (r.forest forest).stored = forest.stored.map r.key := rfl

@[simp] theorem topLevel_forest : (r.forest forest).topLevel = forest.topLevel.map r.key := rfl

theorem children_forest :
    (r.forest forest).children = r.table (List.map r.key) forest.children := rfl

theorem waiting_forest :
    (r.forest forest).waiting = r.table (List.map r.key) forest.waiting := rfl

theorem parents_forest : (r.forest forest).parents = r.table r.parent forest.parents := rfl

@[simp] theorem get?_parents_forest :
    (r.forest forest).parents.get? (r.spell f) = (forest.parents.get? f).map r.parent :=
  r.get?_table r.parent forest.parents f

@[simp] theorem length_parents_forest :
    (r.forest forest).parents.length = forest.parents.length :=
  r.length_table r.parent forest.parents

@[simp] theorem has_inTransit_forest :
    (r.forest forest).inTransit.has (r.spell f) = forest.inTransit.has f :=
  r.has_table id forest.inTransit f

@[simp] theorem childrenOf_forest :
    (r.forest forest).childrenOf (r.spell f) = (forest.childrenOf f).map r.key := by
  simp only [childrenOf, children_forest, get?_table]
  cases forest.children.get? f <;> rfl

@[simp] theorem waitingFor_forest :
    (r.forest forest).waitingFor (r.spell f) = (forest.waitingFor f).map r.key := by
  simp only [waitingFor, waiting_forest, get?_table]
  cases forest.waiting.get? f <;> rfl

@[simp] theorem rows_forest :
    (r.forest forest).rows (r.parent parent) = (forest.rows parent).map r.key := by
  cases parent with
  | none => rfl
  | some f => exact r.childrenOf_forest forest f

@[simp] theorem isPlaced_forest :
    (r.forest forest).isPlaced (r.spell f) = forest.isPlaced f :=
  r.has_table r.parent forest.parents f

@[simp] theorem placeOf_forest :
    (r.forest forest).placeOf (r.spell f) = (forest.placeOf f).map r.index := by
  simp only [placeOf, get?_parents_forest]
  cases forest.parents.get? f with
  | none => rfl
  | some parent =>
    simp only [Option.map_some, Option.bind_eq_bind, Option.bind_some, rows_forest, rowOf?_map]
    cases (forest.rows parent).rowOf? f <;> rfl

theorem keyAt_forest (index : RowIndex) :
    Listing.keyAt (r.forest forest) (r.index index) = (Listing.keyAt forest index).map r.key := by
  have hrows := r.rows_forest forest index.parent
  exact (congrArg (·[index.row]?) hrows).trans List.getElem?_map

/-- The issuer of a key that may be stored. -/
theorem issuer_lookup_forest :
    ((r.forest forest).stored.lookup (r.spell f)).bind (·.cleanIssuer) =
      r.parent ((forest.stored.lookup f).bind (·.cleanIssuer)) := by
  rw [stored_forest, lookup_map]
  cases forest.stored.lookup f with
  | none => rfl
  | some key => exact r.cleanIssuer_key key

theorem membership_forest :
    (r.forest forest).membership (r.spell f) = r.membership (forest.membership f) := by
  simp only [Forest.membership, get?_parents_forest, issuer_lookup_forest]
  cases forest.parents.get? f with
  | none => rfl
  | some parent =>
    cases parent with
    | some parent => rfl
    | none =>
      simp only [Option.map_some, parent_none]
      cases (forest.stored.lookup f).bind (·.cleanIssuer) with
      | none => rfl
      | some issuer =>
        simp only [parent_some, waitingFor_forest, has_map]
        split <;> rfl

@[simp] theorem reachesTop_forest (steps : ℕ) :
    (r.forest forest).reachesTop steps (r.spell f) = forest.reachesTop steps f := by
  induction steps generalizing f with
  | zero => rfl
  | succ steps ih =>
    simp only [reachesTop, get?_parents_forest]
    cases forest.parents.get? f with
    | none => rfl
    | some parent =>
      cases parent with
      | none => rfl
      | some parent => exact ih parent

@[simp] theorem isAttached_forest :
    (r.forest forest).isAttached (r.spell f) = forest.isAttached f := by
  rw [isAttached, length_parents_forest, reachesTop_forest, isAttached]

theorem meets_forest (root : Fingerprint) (steps : ℕ) :
    (r.forest forest).meets (r.spell root) steps (r.spell f) = forest.meets root steps f := by
  induction steps generalizing f with
  | zero => rfl
  | succ steps ih =>
    simp only [meets, get?_parents_forest, beq_spell]
    cases forest.parents.get? f with
    | none => rfl
    | some parent =>
      cases parent with
      | none => rfl
      | some parent =>
        simp only [Option.map_some, parent_some, ih]

@[simp] theorem isWithin_forest (root : Fingerprint) :
    (r.forest forest).isWithin (r.spell f) (r.spell root) = forest.isWithin f root := by
  rw [isWithin, length_parents_forest, meets_forest, isWithin]

theorem below_forest (levels : ℕ) :
    (r.forest forest).below levels (r.spell f) = (forest.below levels f).map r.key := by
  induction levels generalizing f with
  | zero => rfl
  | succ levels ih =>
    simp only [below, childrenOf_forest, ← List.map_reverse, List.flatMap_map, List.map_append,
      List.map_flatMap, fingerprint_key, ih]

@[simp] theorem subtree_forest :
    (r.forest forest).subtree (r.spell f) = (forest.subtree f).map r.key := by
  rw [subtree, length_parents_forest, below_forest, subtree]

end Looking

/-! ### Changing a forest -/

section Changing

variable (forest : Forest) (f : Fingerprint) (parent : Option Fingerprint) (key : Key)
  (keys : Bucket)

def target : Target → Target
  | .topLevel => .topLevel
  | .under issuer => .under (r.spell issuer)
  | .orphan issuer => .orphan (r.spell issuer)

@[simp] theorem parent_target (target : Target) :
    (r.target target).parent = r.parent target.parent := by
  cases target <;> rfl

@[simp] theorem isOrphanOf_target (target : Target) :
    (r.target target).isOrphanOf (r.spell f) = target.isOrphanOf f := by
  cases target <;> simp only [Respelling.target, Target.isOrphanOf, beq_spell]

@[simp] theorem setRows_forest :
    (r.forest forest).setRows (r.parent parent) (keys.map r.key) =
      r.forest (forest.setRows parent keys) := by
  cases parent with
  | none => rfl
  | some f =>
    simp only [parent_some, setRows, List.isEmpty_map, Respelling.forest,
      erase_table, put_table]
    split <;> rfl

@[simp] theorem targetOf_forest :
    (r.forest forest).targetOf (r.key key) = r.target (forest.targetOf key) := by
  simp only [targetOf, cleanIssuer_key]
  cases key.cleanIssuer with
  | none => rfl
  | some issuer =>
    simp only [parent_some, fingerprint_key, isAttached_walks, isAttached_forest, isWithin_walks,
      isWithin_forest, isPlaced_forest, has_inTransit_forest]
    split
    · rfl
    · split <;> rfl

@[simp] theorem detach_forest (index : RowIndex) :
    (r.forest forest).detach (r.index index) (r.spell f) = r.forest (forest.detach index f) := by
  have herase (forest : Forest) :
      { r.forest forest with parents := (r.forest forest).parents.erase (r.spell f) } =
        r.forest { forest with parents := forest.parents.erase f } := by
    simp only [Respelling.forest, erase_table]
  simp only [detach, parent_index, row_index, rows_forest, List.eraseIdx_map, setRows_forest]
  exact herase _

@[simp] theorem forgetOrphan_forest (issuer : Fingerprint) :
    (r.forest forest).forgetOrphan (r.spell issuer) (r.spell f) =
      r.forest (forest.forgetOrphan issuer f) := by
  simp only [forgetOrphan, waitingFor_forest, erase_map, List.isEmpty_map]
  split
  · simp only [Respelling.forest, erase_table]
  · simp only [Respelling.forest, put_table]

@[simp] theorem await_forest (issuer : Fingerprint) :
    (r.forest forest).await (r.spell issuer) (r.key key) = r.forest (forest.await issuer key) := by
  simp only [await, waitingFor_forest, put_map]
  simp only [Respelling.forest, put_table]

@[simp] theorem endWait_forest (issuer : Option Fingerprint) :
    (r.forest forest).endWait (r.parent issuer) (r.spell f) =
      r.forest (forest.endWait issuer f) := by
  cases issuer with
  | none => rfl
  | some issuer => exact r.forgetOrphan_forest forest f issuer

@[simp] theorem rewait_forest (former : Option Fingerprint) (target : Target) :
    (r.forest forest).rewait (r.parent former) (r.target target) (r.key key) =
      r.forest (forest.rewait former target key) := by
  have hleft : ((r.parent former).filter fun issuer => !(r.target target).isOrphanOf issuer) =
      r.parent (former.filter fun issuer => !target.isOrphanOf issuer) := by
    simp only [Respelling.parent, Option.filter_map, Function.comp_def, isOrphanOf_target]
  simp only [rewait, hleft, fingerprint_key, endWait_forest]
  cases target with
  | orphan issuer => exact r.await_forest _ key issuer
  | topLevel | under _ => rfl

@[simp] theorem store_forest :
    (r.forest forest).store (r.parent parent) (r.key key) =
      r.forest (forest.store parent key) := by
  simp only [store, Respelling.forest, fingerprint_key, put_map, put_table]

@[simp] theorem dropRow_forest (index : RowIndex) :
    (r.forest forest).dropRow (r.index index) (r.spell f) = r.forest (forest.dropRow index f) := by
  simp only [dropRow, detach_forest, stored_forest, erase_map]
  rfl

@[simp] theorem takeOut_forest (index : RowIndex) :
    (r.forest forest).takeOut (r.index index) (r.spell f) = r.forest (forest.takeOut index f) := by
  simp only [takeOut, dropRow_forest, subtree_walks, subtree_forest, stored_forest, foldl_erase_map]
  rfl

@[simp] theorem putRow_forest (slot : Slot) :
    (r.forest forest).putRow (r.parent parent) (r.key key) slot =
      r.forest (forest.putRow parent key slot) := by
  simp only [putRow, rows_forest, putAt_map, setRows_forest, store_forest]

@[simp] theorem bringIn_forest (slot : Slot) :
    (r.forest forest).bringIn (r.parent parent) (r.key key) slot =
      r.forest (forest.bringIn parent key slot) := by
  simp only [bringIn, fingerprint_key, subtree_walks, subtree_forest, putRow_forest, stored_forest,
    foldl_put_map]
  rfl

theorem dropLeaf_forest (index : RowIndex) (issuer : Option Fingerprint) :
    (r.forest forest).dropLeaf (r.index index) (r.spell f) (r.parent issuer) =
      r.forest (forest.dropLeaf index f issuer) := by
  rw [dropLeaf, dropRow_forest, endWait_forest, dropLeaf]

end Changing

/-! ### Placing keys -/

section Placing

variable (journal : Journal Forest) (f : Fingerprint) (key : Key)

theorem listRow_journal (parent : Option Fingerprint) :
    listRow (r.journal r.forest journal) (r.parent parent) (r.key key) =
      (r.journal r.forest (listRow journal parent key).1, (listRow journal parent key).2) := by
  simp only [listRow, state_journal, rows_forest, fingerprint_key, search_map]
  cases (journal.state.rows parent).search key.fingerprint with
  | taken row =>
    have hput := r.update_journal r.forest journal (·.putRow parent key (.taken row))
      (·.putRow (r.parent parent) (r.key key) (.taken row)) (r.putRow_forest _ _ _ _)
    exact congrArg (fun journal => (journal.announce (.dataChanged (r.parent parent) row), row))
      hput
  | free row =>
    have hbring := r.update_journal r.forest (journal.announce (.aboutToInsert parent row row))
      (·.bringIn parent key (.free row)) (·.bringIn (r.parent parent) (r.key key) (.free row))
      (r.bringIn_forest _ _ _ _)
    exact congrArg (fun journal => (journal.announce (.inserted (r.parent parent) row row), row))
      hbring

theorem unlistRow_journal :
    unlistRow (r.journal r.forest journal) (r.spell f) =
      (r.journal r.forest (unlistRow journal f).1, (unlistRow journal f).2.map r.key) := by
  simp only [unlistRow, state_journal, placeOf_forest]
  cases journal.state.placeOf f with
  | none => rfl
  | some index =>
    have htake := r.update_journal r.forest
      (journal.announce (.aboutToRemove index.parent index.row index.row))
      (·.takeOut index f) (·.takeOut (r.index index) (r.spell f)) (r.takeOut_forest _ _ _)
    simp only [Option.map_some, keyAt_forest]
    exact congrArg (fun taken : Journal Forest =>
      (taken.announce (.removed (r.parent index.parent) index.row index.row),
        (Listing.keyAt journal.state index).map r.key)) htake

def placing (placing : Placing) : Placing where
  journal := r.journal r.forest placing.journal
  queue := placing.queue.map fun entry => (r.key entry.1, entry.2)
  touched := r.table id placing.touched

theorem depart_forest (forest : Forest) :
    { r.forest forest with inTransit := (r.forest forest).inTransit.put (r.spell f) () } =
      r.forest { forest with inTransit := forest.inTransit.put f () } := by
  have hput : (r.table id forest.inTransit).put (r.spell f) () =
    r.table id (forest.inTransit.put f ()) := r.put_table id forest.inTransit f ()
  simp only [Respelling.forest, hput]

theorem arrive_forest (forest : Forest) :
    { r.forest forest with inTransit := (r.forest forest).inTransit.erase (r.spell f) } =
      r.forest { forest with inTransit := forest.inTransit.erase f } := by
  simp only [Respelling.forest, erase_table]

theorem unawait_forest (forest : Forest) :
    { r.forest forest with waiting := (r.forest forest).waiting.erase (r.spell f) } =
      r.forest { forest with waiting := forest.waiting.erase f } := by
  simp only [Respelling.forest, erase_table]

variable (placing : Placing)

theorem promote_placing (orphan : Key) :
    promote (r.placing placing) (r.key orphan) = r.placing (promote placing orphan) := by
  simp only [promote, Respelling.placing, state_journal, fingerprint_key, placeOf_forest]
  cases placing.journal.state.placeOf orphan.fingerprint with
  | none => rfl
  | some index =>
    simp only [Option.map_some, parent_index, row_index, isNone_parent, check_journal]
    have hunlist := r.unlistRow_journal
      ((placing.journal.check .waitingAtTop index.parent.isNone).announce
        (.aboutToMove index.parent index.row)) orphan.fingerprint
    rw [← announce_journal] at hunlist
    simp only [change] at hunlist
    rw [hunlist]
    generalize unlistRow _ orphan.fingerprint = result
    obtain ⟨journal, _ | key⟩ := result
    · rfl
    · have hdepart := r.update_journal r.forest journal
        (fun forest => { forest with inTransit := forest.inTransit.put key.fingerprint () })
        (fun forest => { forest with
          inTransit := forest.inTransit.put (r.spell key.fingerprint) () })
        (r.depart_forest key.fingerprint journal.state)
      simp only [Option.map_some, fingerprint_key, hdepart, List.map_append, List.map_cons,
        List.map_nil]

theorem foldl_promote_placing (orphans : List Key) :
    (orphans.map r.key).foldl promote (r.placing placing) =
      r.placing (orphans.foldl promote placing) :=
  foldl_map_hom r.promote_placing placing orphans

theorem promoteWaiting_placing (issuer : Fingerprint) :
    promoteWaiting (r.placing placing) (r.spell issuer) =
      r.placing (promoteWaiting placing issuer) := by
  have hwaiting : (r.placing placing).journal.state.waitingFor (r.spell issuer) =
      (placing.journal.state.waitingFor issuer).map r.key := r.waitingFor_forest _ issuer
  have herase := r.update_journal r.forest placing.journal
    (fun forest => { forest with waiting := forest.waiting.erase issuer })
    (fun forest => { forest with waiting := forest.waiting.erase (r.spell issuer) })
    (r.unawait_forest issuer placing.journal.state)
  rw [promoteWaiting, hwaiting, promoteWaiting, ← foldl_promote_placing]
  exact congrArg (fun journal => ((placing.journal.state.waitingFor issuer).map r.key).foldl promote
    { r.placing placing with journal }) herase

theorem touch_forest (forest : Forest) (steps : ℕ) (parent : Option Fingerprint)
    (touched : Table Unit) :
    touch (r.forest forest) steps (r.parent parent) (r.table id touched) =
      r.table id (touch forest steps parent touched) := by
  induction steps generalizing parent touched with
  | zero => rfl
  | succ steps ih =>
    cases parent with
    | none => rfl
    | some f =>
      have hput : (r.table id touched).put (r.spell f) () = r.table id (touched.put f ()) :=
        r.put_table id touched f ()
      have hparent : ((forest.parents.get? f).map r.parent).join =
          r.parent (forest.parents.get? f).join := by
        cases forest.parents.get? f <;> rfl
      simp only [touch, parent_some, has_table, get?_parents_forest, hput, hparent, ih]
      split <;> rfl

theorem leaveOldPlace_journal (target : Target) :
    leaveOldPlace (r.journal r.forest journal) (r.spell f) (r.target target) =
      r.journal r.forest (leaveOldPlace journal f target) := by
  simp only [leaveOldPlace, state_journal, get?_parents_forest]
  cases journal.state.parents.get? f with
  | none => rfl
  | some parent =>
    simp only [Option.map_some, parent_target, sameParent_parent, unlistRow_journal]
    split <;> rfl

theorem relist_journal (former : Option Fingerprint) (target : Target) :
    relist (r.journal r.forest journal) (r.parent former) (r.target target) (r.key key) =
      (r.journal r.forest (relist journal former target key).1,
        (relist journal former target key).2) := by
  have hrewait := r.update_journal r.forest (leaveOldPlace journal key.fingerprint target)
    (·.rewait former target key) (·.rewait (r.parent former) (r.target target) (r.key key))
    (r.rewait_forest _ _ _ _)
  simp only [relist, fingerprint_key, leaveOldPlace_journal, hrewait, parent_target,
    listRow_journal]

/-- What is ready when the keys that wait for a key have left the top level. -/
theorem ready_placing :
    promoteWaiting { r.placing placing with
      journal := (r.placing placing).journal.update fun forest =>
        { forest with inTransit := forest.inTransit.erase (r.spell f) } } (r.spell f) =
      r.placing (promoteWaiting { placing with
        journal := placing.journal.update fun forest =>
          { forest with inTransit := forest.inTransit.erase f } } f) := by
  have harrive := r.update_journal r.forest placing.journal
    (fun forest => { forest with inTransit := forest.inTransit.erase f })
    (fun forest => { forest with inTransit := forest.inTransit.erase (r.spell f) })
    (r.arrive_forest f placing.journal.state)
  rw [← promoteWaiting_placing]
  exact congrArg (fun journal => promoteWaiting { r.placing placing with journal } (r.spell f))
    harrive

theorem place_placing (arrival : Arrival) :
    place (r.placing placing) (r.key key) arrival = r.placing (place placing key arrival) := by
  unfold place
  simp only [fingerprint_key, ready_placing]
  generalize promoteWaiting _ key.fingerprint = ready
  have hissuer := r.issuer_lookup_forest ready.journal.state key.fingerprint
  have hrelist := r.relist_journal ready.journal key
    ((ready.journal.state.stored.lookup key.fingerprint).bind (·.cleanIssuer))
    (ready.journal.state.targetOf key)
  simp only [Respelling.placing, state_journal, targetOf_forest, hissuer, hrelist, parent_target]
  generalize relist ready.journal _ _ key = result
  obtain ⟨journal, row⟩ := result
  have hmoved : (if arrival = .promoted then (r.journal r.forest journal).announce
      (.moved (r.parent (ready.journal.state.targetOf key).parent) row)
      else r.journal r.forest journal) = r.journal r.forest (if arrival = .promoted then
        journal.announce (.moved (ready.journal.state.targetOf key).parent row) else journal) := by
    split <;> rfl
  simp only [hmoved, state_journal, length_parents_forest, touch_forest]

theorem drain_placing (steps : ℕ) :
    drain steps (r.placing placing) = r.placing (drain steps placing) := by
  induction steps generalizing placing with
  | zero => rfl
  | succ steps ih =>
    obtain ⟨journal, _ | ⟨⟨key, arrival⟩, rest⟩, touched⟩ := placing
    · rfl
    · exact (congrArg (drain steps) (r.place_placing key ⟨journal, rest, touched⟩ arrival)).trans
        (ih _)

theorem deliver_placing :
    deliver (r.placing placing) (r.key key) = r.placing (deliver placing key) := by
  have hwaiting : Table.total (r.placing placing).journal.state.waiting =
      Table.total placing.journal.state.waiting := r.total_table placing.journal.state.waiting
  rw [deliver, hwaiting]
  exact r.drain_placing { placing with queue := [(key, .delivered)] } _

theorem foldl_deliver_placing (keys : List Key) :
    (keys.map r.key).foldl deliver (r.placing placing) =
      r.placing (keys.foldl deliver placing) :=
  foldl_map_hom (fun placing key => r.deliver_placing key placing) placing keys

end Placing

/-! ### Checking a forest -/

section Checking

variable (forest : Forest) (f : Fingerprint)

def defect : Defect → Defect
  | .storedUnsorted => .storedUnsorted
  | .topLevelUnsorted => .topLevelUnsorted
  | .unlisted f => .unlisted (r.spell f)
  | .placedCount stored placed => .placedCount stored placed
  | .misplacedTop f => .misplacedTop (r.spell f)
  | .emptyBucket parent => .emptyBucket (r.spell parent)
  | .absentParent parent => .absentParent (r.spell parent)
  | .childrenUnsorted parent => .childrenUnsorted (r.spell parent)
  | .misplacedChild child parent => .misplacedChild (r.spell child) (r.spell parent)
  | .listedCount stored listed => .listedCount stored listed
  | .awaitedPresent issuer => .awaitedPresent (r.spell issuer)
  | .orphanNotTop f => .orphanNotTop (r.spell f)
  | .onCycle f => .onCycle (r.spell f)

@[simp] theorem isPlacedUnder_forest (parent : Option Fingerprint) :
    (r.forest forest).isPlacedUnder (r.parent parent) (r.spell f) =
      forest.isPlacedUnder parent f := by
  simp only [isPlacedUnder, get?_parents_forest, Option.any_map, sameParent_parent]

@[simp] theorem climbsBeyond_forest (steps : ℕ) :
    (r.forest forest).climbsBeyond steps (r.spell f) = forest.climbsBeyond steps f := by
  induction steps generalizing f with
  | zero =>
    unfold climbsBeyond
    rw [get?_parents_forest]
    cases forest.parents.get? f with
    | none => rfl
    | some parent => cases parent <;> rfl
  | succ steps ih =>
    unfold climbsBeyond
    rw [get?_parents_forest]
    cases forest.parents.get? f with
    | none => rfl
    | some parent =>
      cases parent with
      | none => rfl
      | some parent => exact ih parent

theorem bucketDefect_forest (keys : Bucket) :
    (r.forest forest).bucketDefect (r.spell f) (keys.map r.key) =
      (forest.bucketDefect f keys).map r.defect := by
  simp only [bucketDefect, List.isEmpty_map, stored_forest, has_map, isSorted_map, List.find?_map,
    Function.comp_def, fingerprint_key, ← parent_some, isPlacedUnder_forest, Option.map_map,
    apply_ite (Option.map r.defect), Option.map_some, defect]

theorem waitingDefect_forest (keys : Bucket) :
    (r.forest forest).waitingDefect (r.spell f) (keys.map r.key) =
      (forest.waitingDefect f keys).map r.defect := by
  have hplaced (f : Fingerprint) := r.isPlacedUnder_forest forest f none
  simp only [parent_none] at hplaced
  simp only [waitingDefect, stored_forest, has_map, List.find?_map, Function.comp_def,
    fingerprint_key, hplaced, Option.map_map, apply_ite (Option.map r.defect), Option.map_some,
    defect]

theorem listedCount_forest : (r.forest forest).listedCount = forest.listedCount := by
  rw [listedCount, topLevel_forest, List.length_map, children_forest, total_table, listedCount]

theorem map_orElse (a b : Option Defect) :
    (a <|> b).map r.defect = (a.map r.defect <|> b.map r.defect) := by
  cases a <;> rfl

theorem firstDefect_forest :
    (r.forest forest).firstDefect = forest.firstDefect.map r.defect := by
  have hplaced (f : Fingerprint) := r.isPlacedUnder_forest forest f none
  simp only [parent_none] at hplaced
  have htransit : ((r.forest forest).inTransit.head?.map fun entry => Defect.unlisted entry.1) =
      (forest.inTransit.head?.map fun entry => Defect.unlisted entry.1).map r.defect := by
    simp only [Respelling.forest, Respelling.table, List.head?_map, Option.map_map]
    rfl
  have hchildren : ((r.forest forest).children.findSome? fun entry =>
      (r.forest forest).bucketDefect entry.1 entry.2) =
        (forest.children.findSome? fun entry =>
          forest.bucketDefect entry.1 entry.2).map r.defect := by
    rw [List.map_findSome?, children_forest, Respelling.table, List.findSome?_map]
    simp only [Function.comp_def, bucketDefect_forest]
  have hwaiting : ((r.forest forest).waiting.findSome? fun entry =>
      (r.forest forest).waitingDefect entry.1 entry.2) =
        (forest.waiting.findSome? fun entry =>
          forest.waitingDefect entry.1 entry.2).map r.defect := by
    rw [List.map_findSome?, waiting_forest, Respelling.table, List.findSome?_map]
    simp only [Function.comp_def, waitingDefect_forest]
  have hcycle : (((r.forest forest).parents.find? fun entry =>
      (r.forest forest).climbsBeyond forest.stored.length entry.1).map fun entry =>
        Defect.onCycle entry.1) =
      ((forest.parents.find? fun entry =>
        forest.climbsBeyond forest.stored.length entry.1).map fun entry =>
          Defect.onCycle entry.1).map r.defect := by
    rw [parents_forest, Respelling.table, List.find?_map, Option.map_map, Option.map_map]
    simp only [Function.comp_def, climbsBeyond_forest]
    rfl
  simp only [firstDefect, map_orElse, stored_forest, topLevel_forest, isSorted_map, List.length_map,
    length_parents_forest, List.find?_map, Function.comp_def, fingerprint_key, hplaced,
    listedCount_forest, htransit, hchildren, hwaiting, hcycle, Option.map_map,
    apply_ite (Option.map r.defect), Option.map_none, Option.map_some, defect]

theorem checkSound_journal (journal : Journal Forest) :
    checkSound (r.journal r.forest journal) = r.journal r.forest (checkSound journal) := by
  rw [checkSound, state_journal, firstDefect_forest, Option.isNone_map, check_journal, checkSound]

end Checking

/-! ### Operations -/

section Operations

variable (journal : Journal Forest) (f : Fingerprint)

theorem announceData_journal :
    announceData (r.journal r.forest journal) (r.spell f) =
      r.journal r.forest (announceData journal f) := by
  simp only [announceData, state_journal, placeOf_forest]
  cases journal.state.placeOf f <;> rfl

theorem foldl_announceData_journal (fingerprints : List Fingerprint) :
    (fingerprints.map r.spell).foldl announceData (r.journal r.forest journal) =
      r.journal r.forest (fingerprints.foldl announceData journal) :=
  foldl_map_hom r.announceData_journal journal fingerprints

theorem merge_journal (batch : Bucket) :
    merge (r.journal r.forest journal) (batch.map r.key) =
      (r.journal r.forest (merge journal batch).1, (merge journal batch).2.map r.index) := by
  have hdeliver (journal : Journal Forest) (order : List Key) :
      (order.map r.key).foldl deliver ⟨r.journal r.forest journal, [], []⟩ =
        r.placing (order.foldl deliver ⟨journal, [], []⟩) :=
    r.foldl_deliver_placing ⟨journal, [], []⟩ order
  simp only [merge, isSorted_map, check_journal, issuersFirst_map, List.length_map, hdeliver]
  generalize (Bucket.issuersFirst batch).foldl deliver _ = placing
  simp only [Respelling.placing, fingerprints_table, foldl_announceData_journal, checkSound_journal,
    state_journal, List.filterMap_map, List.map_filterMap, Function.comp_def, fingerprint_key,
    placeOf_forest]

theorem clear_journal :
    Forest.clear (r.journal r.forest journal) = r.journal r.forest (Forest.clear journal) := rfl

theorem rebuildWithout_journal :
    rebuildWithout (r.journal r.forest journal) (r.spell f) =
      r.journal r.forest (rebuildWithout journal f) := by
  have hleft : (r.forest journal.state).stored.filter (fun key => !(key.fingerprint == r.spell f)) =
      (journal.state.stored.filter fun key => !(key.fingerprint == f)).map r.key := by
    rw [stored_forest, List.filter_map]
    simp only [Function.comp_def, fingerprint_key, beq_spell]
  simp only [rebuildWithout, state_journal, hleft, List.length_map]
  generalize journal.state.stored.filter (fun key => !(key.fingerprint == f)) = left
  exact congrArg Prod.fst (r.addBy_journal r.forest
    (Forest.clear (journal.log (.rebuildingForest f left.length))) r.merge_journal left)

theorem park_journal :
    park (r.journal r.forest journal) (r.spell f) = r.journal r.forest (park journal f) := by
  have hcut : (r.forest journal.state).topLevel.filter
      (fun key => sameParent key.cleanIssuer (some (r.spell f))) =
        (journal.state.topLevel.filter fun key => sameParent key.cleanIssuer (some f)).map
          r.key := by
    rw [topLevel_forest, List.filter_map]
    simp only [Function.comp_def, cleanIssuer_key, ← parent_some, sameParent_parent]
  simp only [park, state_journal, hcut, List.isEmpty_map]
  generalize journal.state.topLevel.filter (fun key => sameParent key.cleanIssuer (some f)) = cut
  split
  · rfl
  · have hput : (r.journal r.forest journal).update (fun forest =>
        { forest with waiting := forest.waiting.put (r.spell f) (cut.map r.key) }) =
          r.journal r.forest (journal.update fun forest =>
            { forest with waiting := forest.waiting.put f cut }) := by
      refine r.update_journal r.forest journal _ _ ?_
      simp only [Respelling.forest, put_table]
    have hmap : (cut.map r.key).map (·.fingerprint) = (cut.map (·.fingerprint)).map r.spell := by
      rw [List.map_map, List.map_map]
      rfl
    rw [hput, hmap, foldl_announceData_journal]

theorem removeLeaf_journal :
    removeLeaf (r.journal r.forest journal) (r.spell f) =
      r.journal r.forest (removeLeaf journal f) := by
  simp only [removeLeaf, state_journal, placeOf_forest]
  cases journal.state.placeOf f with
  | none => rfl
  | some index =>
    have hissuer : ((Listing.keyAt journal.state index).map r.key).bind (·.cleanIssuer) =
        r.parent ((Listing.keyAt journal.state index).bind (·.cleanIssuer)) := by
      cases Listing.keyAt journal.state index with
      | none => rfl
      | some key => exact r.cleanIssuer_key key
    simp only [Option.map_some, parent_index, row_index, keyAt_forest, hissuer]
    generalize (Listing.keyAt journal.state index).bind (·.cleanIssuer) = issuer
    have hstart := r.announce_journal r.forest journal
      (.aboutToRemove index.parent index.row index.row)
    have hdrop := r.update_journal r.forest
      (journal.announce (.aboutToRemove index.parent index.row index.row))
      (·.dropLeaf index f issuer) (·.dropLeaf (r.index index) (r.spell f) (r.parent issuer))
      (r.dropLeaf_forest _ _ _ _)
    have hend (journal : Journal Forest) :=
      r.announce_journal r.forest journal (.removed index.parent index.row index.row)
    simp only [change] at hstart hend
    rw [hstart, hdrop, hend, park_journal, checkSound_journal]

theorem remove_journal :
    Forest.remove (r.journal r.forest journal) (r.spell f) =
      r.journal r.forest (Forest.remove journal f) := by
  simp only [Forest.remove, state_journal, stored_forest, has_map, childrenOf_forest,
    List.isEmpty_map, removeLeaf_journal, rebuildWithout_journal]
  split
  · rfl
  · split <;> rfl

theorem indifferent_forest : r.Indifferent r.forest where
  rows := r.rows_forest
  stored := r.stored_forest
  empty := rfl
  merge := r.merge_journal
  remove := r.remove_journal
  clear := r.clear_journal

end Operations

end KeyForest.Respelling
