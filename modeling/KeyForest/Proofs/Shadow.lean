import KeyForest.Proofs.Journal

/-!
# Following a key list by its changes

The `Shadow` of a key list is all that can be reached of it from the top level: the rows under each
parent, in their order. A change `Accounts` for the difference between the shadows before and after
it. When all changes of a journal do so, a shadow that is kept up to date from the changes alone
(`Shadow.follow`) agrees with the key list at every change (`Accounted.replay_eq`).
-/
namespace KeyForest

/-- The rows under each parent, and at the top level. -/
abbrev Shadow := Option Fingerprint → List Key

namespace Shadow

/-- The shadow of a key list without rows. -/
def bare : Shadow := fun _ => []

/-- The rows under a parent belong to what is listed below the key. -/
inductive IsBelow (shadow : Shadow) (key : Key) : Option Fingerprint → Prop
  | self {f : Fingerprint} : f.ident = key.ident → IsBelow shadow key (some f)
  | child {f parent : Fingerprint} {child : Key} : IsBelow shadow key (some parent) →
      child ∈ shadow (some parent) → f.ident = child.ident → IsBelow shadow key (some f)

/-- A row comes, together with rows below it, and all other rows stay. Read backwards, the row goes
together with all rows below it. -/
structure Grows (before after : Shadow) (parent : Option Fingerprint) (row : ℕ) (key : Key) :
    Prop where
  row_le : row ≤ (before parent).length
  insertIdx_eq : ∀ other, sameParent other parent = true →
    after other = (before other).insertIdx row key
  /-- The row is not among what is listed below its key. -/
  apart : ¬ after.IsBelow key parent
  below : ∀ other, after.IsBelow key other → before other = []
  elsewhere : ∀ other, sameParent other parent = false → ¬ after.IsBelow key other →
    after other = before other

/-- In a row stands another key for the same certificate, and all other rows stay. -/
structure Alters (before after : Shadow) (parent : Option Fingerprint) (row : ℕ) (old key : Key) :
    Prop where
  old_eq : (before parent)[row]? = some old
  ident_eq : key.ident = old.ident
  set_eq : ∀ other, sameParent other parent = true → after other = (before other).set row key
  elsewhere : ∀ other, sameParent other parent = false → after other = before other

open Classical in
/-- The shadow after a change. Rows that have come or changed are read from the view; whatever is
below a row that goes, goes with it. -/
noncomputable def follow (shadow : Shadow) (change : Change) (view : Shadow) : Shadow :=
  match change with
  | .inserted parent row _ =>
    match (view parent)[row]? with
    | some key => fun other =>
      if sameParent other parent then (shadow other).insertIdx row key
      else if view.IsBelow key other then view other
      else shadow other
    | none => shadow
  | .removed parent row _ =>
    match (shadow parent)[row]? with
    | some key => fun other =>
      if sameParent other parent then (shadow other).eraseIdx row
      else if shadow.IsBelow key other then []
      else shadow other
    | none => shadow
  | .dataChanged parent row =>
    match (view parent)[row]? with
    | some key => fun other =>
      if sameParent other parent then (shadow other).set row key else shadow other
    | none => shadow
  | .reset => bare
  | _ => shadow

end Shadow

/-- The change, coming after `previous`, says all there is to say about the difference between two
shadows: rows come and go one at a time, right after they are announced. -/
def Change.Accounts (change : Change) (previous : Option Change) (before after : Shadow) : Prop :=
  match change with
  | .inserted parent first last => first = last ∧
    previous = some (.aboutToInsert parent first last) ∧ ∃ key, before.Grows after parent first key
  | .removed parent first last => first = last ∧
    previous = some (.aboutToRemove parent first last) ∧ ∃ key, after.Grows before parent first key
  | .dataChanged parent row => ∃ old key, before.Alters after parent row old key
  | .reset => previous = some .aboutToReset ∧ after = .bare
  | _ => after = before

namespace Shadow

variable {before after : Shadow} {parent : Option Fingerprint} {row : ℕ} {key old : Key}

theorem Grows.getElem?_eq (h : before.Grows after parent row key) :
    (after parent)[row]? = some key := by
  rw [h.insertIdx_eq parent (sameParent_self parent), List.getElem?_insertIdx_self, if_pos h.row_le]

theorem Alters.getElem?_eq (h : before.Alters after parent row old key) :
    (after parent)[row]? = some key := by
  obtain ⟨hlt, -⟩ := List.getElem?_eq_some_iff.mp h.old_eq
  rw [h.set_eq parent (sameParent_self parent), List.getElem?_set_self hlt]

/-- What is followed is what is seen. -/
theorem follow_eq {change : Change} {previous : Option Change}
    (h : change.Accounts previous before after) : before.follow change after = after := by
  cases change with
  | inserted parent first last =>
    obtain ⟨-, -, key, hgrows⟩ := h
    funext other
    simp only [follow, hgrows.getElem?_eq]
    split
    · rename_i hsame
      exact (hgrows.insertIdx_eq other hsame).symm
    · rename_i hsame
      split
      · rfl
      · rename_i hbelow
        exact (hgrows.elsewhere other (Bool.not_eq_true _ ▸ hsame) hbelow).symm
  | removed parent first last =>
    obtain ⟨-, -, key, hgrows⟩ := h
    funext other
    simp only [follow, hgrows.getElem?_eq]
    split
    · rename_i hsame
      rw [hgrows.insertIdx_eq other hsame, List.eraseIdx_insertIdx_self]
    · rename_i hsame
      split
      · rename_i hbelow
        exact (hgrows.below other hbelow).symm
      · rename_i hbelow
        exact hgrows.elsewhere other (Bool.not_eq_true _ ▸ hsame) hbelow
  | dataChanged parent row =>
    obtain ⟨old, key, halters⟩ := h
    funext other
    simp only [follow, halters.getElem?_eq]
    split
    · rename_i hsame
      exact (halters.set_eq other hsame).symm
    · rename_i hsame
      exact (halters.elsewhere other (Bool.not_eq_true _ ▸ hsame)).symm
  | reset => exact h.2.symm
  | aboutToInsert | aboutToRemove | aboutToMove | moved | aboutToReset => exact h.symm

end Shadow

section Notices

variable {σ : Type} [Listing σ] {state other : σ} {notices : List (Change × σ)} {change : Change}
  {seen : σ}

namespace Listing

/-- The key with the fingerprint has a row that can be reached from the top level. -/
def Reached (state : σ) (f : Fingerprint) : Prop :=
  ∃ depth above index key, Visible state depth above index key ∧ key.ident = f.ident

open Classical in
/-- All rows that can be reached from the top level. -/
noncomputable def shown (state : σ) : Shadow
  | none => rows state none
  | some f => if Reached state f then rows state (some f) else []

theorem Visible.of_rows (hrows : rows other = rows state) {depth : ℕ} {above : Option RowIndex}
    {index : RowIndex} {key : Key} (h : Visible state depth above index key) :
    Visible other depth above index key := by
  induction h with
  | top hrow => exact .top (hrows ▸ hrow)
  | child _ hrow ih => exact .child ih (hrows ▸ hrow)

theorem shown_congr (hrows : rows other = rows state) : shown other = shown state := by
  have hreached (f : Fingerprint) : Reached other f ↔ Reached state f :=
    ⟨fun ⟨_, _, _, _, h, hf⟩ => ⟨_, _, _, _, h.of_rows hrows.symm, hf⟩,
      fun ⟨_, _, _, _, h, hf⟩ => ⟨_, _, _, _, h.of_rows hrows, hf⟩⟩
  funext parent
  cases parent with
  | none => exact congrFun hrows none
  | some f =>
    by_cases hf : Reached state f
    · rw [shown, shown, if_pos hf, if_pos ((hreached f).mpr hf), hrows]
    · rw [shown, shown, if_neg hf, if_neg (mt (hreached f).mp hf)]

end Listing

open Listing

/-- The rows that were seen at the last change; at first there are none. -/
noncomputable def lastShown (notices : List (Change × σ)) : Shadow :=
  notices.getLast?.elim .bare fun notice => shown notice.2

/-- Every change accounts for what has become different since the change before. -/
def Accounted (notices : List (Change × σ)) : Prop :=
  ∀ earlier change seen later, notices = earlier ++ (change, seen) :: later →
    change.Accounts (earlier.getLast?.map Prod.fst) (lastShown earlier) (shown seen)

/-- The shadow that results from following all changes from the beginning. -/
noncomputable def replay (notices : List (Change × σ)) : Shadow :=
  notices.foldl (fun shadow notice => shadow.follow notice.1 (shown notice.2)) .bare

theorem lastShown_concat (notices : List (Change × σ)) (change : Change) (seen : σ) :
    lastShown (notices ++ [(change, seen)]) = shown seen := by
  rw [lastShown, List.getLast?_concat, Option.elim_some]

theorem replay_concat (notices : List (Change × σ)) (change : Change) (seen : σ) :
    replay (notices ++ [(change, seen)]) = (replay notices).follow change (shown seen) := by
  rw [replay, List.foldl_append]
  rfl

theorem accounted_nil : Accounted ([] : List (Change × σ)) := by
  intro earlier change seen later h
  simp at h

theorem Accounted.concat (h : Accounted notices)
    (hchange : change.Accounts (notices.getLast?.map Prod.fst) (lastShown notices) (shown seen)) :
    Accounted (notices ++ [(change, seen)]) := by
  intro earlier change' seen' later heq
  rcases List.eq_nil_or_concat later with rfl | ⟨front, last, rfl⟩
  · obtain ⟨rfl, hlast⟩ := List.append_inj' heq rfl
    obtain ⟨rfl, rfl⟩ := Prod.mk.inj (List.singleton_inj.mp hlast)
    exact hchange
  · rw [List.concat_eq_append, ← List.cons_append, ← List.append_assoc] at heq
    exact h _ _ _ _ (List.append_inj' heq rfl).1

theorem Accounted.of_append {earlier later : List (Change × σ)} (h : Accounted (earlier ++ later)) :
    Accounted earlier := by
  intro front change seen back heq
  refine h front change seen (back ++ later) ?_
  rw [heq, List.append_assoc, List.cons_append]

/-- Who follows the changes sees what there is to see. -/
theorem Accounted.replay_eq (h : Accounted notices) : replay notices = lastShown notices := by
  induction notices using List.reverseRecOn with
  | nil => rfl
  | append_singleton notices notice ih =>
    obtain ⟨change, seen⟩ := notice
    have hchange := h notices change seen [] rfl
    rw [replay_concat, ih h.of_append, Shadow.follow_eq hchange, lastShown_concat]

end Notices

/-! ### Journals that tell of everything -/

namespace Journal

open Listing

variable {σ : Type} [Listing σ] {journal : Journal σ} {parent : Option Fingerprint} {row : ℕ}
  {key : Key} {f : σ → σ} {change : Change}

/-- Every change so far accounts for what has become different, and since the last one nothing
has. -/
structure Told (journal : Journal σ) : Prop where
  accounted : Accounted journal.notices
  shown_eq : shown journal.state = lastShown journal.notices

theorem told_ofState {state : σ} (h : shown state = .bare) : (ofState state).Told :=
  ⟨accounted_nil, h⟩

namespace Told

theorem log (h : journal.Told) (event : LogEvent) : (journal.log event).Told :=
  ⟨by rw [notices_log]; exact h.accounted, by rw [notices_log]; exact h.shown_eq⟩

theorem update (h : journal.Told) (hsame : shown (f journal.state) = shown journal.state) :
    (journal.update f).Told := ⟨h.accounted, hsame.trans h.shown_eq⟩

theorem check (h : journal.Told) (assumption : Assumption) (holds : Bool) :
    (journal.check assumption holds).Told := by
  constructor
  · rw [notices_check]
    exact h.accounted
  · rw [notices_check, state_check]
    exact h.shown_eq

/-- Something is done and then told. -/
theorem tell (h : journal.Told) (f : σ → σ)
    (hchange : change.Accounts (journal.notices.getLast?.map Prod.fst) (shown journal.state)
      (shown (f journal.state))) : ((journal.update f).announce change).Told := by
  constructor
  · rw [notices_announce]
    rw [h.shown_eq] at hchange
    exact h.accounted.concat hchange
  · rw [notices_announce, lastShown_concat, state_announce]

/-- Something is told although nothing is done. -/
theorem announce (h : journal.Told)
    (hchange : ∀ previous, change.Accounts previous (shown journal.state) (shown journal.state)) :
    (journal.announce change).Told := h.tell id (hchange _)

theorem insert (h : journal.Told)
    (hgrows : (shown journal.state).Grows (shown (f journal.state)) parent row key) :
    (((journal.announce (.aboutToInsert parent row row)).update f).announce
      (.inserted parent row row)).Told := by
  have hannounced : (journal.announce (.aboutToInsert parent row row)).Told :=
    h.announce fun _ => rfl
  refine hannounced.tell f ⟨rfl, ?_, key, hgrows⟩
  rw [notices_announce, List.getLast?_concat, Option.map_some]

theorem remove (h : journal.Told)
    (hgrows : (shown (f journal.state)).Grows (shown journal.state) parent row key) :
    (((journal.announce (.aboutToRemove parent row row)).update f).announce
      (.removed parent row row)).Told := by
  have hannounced : (journal.announce (.aboutToRemove parent row row)).Told :=
    h.announce fun _ => rfl
  refine hannounced.tell f ⟨rfl, ?_, key, hgrows⟩
  rw [notices_announce, List.getLast?_concat, Option.map_some]

theorem reset (h : journal.Told) (hbare : shown (f journal.state) = .bare) :
    (((journal.announce .aboutToReset).update f).announce .reset).Told := by
  have hannounced : (journal.announce .aboutToReset).Told := h.announce fun _ => rfl
  refine hannounced.tell f ⟨?_, hbare⟩
  rw [notices_announce, List.getLast?_concat, Option.map_some]

end Told

/-- Who follows the journal from the beginning sees at every change, and in the end, what there is
to see, and is told of every difference. -/
structure Followed (journal : Journal σ) : Prop where
  accounted : Accounted journal.notices
  /-- Since the last change nothing has become different. -/
  shown_eq : shown journal.state = lastShown journal.notices
  replay_eq : ∀ earlier change seen later, journal.notices = earlier ++ (change, seen) :: later →
    replay (earlier ++ [(change, seen)]) = shown seen
  replay_all : replay journal.notices = shown journal.state

theorem Told.followed (h : journal.Told) : journal.Followed where
  accounted := h.accounted
  shown_eq := h.shown_eq
  replay_eq earlier change seen later heq := by
    have haccounted := h.accounted
    rw [heq, ← List.singleton_append, ← List.append_assoc] at haccounted
    rw [haccounted.of_append.replay_eq, lastShown_concat]
  replay_all := h.accounted.replay_eq.trans h.shown_eq.symm

end Journal

end KeyForest
