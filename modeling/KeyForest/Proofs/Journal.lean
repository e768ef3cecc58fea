import KeyForest.Journal
import KeyForest.Proofs.Consistency

/-!
# Journals in which all is well

A journal is `Faultless` when its changes are sound and every assumption has held. The lemmas follow
this through what can be done to a journal; a row that comes or goes is followed as one step
(`Faultless.insert`, `Faultless.remove`).
-/
namespace KeyForest.Journal

variable {σ : Type} {journal : Journal σ}

@[simp] theorem entries_announce (journal : Journal σ) (change : Change) :
    (journal.announce change).entries = journal.entries ++ [.notice change journal.state] := by
  simp [entries, announce]

@[simp] theorem entries_update (journal : Journal σ) (f : σ → σ) :
    (journal.update f).entries = journal.entries := rfl

/-- Where only notices are entered, just these are told. -/
theorem notices_of_entries {before after : Journal σ} {told : List (Change × σ)}
    (h : after.entries = before.entries ++ told.map fun notice => .notice notice.1 notice.2) :
    after.notices = before.notices ++ told := by
  rw [notices, h, List.filterMap_append, List.filterMap_map]
  exact congrArg _ (List.filterMap_some)

@[simp] theorem notices_announce (journal : Journal σ) (change : Change) :
    (journal.announce change).notices = journal.notices ++ [(change, journal.state)] := by
  simp [notices, entries, announce]

@[simp] theorem notices_log (journal : Journal σ) (event : LogEvent) :
    (journal.log event).notices = journal.notices := by
  simp [notices, entries, log]

@[simp] theorem notices_update (journal : Journal σ) (f : σ → σ) :
    (journal.update f).notices = journal.notices := rfl

@[simp] theorem notices_check (journal : Journal σ) (assumption : Assumption) (holds : Bool) :
    (journal.check assumption holds).notices = journal.notices := by
  unfold check
  split
  · rfl
  · simp [notices, entries]

@[simp] theorem changes_announce (journal : Journal σ) (change : Change) :
    (journal.announce change).changes = journal.changes ++ [change] := by
  rw [changes, notices_announce, List.map_append]
  rfl

@[simp] theorem changes_log (journal : Journal σ) (event : LogEvent) :
    (journal.log event).changes = journal.changes := by
  rw [changes, notices_log, changes]

@[simp] theorem broken_announce (journal : Journal σ) (change : Change) :
    (journal.announce change).broken = journal.broken := by
  simp [broken, entries, announce]

@[simp] theorem broken_log (journal : Journal σ) (event : LogEvent) :
    (journal.log event).broken = journal.broken := by
  simp [broken, entries, log]

theorem check_of_holds {assumption : Assumption} {holds : Bool} (h : holds = true) :
    journal.check assumption holds = journal := if_pos h

theorem update_eq_self {f : σ → σ} (h : f journal.state = journal.state) :
    journal.update f = journal := by
  cases journal
  exact congrArg (Journal.mk · _) h

variable [Listing σ]

/-- All changes so far are sound, and no assumption has failed. -/
structure Faultless (journal : Journal σ) : Prop where
  sound : Sound journal.notices
  unbroken : journal.broken = []

theorem faultless_ofState (state : σ) : (ofState state).Faultless := ⟨sound_nil, rfl⟩

namespace Faultless

theorem announce (h : journal.Faultless) {change : Change}
    (hstate : Listing.Consistent journal.state)
    (hfits : change.Fits journal.state journal.notices.getLast?) :
    (journal.announce change).Faultless := by
  refine ⟨?_, by rw [broken_announce, h.unbroken]⟩
  rw [notices_announce]
  exact h.sound.concat hstate hfits

theorem update (h : journal.Faultless) (f : σ → σ) : (journal.update f).Faultless := ⟨h.1, h.2⟩

theorem log (h : journal.Faultless) (event : LogEvent) : (journal.log event).Faultless :=
  ⟨by rw [notices_log]; exact h.sound, by rw [broken_log, h.unbroken]⟩

/-- A row comes as announced. -/
theorem insert (h : journal.Faultless) {parent : Option Fingerprint} {row : ℕ} {f : σ → σ}
    (hbefore : Listing.Consistent journal.state) (hafter : Listing.Consistent (f journal.state))
    (hcount : Listing.rowCount (f journal.state) parent =
      Listing.rowCount journal.state parent + 1) :
    (((journal.announce (.aboutToInsert parent row row)).update f).announce
      (.inserted parent row row)).Faultless := by
  have hannounced : (journal.announce (.aboutToInsert parent row row)).Faultless :=
    h.announce hbefore trivial
  refine (hannounced.update f).announce hafter ⟨rfl, journal.state, ?_, hcount⟩
  simp

/-- A row goes as announced. -/
theorem remove (h : journal.Faultless) {parent : Option Fingerprint} {row : ℕ} {f : σ → σ}
    (hbefore : Listing.Consistent journal.state) (hafter : Listing.Consistent (f journal.state))
    (hcount : Listing.rowCount (f journal.state) parent + 1 =
      Listing.rowCount journal.state parent) :
    (((journal.announce (.aboutToRemove parent row row)).update f).announce
      (.removed parent row row)).Faultless := by
  have hannounced : (journal.announce (.aboutToRemove parent row row)).Faultless :=
    h.announce hbefore trivial
  refine (hannounced.update f).announce hafter ⟨rfl, journal.state, ?_, hcount⟩
  simp

/-- Everything is dropped at once. -/
theorem reset (h : journal.Faultless) {f : σ → σ} (hbefore : Listing.Consistent journal.state)
    (hafter : Listing.Consistent (f journal.state)) :
    (((journal.announce .aboutToReset).update f).announce .reset).Faultless := by
  have hannounced : (journal.announce .aboutToReset).Faultless := h.announce hbefore trivial
  exact (hannounced.update f).announce hafter trivial

end Faultless

end KeyForest.Journal

namespace KeyForest.Operation

variable {σ : Type} [KeyList σ]

theorem run_concat (operations : List Operation) (operation : Operation) :
    run (operations ++ [operation]) = apply (run (σ := σ) operations) operation := by
  rw [run, List.foldl_append]
  rfl

end KeyForest.Operation

namespace KeyForest.KeyList

variable {σ : Type} [KeyList σ]

/-- A batch in which no key is left does nothing, and any other is merged. -/
theorem add_cases (journal : Journal σ) (keys : List Key) :
    Bucket.ofBatch keys = [] ∧ add journal keys = (journal, []) ∨
      add journal keys = merge (journal.log (.addingKeys (Bucket.ofBatch keys).length))
        (Bucket.ofBatch keys) := by
  unfold add Journal.addBy
  dsimp only
  split
  · rename_i hempty
    exact .inl ⟨List.isEmpty_iff.mp hempty, rfl⟩
  · exact .inr rfl

end KeyForest.KeyList
