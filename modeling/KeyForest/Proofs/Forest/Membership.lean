import KeyForest.Proofs.Forest.Canonical

/-!
# Who waits for whom

After any run a key waits for an issuer exactly if it is stored and names the issuer, and the issuer
is not stored; where a key sits says the same (`run_waitsExactly`). When a key is removed, all keys
that name it wait for it from then on.
-/
namespace KeyForest

/-- Whether a key sits at the same place according to both, in whatever spelling. -/
def Membership.same : Membership → Membership → Bool
  | unseen, unseen => true
  | topLevel, topLevel => true
  | childOf a, childOf b => a == b
  | waitingFor a, waitingFor b => a == b
  | _, _ => false

namespace Forest

open Placements

variable {forest : Forest} {outline : Outline} {key : Key} {f : Fingerprint} {x : Ident}

/-- A forest in which exactly the keys wait whose issuers are missing, and that says so. -/
structure WaitsExactly (forest : Forest) : Prop where
  waiting_iff : ∀ {issuer key}, key ∈ forest.waitingFor issuer ↔ key ∈ forest.stored ∧
    key.issuer = some issuer.ident ∧ ∀ other ∈ forest.stored, other.ident ≠ issuer.ident
  /-- Each issuer that is waited for has one list of keys, ascending and not empty. -/
  entry_spec : ∀ entry ∈ forest.waiting, entry.2 ≠ [] ∧ Bucket.IsSorted entry.2 ∧
    forest.waitingFor entry.1 = entry.2
  unseen_iff : ∀ {f}, forest.membership f = .unseen ↔ ∀ key ∈ forest.stored, key.ident ≠ f.ident
  childOf_iff : ∀ {f parent}, (forest.membership f).same (.childOf parent) = true ↔
    ∃ key ∈ forest.rows (some parent), key.ident = f.ident
  waitingFor_iff : ∀ {f issuer}, (forest.membership f).same (.waitingFor issuer) = true ↔
    ∃ key ∈ forest.waitingFor issuer, key.ident = f.ident
  topLevel_iff : ∀ {f}, forest.membership f = .topLevel ↔ ∃ key ∈ forest.stored,
    key.ident = f.ident ∧ (∀ parent, key ∉ forest.rows (some parent)) ∧
      ∀ issuer, key ∉ forest.waitingFor issuer

/-! ### Where a key sits -/

section Sits

variable (h : forest.Settled outline)
include h

theorem membership_of_absent (hf : ¬ outline.Has f.ident) : forest.membership f = .unseen := by
  have hplaced : forest.placed f.ident = none := by
    rw [h.placed_eq]
    exact Outline.up_eq_none.mpr hf
  rw [membership, get?_parents_eq_none.mpr hplaced]

theorem membership_of_under (hkey : key ∈ forest.under (some x)) (hf : key.ident = f.ident) :
    ∃ parent, forest.membership f = .childOf parent ∧ parent.ident = x := by
  have hplaced := h.arranged.placed_of_mem hkey
  rw [hf] at hplaced
  obtain ⟨parent, hparent, hident⟩ := Option.map_eq_some_iff.mp hplaced
  obtain ⟨g, rfl, rfl⟩ := Option.map_eq_some_iff.mp hident
  exact ⟨g, by rw [membership, Table.get?_eq, hparent], rfl⟩

/-- For a key at the top level, whether it waits is looked up under the issuer it names. -/
theorem membership_of_top (hkey : key ∈ forest.under none) (hf : key.ident = f.ident) :
    forest.membership f = match key.cleanIssuer with
      | some issuer => if (forest.waitingFor issuer).has f then .waitingFor issuer else .topLevel
      | none => .topLevel := by
  have hplaced := h.arranged.placed_of_mem hkey
  rw [hf] at hplaced
  obtain ⟨parent, hparent, hident⟩ := Option.map_eq_some_iff.mp hplaced
  obtain rfl : parent = none := Option.map_eq_none_iff.mp hident
  have hlookup : forest.stored.lookup f = some key := by
    rw [Bucket.lookup_eq h.arranged.stored_sorted, ← hf]
    exact h.arranged.stored_sorted.key?_eq_some.mpr ⟨h.mem_stored.mpr ⟨none, hkey⟩, rfl⟩
  rw [membership, Table.get?_eq, hparent, hlookup]
  rfl

theorem has_waitingFor (issuer : Fingerprint) : (forest.waitingFor issuer).has f = true ↔
    ∃ key ∈ forest.awaiting issuer.ident, key.ident = f.ident := by
  rw [waitingFor_eq]
  exact Bucket.has_iff (h.waits.ascends _)

/-- Keys that wait are at the top level. -/
theorem under_none_of_awaiting (hproper : outline.Proper) (hkey : key ∈ forest.awaiting x) :
    key ∈ forest.under none :=
  h.mem_under.mpr ⟨(h.waits.awaiting_iff.mp hkey).1, h.up_awaiting hproper hkey⟩

theorem membership_of_awaiting (hproper : outline.Proper) (hkey : key ∈ forest.awaiting x)
    (hf : key.ident = f.ident) :
    ∃ issuer, forest.membership f = .waitingFor issuer ∧ issuer.ident = x := by
  obtain ⟨issuer, hissuer, rfl⟩ := Option.map_eq_some_iff.mp (h.waits.awaiting_iff.mp hkey).2.1
  refine ⟨issuer, ?_, rfl⟩
  rw [membership_of_top h (under_none_of_awaiting h hproper hkey) hf, hissuer]
  exact if_pos ((has_waitingFor h issuer).mpr ⟨key, hkey, hf⟩)

theorem membership_of_nobody (hkey : key ∈ forest.under none) (hf : key.ident = f.ident)
    (hnobody : ∀ x, key ∉ forest.awaiting x) : forest.membership f = .topLevel := by
  rw [membership_of_top h hkey hf]
  cases hissuer : key.cleanIssuer with
  | none => rfl
  | some issuer =>
    refine if_neg fun hhas => ?_
    obtain ⟨other, hother, hident⟩ := (has_waitingFor h issuer).mp hhas
    have hsame : other = key := by
      have hstored := h.mem_keys.mpr (.inl ⟨none, hkey⟩)
      have hwaits := (h.waits.awaiting_iff.mp hother).1
      obtain ⟨o, ho⟩ := (h.mem_keys.mp hwaits).resolve_right (by simp)
      exact (h.arranged.row_unique ho hkey (hident.trans hf.symm)).2
    exact hnobody _ (hsame ▸ hother)

/-- The four cases there are for a certificate. -/
theorem membership_cases (hproper : outline.Proper) (f : Fingerprint) :
    (¬ outline.Has f.ident ∧ forest.membership f = .unseen) ∨
    (∃ key parent, key ∈ forest.under (some parent.ident) ∧ key.ident = f.ident ∧
      forest.membership f = .childOf parent) ∨
    (∃ key issuer, key ∈ forest.awaiting issuer.ident ∧ key.ident = f.ident ∧
      forest.membership f = .waitingFor issuer) ∨
    ∃ key, key ∈ forest.under none ∧ key.ident = f.ident ∧ (∀ x, key ∉ forest.awaiting x) ∧
      forest.membership f = .topLevel := by
  by_cases hf : outline.Has f.ident
  · obtain ⟨key, hkey, hident⟩ := hf
    obtain ⟨o, ho⟩ := (h.mem_keys.mp hkey).resolve_right (by simp)
    cases o with
    | some x =>
      obtain ⟨parent, hparent, rfl⟩ := membership_of_under h ho hident
      exact .inr (.inl ⟨key, parent, ho, hident, hparent⟩)
    | none =>
      by_cases hwaits : ∃ x, key ∈ forest.awaiting x
      · obtain ⟨x, hx⟩ := hwaits
        obtain ⟨issuer, hissuer, rfl⟩ := membership_of_awaiting h hproper hx hident
        exact .inr (.inr (.inl ⟨key, issuer, hx, hident, hissuer⟩))
      · have hnobody := not_exists.mp hwaits
        exact .inr (.inr (.inr ⟨key, ho, hident, hnobody, membership_of_nobody h ho hident hnobody⟩))
  · exact .inl ⟨hf, membership_of_absent h hf⟩

end Sits

/-! ### Forests at rest -/

section Rest

variable (h : forest.Settled outline) (hproper : outline.Proper)
include h hproper

theorem Settled.not_has_iff : ¬ outline.Has x ↔ ∀ key ∈ forest.stored, key.ident ≠ x := by
  rw [h.stored_eq hproper.sorted, Outline.Has]
  simp

theorem Settled.unseen_iff :
    forest.membership f = .unseen ↔ ∀ key ∈ forest.stored, key.ident ≠ f.ident := by
  rw [← h.not_has_iff hproper]
  refine ⟨fun hunseen => ?_, membership_of_absent h⟩
  obtain ⟨hnot, -⟩ | ⟨_, _, _, _, hsits⟩ | ⟨_, _, _, _, hsits⟩ | ⟨_, _, _, _, hsits⟩ :=
    membership_cases h hproper f
  · exact hnot
  all_goals simp [hsits] at hunseen

theorem Settled.childOf_iff {parent : Fingerprint} :
    (forest.membership f).same (.childOf parent) = true ↔
      ∃ key ∈ forest.under (some parent.ident), key.ident = f.ident := by
  constructor
  · intro hsame
    obtain ⟨_, hsits⟩ | ⟨key, found, hkey, hident, hsits⟩ | ⟨_, _, _, _, hsits⟩ |
      ⟨_, _, _, _, hsits⟩ := membership_cases h hproper f
    · simp [hsits, Membership.same] at hsame
    · rw [hsits] at hsame
      rw [Fingerprint.beq_iff.mp hsame] at hkey
      exact ⟨key, hkey, hident⟩
    all_goals simp [hsits, Membership.same] at hsame
  · rintro ⟨key, hkey, hident⟩
    obtain ⟨found, hsits, hfound⟩ := membership_of_under h hkey hident
    rw [hsits]
    exact Fingerprint.beq_iff.mpr hfound

theorem Settled.waitingFor_iff {issuer : Fingerprint} :
    (forest.membership f).same (.waitingFor issuer) = true ↔
      ∃ key ∈ forest.awaiting issuer.ident, key.ident = f.ident := by
  constructor
  · intro hsame
    obtain ⟨_, hsits⟩ | ⟨_, _, _, _, hsits⟩ | ⟨key, found, hkey, hident, hsits⟩ |
      ⟨_, _, _, _, hsits⟩ := membership_cases h hproper f
    · simp [hsits, Membership.same] at hsame
    · simp [hsits, Membership.same] at hsame
    · rw [hsits] at hsame
      rw [Fingerprint.beq_iff.mp hsame] at hkey
      exact ⟨key, hkey, hident⟩
    · simp [hsits, Membership.same] at hsame
  · rintro ⟨key, hkey, hident⟩
    obtain ⟨found, hsits, hfound⟩ := membership_of_awaiting h hproper hkey hident
    rw [hsits]
    exact Fingerprint.beq_iff.mpr hfound

theorem Settled.topLevel_iff : forest.membership f = .topLevel ↔ ∃ key ∈ forest.stored,
    key.ident = f.ident ∧ (∀ parent : Fingerprint, key ∉ forest.under (some parent.ident)) ∧
      ∀ issuer : Fingerprint, key ∉ forest.awaiting issuer.ident := by
  constructor
  · intro htop
    obtain ⟨_, hsits⟩ | ⟨_, _, _, _, hsits⟩ | ⟨_, _, _, _, hsits⟩ |
      ⟨key, hkey, hident, hnobody, -⟩ := membership_cases h hproper f
    · simp [hsits] at htop
    · simp [hsits] at htop
    · simp [hsits] at htop
    · refine ⟨key, h.mem_stored.mpr ⟨none, hkey⟩, hident, fun parent hparent => ?_,
        fun issuer => hnobody issuer.ident⟩
      have := (h.arranged.row_unique hkey hparent rfl).1
      contradiction
  · rintro ⟨key, hkey, hident, hunder, hnobody⟩
    obtain ⟨_ | x, ho⟩ := h.mem_stored.mp hkey
    · refine membership_of_nobody h ho hident fun x hx => ?_
      obtain ⟨issuer, -, rfl⟩ := Option.map_eq_some_iff.mp (h.waits.awaiting_iff.mp hx).2.1
      exact hnobody issuer hx
    · obtain ⟨parent, -, rfl⟩ := membership_of_under h ho rfl
      exact absurd ho (hunder parent)

theorem Settled.waitsExactly : forest.WaitsExactly where
  waiting_iff := by
    intro issuer key
    rw [waitingFor_eq, h.waits.awaiting_iff, ← h.not_has_iff hproper, h.stored_eq hproper.sorted]
    rfl
  entry_spec := by
    intro entry hentry
    have hwaiting : forest.waitingFor entry.1 = entry.2 := by
      rw [waitingFor_eq, awaiting, h.waits.sorted.value?_of_mem hentry, Option.getD_some]
    refine ⟨h.waits.nonempty entry hentry, ?_, hwaiting⟩
    rw [← hwaiting, waitingFor_eq]
    exact h.waits.ascends _
  unseen_iff := h.unseen_iff hproper
  childOf_iff := by
    intro f parent
    rw [rows_eq]
    exact h.childOf_iff hproper
  waitingFor_iff := by
    intro f issuer
    rw [waitingFor_eq]
    exact h.waitingFor_iff hproper
  topLevel_iff := by
    intro f
    simp only [rows_eq, waitingFor_eq]
    exact h.topLevel_iff hproper

end Rest

/-- When a key has been removed, all keys that name it are at the top level and wait for it. -/
theorem Settled.waits_of_gone (h : forest.Settled outline) (hproper : outline.Proper)
    (hgone : ¬ outline.Has f.ident) (hkey : key ∈ forest.stored) (hissuer : key.issuer = some f.ident) :
    key ∈ forest.rows none ∧ key ∈ forest.waitingFor f := by
  rw [h.stored_eq hproper.sorted] at hkey
  have hwaits : key ∈ forest.awaiting f.ident := h.waits.awaiting_iff.mpr ⟨hkey, hissuer, hgone⟩
  rw [waitingFor_eq]
  exact ⟨under_none_of_awaiting h hproper hwaits, hwaits⟩

/-- After any run of operations exactly the keys wait that name an issuer that is not stored. After
the removal of a key these are, among others, all that name it. -/
theorem run_waitsExactly (operations : List Operation) :
    (Operation.run operations : Journal Forest).state.WaitsExactly ∧
      ∀ f, (∀ key, key ∈ (Operation.run (operations ++ [.remove f]) : Journal Forest).state.stored ↔
          key ∈ (Operation.run operations : Journal Forest).state.stored ∧ key.ident ≠ f.ident) ∧
        ∀ key ∈ (Operation.run (operations ++ [.remove f]) : Journal Forest).state.stored,
          key.issuer = some f.ident →
          key ∈ (Operation.run (operations ++ [.remove f]) : Journal Forest).state.rows none ∧
            key ∈ (Operation.run (operations ++ [.remove f]) : Journal Forest).state.waitingFor f := by
  have hsettled := (run_spec operations).2
  have hproper := Outline.proper_afterRun operations
  refine ⟨hsettled.waitsExactly hproper, fun f => ?_⟩
  have hsettled' := (run_spec (operations ++ [.remove f])).2
  have hproper' := Outline.proper_afterRun (operations ++ [.remove f])
  have hmem {key : Key} : key ∈ (Outline.afterRun (operations ++ [.remove f])).keys ↔
      key ∈ (Outline.afterRun operations).keys ∧ key.ident ≠ f.ident := by
    rw [Outline.afterRun_concat]
    exact Outline.mem_remove hproper
  refine ⟨fun key => ?_, fun key hkey hissuer => hsettled'.waits_of_gone hproper' ?_ hkey hissuer⟩
  · rw [hsettled'.stored_eq hproper'.sorted, hsettled.stored_eq hproper.sorted, hmem]
  · rintro ⟨other, hother, hident⟩
    exact (hmem.mp hother).2 hident

end Forest

end KeyForest
