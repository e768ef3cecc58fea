import KeyForest.Proofs.Forest.Canonical

/-!
# Cycles of issuers

A key is cut from its issuer when listing it there would close a cycle. It is not looked at again
when a later update of another key opens the cycle, so that it stays at the top level although its
issuer is there. The forest follows the issuers exactly if every key that is cut is still on a
cycle (`Settled.followsIssuers_iff`), and always if no certificate changes its issuer
(`followsIssuers_of_steady`).
-/
namespace KeyForest

/-- No certificate is delivered with two issuers. -/
def Operation.Steady (operations : List Operation) : Prop :=
  ∀ key ∈ delivered operations, ∀ other ∈ delivered operations, key.ident = other.ident →
    key.issuer = other.issuer

namespace Outline

open Placements

variable {outline : Outline} {key : Key} {operations : List Operation} {x p : Ident}
  {f : Fingerprint}

/-- In an outline after a run all keys reach the top. -/
theorem attached_afterRun (operations : List Operation) :
    Attached (afterRun operations).up x ↔ (afterRun operations).Has x := by
  have hsettled := (Forest.run_spec operations).2
  rw [← hsettled.placed_eq]
  exact hsettled.attached_iff

theorem not_hangs_of_under (hx : (afterRun operations).up x = some (some p)) :
    ¬ Hangs (afterRun operations).up x p := by
  have hhas := isSome_up.mp (Option.isSome_iff_exists.mpr ⟨_, hx⟩)
  have hattached := (attached_afterRun operations).mpr hhas
  obtain ⟨n, hn⟩ := hattached.ends
  exact hn.not_hangs_child hx

/-! ### Certificates that keep their issuers -/

theorem afterRun_addOne (hnamed : key.ident ≠ []) :
    afterRun (operations ++ [.addOne key]) = (afterRun operations).deliver key := by
  have hbatch : Bucket.ofBatch [key] = [key] :=
    Bucket.ofBatch_of_isSorted (List.pairwise_singleton _ _) (by simpa using hnamed)
  have hperm := Bucket.issuersFirst_perm [key]
  rw [afterRun_concat, follow, add, hbatch, List.perm_singleton.mp hperm]
  rfl

theorem afterRun_remove (hleaf : ∀ y, (afterRun operations).up y ≠ some (some f.ident)) :
    afterRun (operations ++ [.remove f]) = (afterRun operations).drop f := by
  rw [afterRun_concat, follow, remove, if_neg (not_exists.mpr hleaf)]

/-- The outline is one after some run, and the way up from the issuer of a key that is cut still
leads to it. -/
structure Steady (outline : Outline) : Prop where
  reached : ∃ operations, outline = afterRun operations
  hangs : ∀ x ∈ outline.cut, ∀ key ∈ outline.keys, key.ident = x →
    ∀ p, key.issuer = some p → Hangs outline.up x p

/-- Where a key stands under its issuer, a key delivered with the same issuer stands there too. -/
theorem up_deliver_under (hreached : ∃ operations, outline = afterRun operations) {q y : Ident}
    (hsame : ∀ other ∈ outline.keys, other.ident = key.ident → other.issuer = key.issuer)
    (hy : outline.up y = some (some q)) : (outline.deliver key).up y = some (some q) := by
  obtain ⟨operations, rfl⟩ := hreached
  have hproper := proper_afterRun operations
  obtain ⟨other, hother, rfl⟩ := isSome_up.mp (Option.isSome_iff_exists.mpr ⟨_, hy⟩)
  obtain ⟨hissuer, hhas, hcut⟩ := (up_eq_under hproper.sorted hother).mp hy
  by_cases hident : other.ident = key.ident
  · have hother' : ∀ z, z ≠ key.ident →
        ((afterRun operations).deliver key).up z = (afterRun operations).up z := fun z hz =>
      up_deliver_other hproper hz fun _ _ _ _ => ⟨other, hother, hident⟩
    rw [hident] at hy ⊢
    rw [hsame other hother hident] at hissuer
    refine (up_eq_under (hproper.sorted.put key) ((Bucket.mem_put hproper.sorted).mpr (.inl rfl))).mpr
      ⟨hissuer, (has_deliver hproper).mpr (.inr hhas), fun hcut => ?_⟩
    -- To be cut now, the key would have to be above its issuer already, which stands above it.
    obtain ⟨p, hp, hhangs⟩ := mem_cut_deliver_self.mp hcut
    rw [hissuer] at hp
    cases hp
    exact not_hangs_of_under hy (hhangs.congr hother')
  · rw [up_deliver_other hproper hident fun same hsame hsameIdent hsameIssuer => ?_]
    · exact hy
    · rw [hproper.sorted.eq_of_ident hsame hother hsameIdent, hissuer] at hsameIssuer
      cases hsameIssuer
      exact hhas

theorem Steady.deliver (h : outline.Steady) (hproper : outline.Proper) (hnamed : key.ident ≠ [])
    (hsame : ∀ other ∈ outline.keys, other.ident = key.ident → other.issuer = key.issuer) :
    (outline.deliver key).Steady := by
  have hkept {x p : Ident} (hhangs : Hangs outline.up x p) : Hangs (outline.deliver key).up x p := by
    induction hhangs with
    | self => exact .self
    | child hy _ ih => exact .child (up_deliver_under h.reached hsame hy) ih
  refine ⟨?_, fun x hx other hother hident p hp => ?_⟩
  · obtain ⟨operations, rfl⟩ := h.reached
    exact ⟨_, (afterRun_addOne hnamed).symm⟩
  · rcases (Bucket.mem_put hproper.sorted).mp hother with rfl | ⟨hother, hne⟩
    · subst hident
      obtain ⟨p', hp', hhangs⟩ := mem_cut_deliver_self.mp hx
      rw [hp] at hp'
      cases hp'
      exact hhangs
    · rw [hident] at hne
      exact hkept (h.hangs x ((mem_cut_deliver hne).mp hx) other hother hident p hp)

theorem Steady.drop (h : outline.Steady) (hproper : outline.Proper)
    (hleaf : ∀ y, outline.up y ≠ some (some f.ident)) : (outline.drop f).Steady := by
  have hkept {x p : Ident} (hhangs : Hangs outline.up x p) (hp : p ≠ f.ident) :
      Hangs (outline.drop f).up x p := by
    induction hhangs with
    | self => exact .self
    | @child y q hy _ ih =>
      have hq : q ≠ f.ident := fun heq => hleaf y (heq ▸ hy)
      exact .child ((up_drop hproper hleaf hp).trans hy) (ih hq)
  refine ⟨?_, fun x ⟨hx, hxf, hissuer⟩ key hkey hident p hp => ?_⟩
  · obtain ⟨operations, rfl⟩ := h.reached
    exact ⟨_, (afterRun_remove hleaf).symm⟩
  · obtain ⟨hkey, -⟩ := (Bucket.mem_erase hproper.sorted).mp hkey
    refine hkept (h.hangs x hx key hkey hident p hp) ?_
    rintro rfl
    exact hissuer key hkey hident hp

/-- If no certificate changes its issuer, the ways up that led to a cut still do. -/
theorem steady_afterRun (hsteady : Operation.Steady operations) : (afterRun operations).Steady := by
  have halong : Along operations Steady (afterRun operations) :=
    afterRun_induction ⟨⟨[], rfl⟩, by simp⟩
      (fun h hkey => h.holds.deliver h.proper (Operation.mem_delivered.mp hkey).2
        fun other hother => hsteady other (h.delivered other hother) _ hkey)
      (fun h hleaf => h.holds.drop h.proper hleaf) (List.prefix_refl operations)
  exact halong.holds

/-- Every key that is cut is on a cycle then. -/
theorem Steady.onCycle_of_mem_cut (h : outline.Steady) (hproper : outline.Proper)
    (hx : x ∈ outline.cut) : OnCycle outline.keys x := by
  obtain ⟨key, hkey, rfl, p, hp, -⟩ := hproper.cut_issued x hx
  have hhangs := h.hangs _ hx key hkey rfl p hp
  exact Relation.TransGen.tail' (issues_of_hangs hproper.sorted hhangs) ⟨key, hkey, rfl, hp⟩

theorem onCycle_of_mem_cut (hsteady : Operation.Steady operations) :
    ∀ x ∈ (afterRun operations).cut, OnCycle (afterRun operations).keys x := fun _ hx =>
  (steady_afterRun hsteady).onCycle_of_mem_cut (proper_afterRun operations) hx

end Outline

namespace Forest

variable {forest : Forest} {outline : Outline}

/-- Every key whose issuer is there is listed under it, unless the issuers lead from the key back to
it. -/
def FollowsIssuers (forest : Forest) : Prop :=
  ∀ key ∈ forest.stored, ∀ issuer, key.cleanIssuer = some issuer →
    forest.stored.has issuer = true →
      key ∈ forest.rows (some issuer) ∨ OnCycle forest.stored key.ident

/-- A key whose issuer is there is listed under it unless it is cut. -/
theorem Settled.mem_rows_issuer_iff (h : forest.Settled outline) (hproper : outline.Proper)
    {key : Key} {issuer : Fingerprint} (hkey : key ∈ outline.keys)
    (hissuer : key.cleanIssuer = some issuer) (hhas : outline.Has issuer.ident) :
    key ∈ forest.rows (some issuer) ↔ key.ident ∉ outline.cut := by
  have hident := Key.issuer_of_cleanIssuer hissuer
  rw [rows_eq, h.mem_under, Option.map_some, Outline.up_eq_under hproper.sorted hkey]
  simp [hkey, hident, hhas]

theorem Settled.followsIssuers_iff (h : forest.Settled outline) (hproper : outline.Proper) :
    forest.FollowsIssuers ↔ ∀ x ∈ outline.cut, OnCycle outline.keys x := by
  unfold FollowsIssuers
  rw [h.stored_eq hproper.sorted]
  constructor
  · intro hfollows x hx
    obtain ⟨key, hkey, rfl, p, hp, hhas⟩ := hproper.cut_issued x hx
    obtain ⟨issuer, hissuer, rfl⟩ := Option.map_eq_some_iff.mp hp
    refine (hfollows key hkey issuer hissuer ?_).resolve_left ?_
    · rw [← h.stored_eq hproper.sorted]
      exact h.has_stored.mpr hhas
    · rw [h.mem_rows_issuer_iff hproper hkey hissuer hhas, not_not]
      exact hx
  · intro hcycle key hkey issuer hissuer hhas
    rw [← h.stored_eq hproper.sorted, h.has_stored] at hhas
    rw [h.mem_rows_issuer_iff hproper hkey hissuer hhas]
    by_cases hcut : key.ident ∈ outline.cut
    · exact .inr (hcycle key.ident hcut)
    · exact .inl hcut

/-- After a run the keys are listed under their issuers, but for cycles, exactly if every key that
was cut when it was last delivered, and whose issuer has not left since, is on a cycle. -/
theorem run_followsIssuers_iff (operations : List Operation) :
    (Operation.run operations : Journal Forest).state.FollowsIssuers ↔
      ∀ x ∈ (Outline.afterRun operations).cut, OnCycle (Outline.afterRun operations).keys x :=
  (run_spec operations).2.followsIssuers_iff (Outline.proper_afterRun operations)

/-- As long as no certificate changes its issuer, the forest follows the issuers. -/
theorem followsIssuers_of_steady {operations : List Operation}
    (hsteady : Operation.Steady operations) :
    (Operation.run operations : Journal Forest).state.FollowsIssuers :=
  ((run_spec operations).2.followsIssuers_iff (Outline.proper_afterRun operations)).mpr
    (Outline.onCycle_of_mem_cut hsteady)

/-- Two keys name each other, so that the second is cut; then the first becomes a root. The second
stays at the top level. -/
theorem not_followsIssuers_of_opened_cycle :
    let first := (Key.ofFingerprint (.ofText "A")).issuedBy (.ofText "AB")
    let second := (Key.ofFingerprint (.ofText "AB")).issuedBy (.ofText "A")
    ¬ (Operation.run [.addOne first, .addOne second, .addOne first.asRoot] :
      Journal Forest).state.FollowsIssuers := by
  intro first second hfollows
  have hstored : (Operation.run [.addOne first, .addOne second, .addOne first.asRoot] :
      Journal Forest).state.stored = [first.asRoot, second] := by decide +kernel
  have hrows : (Operation.run [.addOne first, .addOne second, .addOne first.asRoot] :
      Journal Forest).state.rows (some (.ofText "A")) = [] := by decide +kernel
  unfold FollowsIssuers at hfollows
  rw [hstored] at hfollows
  rcases hfollows second (by simp) (.ofText "A") (by decide) (by decide +kernel) with hlisted | hcycle
  · simp [hrows] at hlisted
  · exact not_onCycle_of_rank List.length (by decide) _ hcycle

end Forest

end KeyForest
