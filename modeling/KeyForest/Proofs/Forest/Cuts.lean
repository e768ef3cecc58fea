import KeyForest.Proofs.Forest.Cycles
import KeyForest.Proofs.Forest.Membership

/-!
# Where cycles are cut

As long as no update gives a stored key another issuer, the way up from the issuer of a key that is
cut leads back to it (`Outline.Steady`). A cycle of issuers has then one cut, at a key from which all
other keys of the cycle hang (`Outline.Steady.hangs_of_above`), and no key off the cycles is cut.
Unlike `Operation.Steady` this leaves it open whether a key that was removed comes back with another
issuer.
-/
namespace KeyForest

/-- Whether the operation merges keys into those that are stored. -/
def Operation.isAdd : Operation → Bool
  | .add _ => true
  | .addOne _ => true
  | _ => false

/-- Adding keys never changes the issuer of a key that is stored at that moment. -/
def Operation.KeepsIssuers (operations : List Operation) : Prop :=
  ∀ earlier operation, earlier ++ [operation] <+: operations → operation.isAdd = true →
    ∀ old ∈ (run earlier : Journal Forest).state.stored,
      ∀ new ∈ (run (earlier ++ [operation]) : Journal Forest).state.stored,
        new.ident = old.ident → new.issuer = old.issuer

theorem Operation.KeepsIssuers.nil : KeepsIssuers [] := by
  intro earlier operation hearlier
  simp at hearlier

theorem Operation.KeepsIssuers.concat {operations : List Operation} {operation : Operation}
    (h : KeepsIssuers operations)
    (hlast : operation.isAdd = true → ∀ old ∈ (run operations : Journal Forest).state.stored,
      ∀ new ∈ (run (operations ++ [operation]) : Journal Forest).state.stored,
        new.ident = old.ident → new.issuer = old.issuer) :
    KeepsIssuers (operations ++ [operation]) := by
  intro earlier last hearlier
  rcases List.prefix_concat_iff.mp hearlier with heq | hearlier
  · obtain ⟨rfl, hlast'⟩ := List.append_inj' heq rfl
    obtain rfl := List.singleton_inj.mp hlast'
    exact hlast
  · exact h earlier last hearlier

namespace Outline

open Placements

variable {outline : Outline} {keys : List Key} {operations earlier : List Operation} {x y : Ident}
  {f : Fingerprint}

/-! ### Steady outlines along a run -/

theorem Steady.empty : Steady {} := ⟨⟨[], rfl⟩, by simp⟩

theorem Steady.add (h : outline.Steady) (hproper : outline.Proper)
    (hsame : ∀ old ∈ outline.keys, ∀ new ∈ Bucket.ofBatch keys, old.ident = new.ident →
      old.issuer = new.issuer) : (outline.add keys).Steady := by
  have hperm := Bucket.issuersFirst_perm (Bucket.ofBatch keys)
  have hdistinct : ((Bucket.issuersFirst (Bucket.ofBatch keys)).map Key.ident).Nodup :=
    (hperm.map Key.ident).nodup_iff.mpr (Bucket.isSorted_ofBatch keys).nodup_idents
  have hnamed : ∀ key ∈ Bucket.issuersFirst (Bucket.ofBatch keys), key.ident ≠ [] := fun key hkey =>
    (Bucket.mem_of_mem_ofBatch (hperm.mem_iff.mp hkey)).2
  simp only [← hperm.mem_iff] at hsame
  unfold Outline.add
  generalize Bucket.issuersFirst (Bucket.ofBatch keys) = batch at hdistinct hnamed hsame
  induction batch generalizing outline with
  | nil => exact h
  | cons key batch ih =>
    obtain ⟨hkey, hnamed⟩ := List.forall_mem_cons.mp hnamed
    obtain ⟨hfresh, hdistinct⟩ := List.nodup_cons.mp hdistinct
    refine ih (h.deliver hproper hkey fun old hold => hsame old hold key List.mem_cons_self)
      (hproper.deliver hkey) hdistinct hnamed fun old hold new hnew hident => ?_
    rcases (Bucket.mem_put hproper.sorted).mp hold with rfl | ⟨hold, -⟩
    · exact absurd (List.mem_map.mpr ⟨new, hnew, hident.symm⟩) hfresh
    · exact hsame old hold new (List.mem_cons_of_mem _ hnew) hident

theorem Steady.remove (h : outline.Steady) (hproper : outline.Proper) (f : Fingerprint) :
    (outline.remove f).Steady := by
  unfold Outline.remove
  split
  · exact Steady.empty.add proper_empty (by simp)
  · rename_i hleaf
    exact h.drop hproper (not_exists.mp hleaf)

/-- An update that keeps the issuers of the stored keys keeps what is delivered with them. -/
theorem issuer_of_keepsIssuers (hkeeps : Operation.KeepsIssuers operations) {operation : Operation}
    (hearlier : earlier ++ [operation] <+: operations) (hadd : operation.isAdd = true)
    (hafter : (afterRun earlier).follow operation = (afterRun earlier).add keys) :
    ∀ old ∈ (afterRun earlier).keys, ∀ new ∈ Bucket.ofBatch keys, old.ident = new.ident →
      old.issuer = new.issuer := by
  intro old hold new hnew hident
  refine (hkeeps earlier operation hearlier hadd old ?_ new ?_ hident.symm).symm
  · rw [(Forest.run_spec earlier).2.stored_eq (proper_afterRun earlier).sorted]
    exact hold
  · rw [(Forest.run_spec _).2.stored_eq (proper_afterRun _).sorted, afterRun_concat, hafter]
    exact (mem_add (proper_afterRun earlier)).mpr (.inl hnew)

/-- The outline is steady after every operation. -/
theorem steady_of_keepsIssuers (hkeeps : Operation.KeepsIssuers operations)
    (hearlier : earlier <+: operations) : (afterRun earlier).Steady := by
  induction earlier using List.reverseRecOn with
  | nil => exact Steady.empty
  | append_singleton earlier operation ih =>
    have h := ih ((List.prefix_append _ _).trans hearlier)
    have hproper := proper_afterRun earlier
    rw [afterRun_concat]
    cases operation with
    | add keys => exact h.add hproper (issuer_of_keepsIssuers hkeeps hearlier rfl rfl)
    | addOne key => exact h.add hproper (issuer_of_keepsIssuers hkeeps hearlier rfl rfl)
    | set keys => exact Steady.empty.add proper_empty (by simp)
    | remove f => exact h.remove hproper f
    | clear => exact Steady.empty

/-! ### The cut of a cycle -/

/-- Everything above a key that is cut hangs from it. -/
theorem Steady.hangs_of_above (h : outline.Steady) (hproper : outline.Proper)
    (hx : x ∈ outline.cut) (habove : Relation.ReflTransGen (Issues outline.keys) y x) :
    Hangs outline.up x y := by
  induction habove using Relation.ReflTransGen.head_induction_on with
  | refl => exact .self
  | @head q c hq _ ih =>
    obtain ⟨key, hkey, rfl, hissuer⟩ := hq
    rcases ih.eq_or_child with heq | ⟨p, hp, hhangs⟩
    · exact h.hangs x hx key hkey heq q hissuer
    · rw [((up_eq_under hproper.sorted hkey).mp hp).1] at hissuer
      cases hissuer
      exact hhangs

/-- Only one key of a cycle is cut. -/
theorem Steady.cut_unique (h : outline.Steady) (hproper : outline.Proper) (hx : x ∈ outline.cut)
    (hy : y ∈ outline.cut) (habove : Relation.ReflTransGen (Issues outline.keys) y x) : y = x := by
  obtain ⟨key, hkey, rfl, -⟩ := hproper.cut_issued y hy
  rcases (h.hangs_of_above hproper hx habove).eq_or_child with heq | ⟨p, hp, -⟩
  · exact heq
  · exact absurd hy ((up_eq_under hproper.sorted hkey).mp hp).2.2

/-- A key at the top level whose issuer is there is cut. -/
theorem mem_cut_of_top (hsorted : Bucket.IsSorted outline.keys) (htop : outline.up x = some none)
    {p : Ident} (hissues : Issues outline.keys p x) (hhas : outline.Has p) : x ∈ outline.cut := by
  obtain ⟨key, hkey, rfl, hissuer⟩ := hissues
  exact ((up_eq_top hsorted hkey).mp htop).resolve_right fun hmissing => hmissing p hissuer hhas

/-- The way up from a key on a cycle ends at a key of the cycle that is cut. -/
theorem Steady.exists_cut (h : outline.Steady) (hproper : outline.Proper)
    (hx : OnCycle outline.keys x) : ∃ r ∈ outline.cut, SameCycle outline.keys x r := by
  obtain ⟨operations, rfl⟩ := h.reached
  obtain ⟨_, _, key, hkey, hident, -⟩ := Relation.TransGen.tail'_iff.mp hx
  have hattached := (attached_afterRun operations).mpr ⟨key, hkey, hident⟩
  obtain ⟨r, htop, hr⟩ := hattached.exists_top
  have hsame := hx.sameCycle hproper.sorted.nodup_idents (issues_of_hangs hproper.sorted hr)
  obtain ⟨p, hissues, hhas⟩ := hsame.exists_issuer
  exact ⟨r, mem_cut_of_top hproper.sorted htop hissues hhas, hsame⟩

end Outline

namespace Forest

variable {forest : Forest} {outline : Outline}

/-- Each cycle of issuers is cut once. One of its keys is at the top level and waits for nobody, and
all others are listed under their issuers, as is every key on no cycle whose issuer is there. -/
structure CutOnce (forest : Forest) : Prop where
  cut : ∀ x, OnCycle forest.stored x → ∃ top ∈ forest.stored, SameCycle forest.stored x top.ident ∧
    forest.membership top.fingerprint = .topLevel ∧ (∀ issuer, top ∉ forest.waitingFor issuer) ∧
    ∀ key ∈ forest.stored, SameCycle forest.stored x key.ident →
      (key ∈ forest.rows none ↔ key = top) ∧
      (key ≠ top → ∃ issuer, key.cleanIssuer = some issuer ∧ key ∈ forest.rows (some issuer))
  followed : ∀ key ∈ forest.stored, ¬ OnCycle forest.stored key.ident →
    ∀ issuer, key.cleanIssuer = some issuer → forest.stored.has issuer = true →
      key ∈ forest.rows (some issuer)

section Rest

variable (h : forest.Settled outline) (hproper : outline.Proper)
include h hproper

/-- A key that is cut is at the top level, and its issuer is there, so that it waits for nobody. -/
theorem Settled.top_of_cut {key : Key} (hkey : key ∈ outline.keys)
    (hcut : key.ident ∈ outline.cut) :
    key ∈ forest.rows none ∧ ∀ issuer, key ∉ forest.waitingFor issuer := by
  constructor
  · rw [rows_eq, Option.map_none, h.mem_under]
    exact ⟨hkey, (Outline.up_eq_top hproper.sorted hkey).mpr (.inl hcut)⟩
  · intro issuer hwaits
    rw [waitingFor_eq, h.waits.awaiting_iff] at hwaits
    obtain ⟨-, hissuer, hmissing⟩ := hwaits
    obtain ⟨other, hother, hident, p, hp, hhas⟩ := hproper.cut_issued _ hcut
    rw [hproper.sorted.eq_of_ident hother hkey hident, hissuer] at hp
    cases hp
    exact hmissing hhas

/-- A key at the top level that waits for nobody is said to be there, and to wait for nobody. -/
theorem Settled.membership_of_top {key : Key} (htop : key ∈ forest.rows none)
    (hnobody : ∀ issuer, key ∉ forest.waitingFor issuer) :
    forest.membership key.fingerprint = .topLevel := by
  rw [rows_eq, Option.map_none] at htop
  refine (h.waitsExactly hproper).topLevel_iff.mpr
    ⟨key, h.mem_stored.mpr ⟨none, htop⟩, rfl, fun parent hparent => ?_, hnobody⟩
  rw [rows_eq, Option.map_some] at hparent
  have := (h.arranged.row_unique htop hparent rfl).1
  contradiction

/-- A key whose issuer is there is listed under it unless it is cut. -/
theorem Settled.listed_of_issues {key : Key} {p : Ident} (hkey : key ∈ outline.keys)
    (hcut : key.ident ∉ outline.cut) (hissues : Issues outline.keys p key.ident)
    (hhas : outline.Has p) :
    ∃ issuer, key.cleanIssuer = some issuer ∧ key ∈ forest.rows (some issuer) := by
  obtain ⟨other, hother, hident, hissuer⟩ := hissues
  rw [hproper.sorted.eq_of_ident hother hkey hident] at hissuer
  obtain ⟨issuer, hclean, rfl⟩ := Option.map_eq_some_iff.mp hissuer
  exact ⟨issuer, hclean, (h.mem_rows_issuer_iff hproper hkey hclean hhas).mpr hcut⟩

theorem Settled.cutOnce (hsteady : outline.Steady) : forest.CutOnce := by
  have hstored := h.stored_eq hproper.sorted
  constructor
  · intro x hx
    rw [hstored] at hx ⊢
    obtain ⟨r, hr, hxr⟩ := hsteady.exists_cut hproper hx
    obtain ⟨top, htop, rfl, -⟩ := hproper.cut_issued r hr
    have hsits := h.top_of_cut hproper htop hr
    refine ⟨top, htop, hxr, h.membership_of_top hproper hsits.1 hsits.2, hsits.2,
      fun key hkey hxkey => ?_⟩
    have hcut : key.ident ∈ outline.cut → key = top := fun hcut =>
      hproper.sorted.eq_of_ident hkey htop
        (hsteady.cut_unique hproper hr hcut (hxkey.symm.trans hxr).1.to_reflTransGen)
    obtain ⟨p, hissues, hhas⟩ := hxkey.exists_issuer
    refine ⟨⟨fun hrow => hcut ?_, fun heq => heq ▸ hsits.1⟩, fun hne =>
      h.listed_of_issues hproper hkey (fun hkeyCut => hne (hcut hkeyCut)) hissues hhas⟩
    rw [rows_eq, Option.map_none, h.mem_under] at hrow
    exact Outline.mem_cut_of_top hproper.sorted hrow.2 hissues hhas
  · intro key hkey hoff issuer hissuer hhas
    rw [hstored] at hkey hoff
    rw [h.has_stored] at hhas
    refine (h.mem_rows_issuer_iff hproper hkey hissuer hhas).mpr fun hcut => hoff ?_
    exact hsteady.onCycle_of_mem_cut hproper hcut

end Rest

/-- In a run in which no update changes the issuer of a stored key, every cycle of issuers is cut
once, at whatever moment the run is looked at. -/
theorem run_cutOnce {operations : List Operation} (hkeeps : Operation.KeepsIssuers operations) :
    ∀ earlier, earlier <+: operations →
      (Operation.run earlier : Journal Forest).state.CutOnce := fun earlier hearlier =>
  (run_spec earlier).2.cutOnce (Outline.proper_afterRun earlier)
    (Outline.steady_of_keepsIssuers hkeeps hearlier)

/-- Three keys name each other in a circle. One of them is removed and comes back under the name of
another issuer, which makes a shorter circle. -/
theorem run_cutOnce_shortened :
    let first := (Key.ofFingerprint (.ofText "A")).issuedBy (.ofText "ABC")
    let second := (Key.ofFingerprint (.ofText "AB")).issuedBy (.ofText "A")
    let third := (Key.ofFingerprint (.ofText "ABC")).issuedBy (.ofText "AB")
    let operations : List Operation :=
      [.addOne third, .addOne first, .addOne second, .remove first.fingerprint,
        .addOne (first.issuedBy second.fingerprint)]
    OnCycle (Operation.run operations : Journal Forest).state.stored first.ident ∧
      Operation.KeepsIssuers operations ∧ ∀ earlier, earlier <+: operations →
        (Operation.run earlier : Journal Forest).state.CutOnce := by
  intro first second third operations
  have hup : Issues (Operation.run operations : Journal Forest).state.stored second.ident
      first.ident := by
    unfold Issues
    decide +kernel
  have hdown : Issues (Operation.run operations : Journal Forest).state.stored first.ident
      second.ident := by
    unfold Issues
    decide +kernel
  have hkeeps : Operation.KeepsIssuers operations := by
    have hfirst : Operation.KeepsIssuers [.addOne third] := .concat .nil (by decide +kernel)
    have hsecond : Operation.KeepsIssuers [.addOne third, .addOne first] :=
      .concat hfirst (by decide +kernel)
    have hthird : Operation.KeepsIssuers [.addOne third, .addOne first, .addOne second] :=
      .concat hsecond (by decide +kernel)
    have hremoved : Operation.KeepsIssuers
        [.addOne third, .addOne first, .addOne second, .remove first.fingerprint] :=
      .concat hthird (by decide)
    exact .concat hremoved (by decide +kernel)
  exact ⟨(Relation.TransGen.single hdown).tail hup, hkeeps, run_cutOnce hkeeps⟩

end Forest

end KeyForest
