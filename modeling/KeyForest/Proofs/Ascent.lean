import KeyForest.Proofs.Identity
import Mathlib.Data.List.Nodup
import Mathlib.Logic.Function.Basic
import Mathlib.Tactic

/-!
# Ways up through placements

Placements say for some certificates whether they stand at the top or under a parent. `Attached`
certificates reach the top on their way up, `Hangs r x` says that `r` is met on the way up from
`x`, and `Ends n x` that the way ends after `n` parents. When all ways end, there are no cycles,
and a way is no longer than the number of certificates on it (`Ends.le_length`). The last part
follows the three relations when a certificate loses its place (`hangs_vacate`) or is given one
(`attached_settle`).
-/
namespace KeyForest

/-- The parent of each placed certificate, or none at the top. -/
abbrev Placements := Ident → Option (Option Ident)

namespace Placements

variable {up : Placements} {r x y p f : Ident} {n m : ℕ}

/-- The way up from `x` reaches the top. -/
inductive Attached (up : Placements) : Ident → Prop
  | top {x : Ident} : up x = some none → Attached up x
  | child {x p : Ident} : up x = some (some p) → Attached up p → Attached up x

/-- The way up from `x` meets `r`. -/
inductive Hangs (up : Placements) (r : Ident) : Ident → Prop
  | self : Hangs up r r
  | child {x p : Ident} : up x = some (some p) → Hangs up r p → Hangs up r x

/-- The way up from `x` ends after `n` parents, at the top or at a certificate without a place. -/
inductive Ends (up : Placements) : ℕ → Ident → Prop
  | here {x : Ident} : (∀ p, up x ≠ some (some p)) → Ends up 0 x
  | child {x p : Ident} {n : ℕ} : up x = some (some p) → Ends up n p → Ends up (n + 1) x

/-- No way up runs in a circle. -/
def Acyclic (up : Placements) : Prop := ∀ x, ∃ n, Ends up n x

theorem Attached.isSome (h : Attached up x) : (up x).isSome := by
  cases h with
  | top h => simp [h]
  | child h _ => simp [h]

theorem Attached.of_child (h : Attached up x) (hx : up x = some (some p)) : Attached up p := by
  cases h with
  | top h => simp [h] at hx
  | child h hp => simp_all

theorem Attached.ends (h : Attached up x) : ∃ n, Ends up n x := by
  induction h with
  | top h => exact ⟨0, .here fun p => by simp [h]⟩
  | child h _ ih =>
    obtain ⟨n, hn⟩ := ih
    exact ⟨n + 1, .child h hn⟩

theorem Ends.unique (h : Ends up n x) (h' : Ends up m x) : n = m := by
  induction h generalizing m with
  | here hx =>
    cases h' with
    | here _ => rfl
    | child hx' _ => exact absurd hx' (hx _)
  | child hx _ ih =>
    cases h' with
    | here hx' => exact absurd hx (hx' _)
    | child hx' hp =>
      rw [hx] at hx'
      cases hx'
      rw [ih hp]

theorem Attached.exists_top (h : Attached up x) : ∃ r, up r = some none ∧ Hangs up r x := by
  induction h with
  | @top x h => exact ⟨x, h, .self⟩
  | child h _ ih =>
    obtain ⟨r, hr, hhangs⟩ := ih
    exact ⟨r, hr, .child h hhangs⟩

theorem Hangs.trans (hrx : Hangs up r x) (hxy : Hangs up x y) : Hangs up r y := by
  induction hxy with
  | self => exact hrx
  | child hy _ ih => exact .child hy ih

theorem Hangs.eq_or_child (h : Hangs up r x) :
    x = r ∨ ∃ p, up x = some (some p) ∧ Hangs up r p := by
  cases h with
  | self => exact .inl rfl
  | child hx hp => exact .inr ⟨_, hx, hp⟩

theorem Hangs.of_child (h : Hangs up r x) (hx : up x = some (some p)) (hne : x ≠ r) :
    Hangs up r p := by
  cases h with
  | self => contradiction
  | child hx' hp => simp_all

/-- Where more certificates stand under parents, more hang below. -/
theorem Hangs.mono {up' : Placements} (hup : ∀ y p, up y = some (some p) → up' y = some (some p))
    (h : Hangs up r x) : Hangs up' r x := by
  induction h with
  | self => exact .self
  | child hx _ ih => exact .child (hup _ _ hx) ih

/-- Where the certificate itself stands does not matter for what hangs below it. -/
theorem Hangs.congr {up' : Placements} (hup : ∀ y, y ≠ r → up y = up' y) (h : Hangs up r x) :
    Hangs up' r x := by
  induction h with
  | self => exact .self
  | @child x p hx _ ih =>
    by_cases hxr : x = r
    · rw [hxr]
      exact .self
    · exact .child (hup x hxr ▸ hx) ih

theorem Hangs.congr_iff {up' : Placements} (hup : ∀ y, y ≠ r → up y = up' y) :
    Hangs up r x ↔ Hangs up' r x :=
  ⟨.congr hup, .congr fun y hy => (hup y hy).symm⟩

/-- Seen from above, a way down starts at the certificate itself or at one directly under it. -/
theorem Hangs.from_root (h : Hangs up r x) : x = r ∨ ∃ c, up c = some (some r) ∧ Hangs up c x := by
  induction h with
  | self => exact .inl rfl
  | child hx _ ih =>
    rcases ih with rfl | ⟨c, hc, hcp⟩
    · exact .inr ⟨_, hx, .self⟩
    · exact .inr ⟨c, hc, .child hx hcp⟩

theorem Hangs.attached_iff (h : Hangs up r x) : Attached up x ↔ Attached up r := by
  induction h with
  | self => rfl
  | child hx _ ih =>
    rw [← ih]
    exact ⟨fun h => h.of_child hx, .child hx⟩

/-- The further down, the longer the way up. -/
theorem Hangs.ends (h : Hangs up r x) (hr : Ends up n r) :
    ∃ m, Ends up m x ∧ n ≤ m ∧ (m = n → x = r) := by
  induction h with
  | self => exact ⟨n, hr, Nat.le_refl _, fun _ => rfl⟩
  | child hx _ ih =>
    obtain ⟨m, hm, hle, -⟩ := ih
    exact ⟨m + 1, .child hx hm, by omega, by omega⟩

theorem Ends.not_hangs_child (hx : Ends up n x) (hp : up x = some (some p)) : ¬ Hangs up x p := by
  intro h
  obtain ⟨m, hm, hle, -⟩ := h.ends hx
  have := (Ends.child hp hm).unique hx
  omega

/-- The certificates that have a parent on a way up: as many as the way is long, all different. -/
theorem Ends.exists_nodup (h : Ends up n x) :
    ∃ way : List Ident, way.length = n ∧ way.Nodup ∧
      ∀ y ∈ way, Hangs up y x ∧ (∃ p, up y = some (some p)) ∧ ∃ m ≤ n, Ends up m y := by
  induction h with
  | here _ => exact ⟨[], rfl, List.nodup_nil, by simp⟩
  | @child x p n hx hp ih =>
    obtain ⟨way, hlen, hnodup, hway⟩ := ih
    refine ⟨x :: way, by simp [hlen], List.nodup_cons.mpr ⟨fun hmem => ?_, hnodup⟩, fun y hy => ?_⟩
    · obtain ⟨-, -, m, hle, hm⟩ := hway x hmem
      have := hm.unique (.child hx hp)
      omega
    · rcases List.mem_cons.mp hy with rfl | hy
      · exact ⟨.self, ⟨p, hx⟩, n + 1, Nat.le_refl _, .child hx hp⟩
      · obtain ⟨hyp, hparent, m, hle, hm⟩ := hway y hy
        exact ⟨.child hx hyp, hparent, m, by omega, hm⟩

/-- A way up is no longer than a list that holds every certificate on it that has a parent. -/
theorem Ends.le_length (h : Ends up n x) {idents : List Ident}
    (hall : ∀ y p, Hangs up y x → up y = some (some p) → y ∈ idents) : n ≤ idents.length := by
  obtain ⟨way, rfl, hnodup, hway⟩ := h.exists_nodup
  refine (hnodup.subperm fun y hy => ?_).length_le
  obtain ⟨hyx, ⟨p, hp⟩, -⟩ := hway y hy
  exact hall y p hyx hp

/-! ### Giving up a place -/

section Vacate

/-- The placements without the place of `f`. -/
abbrev vacate (up : Placements) (f : Ident) : Placements := Function.update up f none

theorem Hangs.of_vacate (h : Hangs (vacate up f) r x) : Hangs up r x := by
  refine h.mono fun y p hy => ?_
  by_cases hyf : y = f
  · simp [vacate, hyf] at hy
  · rwa [vacate, Function.update_of_ne hyf] at hy

/-- What hangs below a certificate still does when it gives up its place. -/
theorem hangs_vacate : Hangs (vacate up f) f x ↔ Hangs up f x := by
  refine ⟨Hangs.of_vacate, fun h => ?_⟩
  induction h with
  | self => exact .self
  | @child x p hx _ ih =>
    by_cases hxf : x = f
    · rw [hxf]
      exact .self
    · exact .child (by rwa [vacate, Function.update_of_ne hxf]) ih

theorem Hangs.vacate (h : Hangs up r x) (hf : ¬ Hangs up f x) : Hangs (vacate up f) r x := by
  induction h with
  | self => exact .self
  | @child x p hx _ ih =>
    have hxf : x ≠ f := by
      rintro rfl
      exact hf .self
    exact .child (by rwa [Placements.vacate, Function.update_of_ne hxf])
      (ih fun h => hf (.child hx h))

theorem Acyclic.vacate (h : Acyclic up) (f : Ident) : Acyclic (vacate up f) := by
  intro x
  obtain ⟨n, hn⟩ := h x
  induction hn with
  | @here x hx =>
    refine ⟨0, .here fun p => ?_⟩
    by_cases hxf : x = f
    · simp [Placements.vacate, hxf]
    · rw [Placements.vacate, Function.update_of_ne hxf]
      exact hx p
  | @child x p n hx _ ih =>
    by_cases hxf : x = f
    · exact ⟨0, .here fun p => by simp [Placements.vacate, hxf]⟩
    · obtain ⟨m, hm⟩ := ih
      exact ⟨m + 1, .child (by rwa [Placements.vacate, Function.update_of_ne hxf]) hm⟩

theorem attached_vacate : Attached (vacate up f) x ↔ Attached up x ∧ ¬ Hangs up f x := by
  constructor
  · intro h
    induction h with
    | @top x hx =>
      have hxf : x ≠ f := by
        rintro rfl
        simp [vacate] at hx
      rw [vacate, Function.update_of_ne hxf] at hx
      refine ⟨.top hx, ?_⟩
      rintro (_ | ⟨hx', -⟩)
      · contradiction
      · simp [hx] at hx'
    | @child x p hx _ ih =>
      have hxf : x ≠ f := by
        rintro rfl
        simp [vacate] at hx
      rw [vacate, Function.update_of_ne hxf] at hx
      exact ⟨.child hx ih.1, fun h => ih.2 (h.of_child hx hxf)⟩
  · rintro ⟨h, hf⟩
    induction h with
    | @top x hx =>
      have hxf : x ≠ f := by
        rintro rfl
        exact hf .self
      exact .top (by rwa [vacate, Function.update_of_ne hxf])
    | @child x p hx _ ih =>
      have hxf : x ≠ f := by
        rintro rfl
        exact hf .self
      exact .child (by rwa [vacate, Function.update_of_ne hxf]) (ih fun h => hf (.child hx h))

end Vacate

/-! ### Taking a place -/

section Settle

/-- The placements with `f` placed under `parent`, or at the top. -/
abbrev settle (up : Placements) (f : Ident) (parent : Option Ident) : Placements :=
  Function.update up f (some parent)

variable {parent : Option Ident}

theorem Hangs.settle (h : Hangs up r x) (hf : up f = none) : Hangs (settle up f parent) r x := by
  refine h.mono fun y p hy => ?_
  have hyf : y ≠ f := by
    rintro rfl
    simp [hf] at hy
  rwa [Placements.settle, Function.update_of_ne hyf]

theorem Attached.settle (h : Attached up x) (hf : up f = none) :
    Attached (settle up f parent) x := by
  induction h with
  | @top x hx =>
    have hxf : x ≠ f := by
      rintro rfl
      simp [hf] at hx
    exact .top (by rwa [Placements.settle, Function.update_of_ne hxf])
  | @child x p hx _ ih =>
    have hxf : x ≠ f := by
      rintro rfl
      simp [hf] at hx
    exact .child (by rwa [Placements.settle, Function.update_of_ne hxf]) ih

/-- A certificate that takes a place under an attached parent brings what hangs below it along. -/
theorem attached_settle (hf : up f = none) (hparent : ∀ p ∈ parent, Attached up p) :
    Attached (settle up f parent) x ↔ Attached up x ∨ Hangs up f x := by
  have hself : Attached (settle up f parent) f := by
    cases parent with
    | none => exact .top (by simp [settle])
    | some p => exact .child (by simp [settle]) ((hparent p rfl).settle hf)
  constructor
  · intro h
    induction h with
    | @top x hx =>
      by_cases hxf : x = f
      · rw [hxf]
        exact .inr .self
      · rw [settle, Function.update_of_ne hxf] at hx
        exact .inl (.top hx)
    | @child x p hx _ ih =>
      by_cases hxf : x = f
      · rw [hxf]
        exact .inr .self
      · rw [settle, Function.update_of_ne hxf] at hx
        exact ih.imp (.child hx) (.child hx)
  · rintro (h | h)
    · exact h.settle hf
    · exact (h.settle hf).attached_iff.mpr hself

/-- A certificate may leave its place for one under an attached parent that is not below it. -/
theorem attached_settle_self
    (hparent : ∀ p ∈ parent, Attached up p ∧ ¬ Hangs up f p) : Attached (settle up f parent) f := by
  have hsettle : settle (Placements.vacate up f) f parent = settle up f parent :=
    Function.update_idem _ _ _
  rw [← hsettle, attached_settle (by simp [Placements.vacate]) fun p hp =>
    attached_vacate.mpr (hparent p hp)]
  exact .inr .self

/-- The way up meets `f` exactly if it does not reach the top without, once all certificates that
have no place now are placed under `f`. -/
theorem hangs_of_gathered {up' : Placements} {gathered : Set Ident}
    (hgathered : ∀ y ∈ gathered, up y = none ∧ up' y = some (some f))
    (hother : ∀ y, y ≠ f → y ∉ gathered → up y = up' y)
    (hgrounded : ∀ y, (up y).isSome → Attached up y ∨ ∃ r ∈ gathered, Hangs up r y)
    (hx : (up' x).isSome) (hxf : x ≠ f) :
    Hangs up' f x ↔ ¬ (Attached up x ∧ ¬ Hangs up f x) := by
  have hkept {r y : Ident} (hr : Hangs up' f r) (h : Hangs up r y) : Hangs up' f y := by
    induction h with
    | self => exact hr
    | @child y p hy _ ih =>
      by_cases hyf : y = f
      · rw [hyf]
        exact .self
      · refine .child ?_ ih
        rw [← hother y hyf fun hmem => ?_]
        · exact hy
        · rw [(hgathered y hmem).1] at hy
          contradiction
  constructor
  · rintro h ⟨hattached, hnot⟩
    induction h with
    | self => exact hnot .self
    | @child y p hy _ ih =>
      have hmem : y ∉ gathered := fun hmem => by
        have := hattached.isSome
        simp [(hgathered y hmem).1] at this
      rw [← hother y hxf hmem] at hy
      by_cases hpf : p = f
      · exact hnot (.child hy (hpf ▸ .self))
      · have hp := hattached.of_child hy
        refine ih ?_ hpf hp fun h => hnot (.child hy h)
        by_cases hpmem : p ∈ gathered
        · simp [(hgathered p hpmem).2]
        · rw [← hother p hpf hpmem]
          exact hp.isSome
  · intro h
    by_cases hmem : x ∈ gathered
    · exact .child (hgathered x hmem).2 .self
    · rw [← hother x hxf hmem] at hx
      rcases hgrounded x hx with hattached | ⟨r, hr, hrx⟩
      · have hhangs : Hangs up f x := by
          by_contra hnot
          exact h ⟨hattached, hnot⟩
        exact hkept .self hhangs
      · exact hkept (.child (hgathered r hr).2 .self) hrx

end Settle

end Placements

end KeyForest
