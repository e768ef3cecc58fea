import KeyForest.Journal
import KeyForest.Proofs.Ascent
import KeyForest.Proofs.Batch

/-!
# Outlines of forests

An `Outline` is what decides the shape of a forest: the keys, and which of them are `cut` from their
issuers because listing them there would have closed a cycle when they were delivered. Every key
stands under its issuer when that is there and the key is not cut, and at the top otherwise
(`Outline.up`). The operations are followed on outlines from their definition alone
(`Outline.afterRun`).
-/
namespace KeyForest

open Placements

structure Outline where
  keys : Bucket := []
  cut : Set Ident := ∅

namespace Outline

variable {outline : Outline} {key other : Key} {x p : Ident} {f : Fingerprint}

/-- Whether a certificate is among the keys. -/
def Has (outline : Outline) (x : Ident) : Prop := ∃ key ∈ outline.keys, key.ident = x

open Classical in
/-- Where the keys stand. -/
noncomputable def up (outline : Outline) : Placements := fun x =>
  (outline.keys.key? x).map fun key =>
    if x ∈ outline.cut then none else key.issuer.filter fun p => outline.Has p

/-- The keys are a bucket without null keys, and only keys whose issuers are there are cut. -/
structure Proper (outline : Outline) : Prop where
  sorted : Bucket.IsSorted outline.keys
  named : ∀ key ∈ outline.keys, key.ident ≠ []
  cut_issued : ∀ x ∈ outline.cut, ∃ key ∈ outline.keys, key.ident = x ∧
    ∃ p, key.issuer = some p ∧ outline.Has p

theorem proper_empty : Proper {} := ⟨List.Pairwise.nil, by simp, by simp⟩

theorem up_eq_none : outline.up x = none ↔ ¬ outline.Has x := by
  rw [up, Option.map_eq_none_iff, Bucket.key?_eq_none]
  simp [Has]

theorem isSome_up : (outline.up x).isSome ↔ outline.Has x := by
  rw [Option.isSome_iff_ne_none, Ne, up_eq_none, not_not]

open Classical in
theorem up_of_mem (hsorted : Bucket.IsSorted outline.keys) (hkey : key ∈ outline.keys) :
    outline.up key.ident = some
      (if key.ident ∈ outline.cut then none else key.issuer.filter fun p => outline.Has p) := by
  rw [up, hsorted.key?_eq_some.mpr ⟨hkey, rfl⟩, Option.map_some]

/-- A key stands under its issuer when that is there and the key is not cut. -/
theorem up_eq_under (hsorted : Bucket.IsSorted outline.keys) (hkey : key ∈ outline.keys) :
    outline.up key.ident = some (some p) ↔
      key.issuer = some p ∧ outline.Has p ∧ key.ident ∉ outline.cut := by
  rw [up_of_mem hsorted hkey, Option.some.injEq]
  by_cases hcut : key.ident ∈ outline.cut
  · simp [hcut]
  · simp [hcut, Option.filter_eq_some_iff]

theorem up_eq_top (hsorted : Bucket.IsSorted outline.keys) (hkey : key ∈ outline.keys) :
    outline.up key.ident = some none ↔
      key.ident ∈ outline.cut ∨ ∀ p, key.issuer = some p → ¬ outline.Has p := by
  rw [up_of_mem hsorted hkey, Option.some.injEq]
  by_cases hcut : key.ident ∈ outline.cut
  · simp [hcut]
  · simp [hcut, Option.filter_eq_none_iff]

open Classical in
/-- Keys that agree in what decides about their places stand at the same place. -/
theorem up_congr {other : Outline} (hkey : outline.keys.key? x = other.keys.key? x)
    (hcut : x ∈ outline.cut ↔ x ∈ other.cut)
    (hhas : ∀ key ∈ outline.keys.key? x, ∀ p, key.issuer = some p →
      (outline.Has p ↔ other.Has p)) : outline.up x = other.up x := by
  rw [up, up, ← hkey]
  cases hx : outline.keys.key? x with
  | none => rfl
  | some key =>
    have hfilter : (key.issuer.filter fun p => outline.Has p) =
        key.issuer.filter fun p => other.Has p := by
      cases hissuer : key.issuer with
      | none => rfl
      | some p => simp [Option.filter, hhas key hx p hissuer]
    by_cases hx : x ∈ outline.cut
    · simp [hx, hcut.mp hx]
    · simp [hx, mt hcut.mpr hx, hfilter]

/-! ### Delivering keys -/

/-- Puts a key in. It is cut if the way up from its issuer leads to it. -/
def deliver (outline : Outline) (key : Key) : Outline where
  keys := outline.keys.put key
  cut := { x | x = key.ident ∧ (∃ p, key.issuer = some p ∧
      Hangs { outline with keys := outline.keys.put key }.up key.ident p) ∨
    x ≠ key.ident ∧ x ∈ outline.cut }

theorem has_put (h : outline.Proper) {cut : Set Ident} :
    Has ⟨outline.keys.put key, cut⟩ x ↔ x = key.ident ∨ outline.Has x := by
  rw [Has, Has, ← Bucket.isSome_key?, ← Bucket.isSome_key?, Bucket.key?_put h.sorted]
  by_cases hx : key.ident = x
  · simp [hx]
  · simp [hx, Ne.symm hx]

theorem has_deliver (h : outline.Proper) :
    (outline.deliver key).Has x ↔ x = key.ident ∨ outline.Has x := has_put h

/-- Whether the way from the issuer leads to the delivered key does not depend on its own place. -/
theorem mem_cut_deliver_self : key.ident ∈ (outline.deliver key).cut ↔
    ∃ p, key.issuer = some p ∧ Hangs (outline.deliver key).up key.ident p := by
  have hup : ∀ x, x ≠ key.ident →
      ({ outline with keys := outline.keys.put key } : Outline).up x = (outline.deliver key).up x := by
    intro x hx
    refine up_congr rfl ?_ fun _ _ _ _ => Iff.rfl
    simp [deliver, hx]
  have hhangs (p : Ident) := Hangs.congr_iff (r := key.ident) (x := p) hup
  simp only [deliver, Set.mem_ofPred_eq, true_and, ne_eq, not_true_eq_false, false_and, or_false]
  exact exists_congr fun p => and_congr_right fun _ => hhangs p

theorem mem_cut_deliver (hx : x ≠ key.ident) :
    x ∈ (outline.deliver key).cut ↔ x ∈ outline.cut := by
  simp [deliver, hx]

theorem Proper.deliver (h : outline.Proper) (hkey : key.ident ≠ []) :
    (outline.deliver key).Proper := by
  refine ⟨h.sorted.put key, fun other hother => ?_, fun x hx => ?_⟩
  · rcases (Bucket.mem_put h.sorted).mp hother with rfl | ⟨hother, -⟩
    · exact hkey
    · exact h.named other hother
  · by_cases hxkey : x = key.ident
    · rw [hxkey, mem_cut_deliver_self] at hx
      obtain ⟨p, hp, hhangs⟩ := hx
      refine ⟨key, (Bucket.mem_put h.sorted).mpr (.inl rfl), hxkey.symm, p, hp, ?_⟩
      rcases hhangs.eq_or_child with heq | ⟨q, hq, -⟩
      · exact absurd heq (Key.issuer_ne hp).1
      · exact isSome_up.mp (by simp [hq])
    · obtain ⟨other, hother, rfl, p, hp, hhas⟩ := h.cut_issued x ((mem_cut_deliver hxkey).mp hx)
      exact ⟨other, (Bucket.mem_put h.sorted).mpr (.inr ⟨hother, hxkey⟩), rfl, p, hp,
        (has_deliver h).mpr (.inr hhas)⟩

/-- The keys that wait for a delivered key move under it. -/
theorem up_deliver_waiter (h : outline.Proper) (hnew : ¬ outline.Has key.ident)
    (hother : other ∈ outline.keys) (hissuer : other.issuer = some key.ident) :
    (outline.deliver key).up other.ident = some (some key.ident) := by
  have hne : other.ident ≠ key.ident := fun heq => hnew ⟨other, hother, heq⟩
  refine (up_eq_under (h.sorted.put key)
    ((Bucket.mem_put h.sorted).mpr (.inr ⟨hother, hne⟩))).mpr ⟨hissuer, ?_, fun hcut => ?_⟩
  · exact (has_deliver h).mpr (.inl rfl)
  · obtain ⟨same, hsame, hident, p, hp, hhas⟩ := h.cut_issued _ ((mem_cut_deliver hne).mp hcut)
    rw [h.sorted.eq_of_ident hsame hother hident, hissuer] at hp
    cases hp
    exact hnew hhas

/-- All other keys stay where they are. -/
theorem up_deliver_other (h : outline.Proper) (hx : x ≠ key.ident)
    (hissuer : ∀ other ∈ outline.keys, other.ident = x → other.issuer = some key.ident →
      outline.Has key.ident) : (outline.deliver key).up x = outline.up x := by
  have hkey? : (outline.deliver key).keys.key? x = outline.keys.key? x := by
    rw [deliver, Bucket.key?_put h.sorted, if_neg (Ne.symm hx)]
  refine up_congr hkey? (mem_cut_deliver hx) fun other hother p hp => ?_
  rw [hkey?] at hother
  obtain ⟨hother, hident⟩ := Bucket.mem_of_key? hother
  rw [has_deliver h]
  refine ⟨fun hp' => hp'.elim (fun heq => ?_) id, .inr⟩
  subst heq
  exact hissuer other hother hident hp

/-- No key under an issuer leaves it when a new key is delivered. -/
theorem up_deliver_of_under (h : outline.Proper) (hnew : ¬ outline.Has key.ident)
    (hx : outline.up x = some (some p)) : (outline.deliver key).up x = some (some p) := by
  have hhas : outline.Has x := isSome_up.mp (by rw [hx, Option.isSome_some])
  have hxkey : x ≠ key.ident := fun heq => hnew (heq ▸ hhas)
  rw [up_deliver_other h hxkey, hx]
  rintro other hother rfl hissuer
  obtain ⟨hissuer', hp, -⟩ := (up_eq_under h.sorted hother).mp hx
  rw [hissuer] at hissuer'
  cases hissuer'
  exact hp

/-- Under other keys than the delivered one stands nothing new but perhaps the key itself. -/
theorem up_of_deliver_under (h : outline.Proper) (hnew : ¬ outline.Has key.ident)
    (hx : x ≠ key.ident) (hp : p ≠ key.ident) (hup : (outline.deliver key).up x = some (some p)) :
    outline.up x = some (some p) := by
  rw [← hup, eq_comm]
  refine up_deliver_other h hx ?_
  rintro other hother rfl hissuer
  rw [up_deliver_waiter h hnew hother hissuer] at hup
  cases hup
  exact absurd rfl hp

/-- No key below one that waits for a new key is the issuer under which the new key stands. -/
theorem up_deliver_self_ne (h : outline.Proper) (hnamed : key.ident ≠ [])
    (hnew : ¬ outline.Has key.ident) (hother : other ∈ outline.keys)
    (hissuer : other.issuer = some key.ident) (hhangs : Hangs outline.up other.ident p) :
    (outline.deliver key).up key.ident ≠ some (some p) := by
  intro hself
  have hdelivered := h.deliver hnamed
  obtain ⟨hp, -, hcut⟩ := (up_eq_under hdelivered.sorted
    ((Bucket.mem_put h.sorted).mpr (.inl rfl))).mp hself
  refine hcut (mem_cut_deliver_self.mpr ⟨p, hp, ?_⟩)
  have hbelow : Hangs (outline.deliver key).up key.ident other.ident :=
    .child (up_deliver_waiter h hnew hother hissuer) .self
  exact hbelow.trans (hhangs.mono fun _ _ => up_deliver_of_under h hnew)

/-- Puts in the keys of a batch, issuers first. -/
def add (outline : Outline) (keys : List Key) : Outline :=
  (Bucket.issuersFirst (Bucket.ofBatch keys)).foldl deliver outline

theorem Proper.add (h : outline.Proper) (keys : List Key) : (outline.add keys).Proper := by
  have hfold (batch : List Key) (hbatch : ∀ key ∈ batch, key.ident ≠ []) :
      (batch.foldl Outline.deliver outline).Proper := by
    induction batch generalizing outline with
    | nil => exact h
    | cons key batch ih =>
      obtain ⟨hkey, hbatch⟩ := List.forall_mem_cons.mp hbatch
      exact ih (h.deliver hkey) hbatch
  refine hfold _ fun key hkey => ?_
  exact (Bucket.mem_of_mem_ofBatch ((Bucket.issuersFirst_perm _).mem_iff.mp hkey)).2

theorem keys_add (outline : Outline) (keys : List Key) : (outline.add keys).keys =
    (Bucket.issuersFirst (Bucket.ofBatch keys)).foldl Bucket.put outline.keys := by
  unfold add
  generalize Bucket.issuersFirst (Bucket.ofBatch keys) = batch
  induction batch generalizing outline with
  | nil => rfl
  | cons key batch ih => exact ih (outline.deliver key)

theorem mem_add (h : outline.Proper) {keys : List Key} :
    key ∈ (outline.add keys).keys ↔ key ∈ Bucket.ofBatch keys ∨
      key ∈ outline.keys ∧ ∀ other ∈ Bucket.ofBatch keys, key.ident ≠ other.ident := by
  have hperm := Bucket.issuersFirst_perm (Bucket.ofBatch keys)
  rw [keys_add, Bucket.mem_foldl_put h.sorted fun a ha b hb hab =>
    (Bucket.isSorted_ofBatch keys).eq_of_ident (hperm.mem_iff.mp ha) (hperm.mem_iff.mp hb) hab]
  simp only [hperm.mem_iff]

/-! ### Removing keys -/

/-- Drops a key; the keys that are cut from it are not cut any more. -/
def drop (outline : Outline) (f : Fingerprint) : Outline where
  keys := outline.keys.erase f
  cut := { x | x ∈ outline.cut ∧ x ≠ f.ident ∧
    ∀ key ∈ outline.keys, key.ident = x → key.issuer ≠ some f.ident }

theorem has_drop (h : outline.Proper) :
    (outline.drop f).Has x ↔ outline.Has x ∧ x ≠ f.ident := by
  simp only [Has, drop, Bucket.mem_erase h.sorted]
  grind

theorem Proper.drop (h : outline.Proper) (f : Fingerprint) : (outline.drop f).Proper := by
  refine ⟨h.sorted.erase f, fun key hkey => ?_, fun x ⟨hx, hxf, hissuer⟩ => ?_⟩
  · exact h.named key ((Bucket.mem_erase h.sorted).mp hkey).1
  · obtain ⟨key, hkey, rfl, p, hp, hhas⟩ := h.cut_issued x hx
    refine ⟨key, (Bucket.mem_erase h.sorted).mpr ⟨hkey, hxf⟩, rfl, p, hp,
      (has_drop h).mpr ⟨hhas, ?_⟩⟩
    rintro rfl
    exact hissuer key hkey rfl hp

/-- When no key stands under the dropped one, all others stay where they are. -/
theorem up_drop (h : outline.Proper) (hleaf : ∀ y, outline.up y ≠ some (some f.ident))
    (hx : x ≠ f.ident) : (outline.drop f).up x = outline.up x := by
  by_cases hhas : outline.Has x
  · obtain ⟨key, hkey, rfl⟩ := hhas
    have hkey' : key ∈ (outline.drop f).keys := (Bucket.mem_erase h.sorted).mpr ⟨hkey, hx⟩
    by_cases hissuer : key.issuer = some f.ident
    · have hcut : key.ident ∈ outline.cut ∨ ¬ outline.Has f.ident := by
        by_contra hnot
        push Not at hnot
        exact hleaf _ ((up_eq_under h.sorted hkey).mpr ⟨hissuer, hnot.2, hnot.1⟩)
      rw [(up_eq_top h.sorted hkey).mpr (hcut.imp_right fun hf p hp => ?_),
        (up_eq_top (h.drop f).sorted hkey').mpr (.inr fun p hp => ?_)]
      · rw [has_drop h]
        rw [hissuer] at hp
        cases hp
        simp
      · rw [hissuer] at hp
        cases hp
        exact hf
    · refine up_congr ?_ ?_ fun other hother p hp => ?_
      · rw [(h.drop f).sorted.key?_eq_some.mpr ⟨hkey', rfl⟩,
          h.sorted.key?_eq_some.mpr ⟨hkey, rfl⟩]
      · refine ⟨And.left, fun hcut => ⟨hcut, hx, fun other hother hident => ?_⟩⟩
        rw [h.sorted.eq_of_ident hother hkey hident]
        exact hissuer
      · rw [(h.drop f).sorted.key?_eq_some.mpr ⟨hkey', rfl⟩] at hother
        cases hother
        rw [has_drop h, and_iff_left]
        rintro rfl
        exact hissuer hp
  · rw [up_eq_none.mpr hhas, up_eq_none, has_drop h]
    exact fun h => hhas h.1

theorem drop_of_not_has (h : outline.Proper) (hf : ¬ outline.Has f.ident) :
    outline.drop f = outline := by
  have hkeys : outline.keys.erase f = outline.keys := by
    refine (h.sorted.erase f).ext h.sorted fun key => ?_
    rw [Bucket.mem_erase h.sorted, and_iff_left_iff_imp]
    exact fun hkey heq => hf ⟨key, hkey, heq⟩
  have hcut : (outline.drop f).cut = outline.cut := by
    refine Set.ext fun x => ⟨And.left, fun hx => ?_⟩
    obtain ⟨key, hkey, rfl, p, hp, hhas⟩ := h.cut_issued x hx
    refine ⟨hx, fun heq => hf ⟨key, hkey, heq⟩, fun other hother hident hissuer => ?_⟩
    rw [h.sorted.eq_of_ident hother hkey hident, hp] at hissuer
    cases hissuer
    exact hf hhas
  cases outline
  exact congrArg₂ Outline.mk hkeys hcut

open Classical in
/-- Removes a key. If keys stand under it, all other keys are delivered anew. -/
noncomputable def remove (outline : Outline) (f : Fingerprint) : Outline :=
  if ∃ x, outline.up x = some (some f.ident) then
    ({} : Outline).add (outline.keys.filter fun key => !(key.fingerprint == f))
  else outline.drop f

theorem ofBatch_left (h : outline.Proper) (f : Fingerprint) :
    Bucket.ofBatch (outline.keys.filter fun key => !(key.fingerprint == f)) =
      outline.keys.filter fun key => !(key.fingerprint == f) :=
  Bucket.ofBatch_of_isSorted (h.sorted.filter _) fun key hkey =>
    h.named key (List.mem_filter.mp hkey).1

/-- Both ways of removing a key leave the same keys. -/
theorem mem_remove (h : outline.Proper) :
    key ∈ (outline.remove f).keys ↔ key ∈ outline.keys ∧ key.ident ≠ f.ident := by
  unfold remove
  split
  · rw [mem_add proper_empty, ofBatch_left h]
    simp [List.mem_filter]
  · exact Bucket.mem_erase h.sorted

theorem Proper.remove (h : outline.Proper) (f : Fingerprint) : (outline.remove f).Proper := by
  unfold Outline.remove
  split
  · exact proper_empty.add _
  · exact h.drop f

/-! ### Runs -/

/-- The outline after an operation. -/
noncomputable def follow (outline : Outline) : Operation → Outline
  | .add keys => outline.add keys
  | .addOne key => outline.add [key]
  | .set keys => ({} : Outline).add keys
  | .remove f => outline.remove f
  | .clear => {}

/-- The outline after a run of operations. -/
noncomputable def afterRun (operations : List Operation) : Outline := operations.foldl follow {}

theorem afterRun_concat (operations : List Operation) (operation : Operation) :
    afterRun (operations ++ [operation]) = (afterRun operations).follow operation := by
  rw [afterRun, List.foldl_append]
  rfl

theorem Proper.follow (h : outline.Proper) (operation : Operation) :
    (outline.follow operation).Proper := by
  cases operation with
  | add keys => exact h.add keys
  | addOne key => exact h.add [key]
  | set keys => exact proper_empty.add keys
  | remove f => exact h.remove f
  | clear => exact proper_empty

theorem proper_afterRun (operations : List Operation) : (afterRun operations).Proper := by
  induction operations using List.reverseRecOn with
  | nil => exact proper_empty
  | append_singleton operations operation ih =>
    rw [afterRun_concat]
    exact ih.follow operation

end Outline

end KeyForest
