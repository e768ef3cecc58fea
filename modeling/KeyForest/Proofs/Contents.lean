import KeyForest.Proofs.Issuers
import KeyForest.Proofs.Outline

/-!
# What is there after a run

The contents after a run say for every certificate which key was delivered last and not removed
since; neither the order of different certificates nor the bounds of batches count. When the
issuers that the delivered keys name form no cycle, no key is ever cut from its issuer
(`Outline.cut_afterRun`), so that the contents decide about the outline.
-/
namespace KeyForest

/-- The current key of each certificate that is there. -/
abbrev Contents := Ident → Option Key

namespace Contents

/-- Of several keys delivered for a certificate the last one counts; null keys are no keys. -/
def deliver (contents : Contents) (keys : List Key) : Contents := fun x =>
  (Bucket.last? (keys.filter fun key => !key.isNull) x).or (contents x)

/-- The contents after an operation. -/
def follow (contents : Contents) : Operation → Contents
  | .add keys => contents.deliver keys
  | .addOne key => contents.deliver [key]
  | .set keys => deliver (fun _ => none) keys
  | .remove f => Function.update contents f.ident none
  | .clear => fun _ => none

end Contents

namespace Operation

/-- The contents after a run of operations. -/
def contents (operations : List Operation) : Contents :=
  operations.foldl Contents.follow fun _ => none

theorem contents_concat (operations : List Operation) (operation : Operation) :
    contents (operations ++ [operation]) = (contents operations).follow operation := by
  rw [contents, List.foldl_append]
  rfl

/-- The keys that an operation delivers. -/
def keys : Operation → List Key
  | .add keys => keys
  | .addOne key => [key]
  | .set keys => keys
  | .remove _ => []
  | .clear => []

/-- The keys that a run of operations delivers, all versions of a certificate among them. Null
keys are not delivered. -/
def delivered (operations : List Operation) : List Key :=
  (operations.flatMap keys).filter fun key => !key.isNull

theorem mem_delivered {operations : List Operation} {key : Key} :
    key ∈ delivered operations ↔ (∃ operation ∈ operations, key ∈ operation.keys) ∧
      key.ident ≠ [] := by
  rw [delivered, List.mem_filter, List.mem_flatMap, Bool.not_eq_true', ← Bool.not_eq_true,
    Key.isNull_iff]

/-- The issuers named by delivered keys form no cycle. -/
def Acyclic (operations : List Operation) : Prop := ∀ x, ¬ OnCycle (delivered operations) x

end Operation

namespace Outline

open Placements

variable {outline : Outline} {key : Key}

theorem key?_add (h : outline.Proper) (keys : List Key) (x : Ident) :
    (outline.add keys).keys.key? x =
      (Bucket.last? (keys.filter fun key => !key.isNull) x).or (outline.keys.key? x) := by
  rw [← Bucket.key?_ofBatch]
  refine Option.ext fun key => ?_
  have hsorted := Bucket.isSorted_ofBatch keys
  rw [(h.add keys).sorted.key?_eq_some, mem_add h, Option.or_eq_some_iff, hsorted.key?_eq_some,
    h.sorted.key?_eq_some, Bucket.key?_eq_none]
  grind

theorem key?_remove (h : outline.Proper) (f : Fingerprint) (x : Ident) :
    (outline.remove f).keys.key? x = if x = f.ident then none else outline.keys.key? x := by
  refine Option.ext fun key => ?_
  rw [(h.remove f).sorted.key?_eq_some, mem_remove h]
  split
  · simp_all
  · rw [h.sorted.key?_eq_some]
    grind

/-- The keys of the outline after a run are the contents after the run. -/
theorem key?_afterRun (operations : List Operation) :
    (afterRun operations).keys.key? = Operation.contents operations := by
  induction operations using List.reverseRecOn with
  | nil => rfl
  | append_singleton operations operation ih =>
    have hproper := proper_afterRun operations
    rw [afterRun_concat, Operation.contents_concat, ← ih]
    funext x
    cases operation with
    | add keys => exact key?_add hproper keys x
    | addOne key => exact key?_add hproper [key] x
    | set keys => exact key?_add proper_empty keys x
    | remove f =>
      rw [Contents.follow, Function.update_apply]
      exact key?_remove hproper f x
    | clear => rfl

/-! ### Induction over runs -/

section Induction

variable {operations earlier : List Operation} {P : Outline → Prop}

/-- A property of outlines along a run, together with the keys having been delivered in the run. -/
structure Along (operations : List Operation) (P : Outline → Prop) (outline : Outline) : Prop where
  proper : outline.Proper
  delivered : ∀ key ∈ outline.keys, key ∈ Operation.delivered operations
  holds : P outline

theorem along_empty (hempty : P {}) : Along operations P {} := ⟨proper_empty, by simp, hempty⟩

theorem Along.deliver (h : Along operations P outline)
    (hstep : ∀ {outline key}, Along operations P outline → key ∈ Operation.delivered operations →
      P (outline.deliver key)) (hkey : key ∈ Operation.delivered operations) :
    Along operations P (outline.deliver key) := by
  refine ⟨h.proper.deliver (Operation.mem_delivered.mp hkey).2, fun other hother => ?_,
    hstep h hkey⟩
  rcases (Bucket.mem_put h.proper.sorted).mp hother with rfl | ⟨hother, -⟩
  · exact hkey
  · exact h.delivered other hother

theorem Along.add (h : Along operations P outline)
    (hstep : ∀ {outline key}, Along operations P outline → key ∈ Operation.delivered operations →
      P (outline.deliver key)) {keys : List Key}
    (hkeys : ∀ key ∈ keys, key.ident ≠ [] → key ∈ Operation.delivered operations) :
    Along operations P (outline.add keys) := by
  have hbatch : ∀ key ∈ Bucket.issuersFirst (Bucket.ofBatch keys),
      key ∈ Operation.delivered operations := by
    intro key hkey
    obtain ⟨hmem, hnamed⟩ :=
      Bucket.mem_of_mem_ofBatch ((Bucket.issuersFirst_perm _).mem_iff.mp hkey)
    exact hkeys key hmem hnamed
  unfold Outline.add
  generalize Bucket.issuersFirst (Bucket.ofBatch keys) = batch at hbatch
  induction batch generalizing outline with
  | nil => exact h
  | cons key batch ih =>
    obtain ⟨hkey, hbatch⟩ := List.forall_mem_cons.mp hbatch
    exact ih (h.deliver hstep hkey) hbatch

theorem Along.remove (h : Along operations P outline) (hempty : P {})
    (hstep : ∀ {outline key}, Along operations P outline → key ∈ Operation.delivered operations →
      P (outline.deliver key))
    (hdrop : ∀ {outline f}, Along operations P outline →
      (∀ y, outline.up y ≠ some (some f.ident)) → P (outline.drop f)) (f : Fingerprint) :
    Along operations P (outline.remove f) := by
  unfold Outline.remove
  split
  -- Unless it is of a leaf, a removal delivers all keys that are left to an empty outline.
  · exact (along_empty hempty).add hstep fun key hkey _ =>
      h.delivered key (List.mem_filter.mp hkey).1
  · rename_i hleaf
    exact ⟨h.proper.drop f, fun key hkey =>
      h.delivered key ((Bucket.mem_erase h.proper.sorted).mp hkey).1, hdrop h (not_exists.mp hleaf)⟩

/-- What holds of the empty outline, and is kept when a key is delivered and when a key without
others under it is dropped, holds after every operation of a run. -/
theorem afterRun_induction (hempty : P {})
    (hdeliver : ∀ {outline key}, Along operations P outline →
      key ∈ Operation.delivered operations → P (outline.deliver key))
    (hdrop : ∀ {outline f}, Along operations P outline →
      (∀ y, outline.up y ≠ some (some f.ident)) → P (outline.drop f))
    (hearlier : earlier <+: operations) : Along operations P (afterRun earlier) := by
  induction earlier using List.reverseRecOn with
  | nil => exact along_empty hempty
  | append_singleton earlier operation ih =>
    have h := ih ((List.prefix_append _ _).trans hearlier)
    have hkeys : ∀ key ∈ operation.keys, key.ident ≠ [] →
        key ∈ Operation.delivered operations := by
      obtain ⟨later, rfl⟩ := hearlier
      intro key hkey hnamed
      exact Operation.mem_delivered.mpr ⟨⟨operation, by simp, hkey⟩, hnamed⟩
    rw [afterRun_concat]
    cases operation with
    | add keys => exact h.add hdeliver hkeys
    | addOne key => exact h.add hdeliver hkeys
    | set keys => exact (along_empty hempty).add hdeliver hkeys
    | remove f => exact h.remove hempty hdeliver hdrop f
    | clear => exact along_empty hempty

end Induction

/-! ### Runs without cycles of issuers -/

variable {operations : List Operation}

/-- A way up through an outline leads along the issuers its keys name. -/
theorem issues_of_hangs (hsorted : Bucket.IsSorted outline.keys) {r x : Ident}
    (hhangs : Hangs outline.up r x) : Relation.ReflTransGen (Issues outline.keys) r x := by
  induction hhangs with
  | self => exact .refl
  | @child x p hx _ ih =>
    obtain ⟨key, hkey, rfl⟩ := isSome_up.mp (Option.isSome_iff_exists.mpr ⟨_, hx⟩)
    exact ih.tail ⟨key, hkey, rfl, ((up_eq_under hsorted hkey).mp hx).1⟩

/-- A key that is cut when it is delivered is on a cycle. -/
theorem onCycle_of_cut (h : outline.Proper) (hcut : key.ident ∈ (outline.deliver key).cut) :
    OnCycle (outline.deliver key).keys key.ident := by
  obtain ⟨p, hissuer, hhangs⟩ := mem_cut_deliver_self.mp hcut
  have hmem : key ∈ (outline.deliver key).keys := (Bucket.mem_put h.sorted).mpr (.inl rfl)
  exact Relation.TransGen.tail' (issues_of_hangs (h.sorted.put key) hhangs)
    ⟨key, hmem, rfl, hissuer⟩

/-- In a run without cycles of issuers no key is ever cut. -/
theorem cut_afterRun (hacyclic : Operation.Acyclic operations) {earlier : List Operation}
    (hearlier : earlier <+: operations) : (afterRun earlier).cut = ∅ := by
  have halong : Along operations (fun outline => outline.cut = ∅) (afterRun earlier) := by
    refine afterRun_induction rfl (fun {outline key} h hkey => ?_) (fun {outline f} h _ => ?_)
      hearlier
    · refine Set.eq_empty_iff_forall_notMem.mpr fun x hx => ?_
      by_cases hxkey : x = key.ident
      · subst hxkey
        refine hacyclic _ ((onCycle_of_cut h.proper hx).mono fun other hother => ?_)
        rcases (Bucket.mem_put h.proper.sorted).mp hother with rfl | ⟨hother, -⟩
        · exact hkey
        · exact h.delivered other hother
      · have := (mem_cut_deliver hxkey).mp hx
        simp [h.holds] at this
    · refine Set.eq_empty_iff_forall_notMem.mpr fun x hx => ?_
      have := hx.1
      simp [h.holds] at this
  exact halong.holds

end Outline

end KeyForest
