import KeyForest.Proofs.Contents
import KeyForest.Proofs.Forest.Operations

/-!
# Forests without cycles of issuers

When the issuers of all delivered keys form no cycle, the forest after a run depends on the
contents after the run only: not on the order in which keys arrive, on the bounds of batches, or on
what has been removed in between (`Settled.canonical`, `Settled.sameTree`).
-/
namespace KeyForest.Forest

open Placements

variable {forest other : Forest} {outline : Outline} {contents : Contents} {key : Key}
  {o : Option Ident}

/-- A forest in which the contents alone decide where every key is listed and what waits. -/
structure Canonical (forest : Forest) (contents : Contents) : Prop where
  stored_eq : ∀ f, forest.stored.lookup f = contents f.ident
  /-- Under a key are listed the keys whose issuer it is. -/
  under_iff : ∀ {parent key}, key ∈ forest.rows (some parent) ↔ contents key.ident = some key ∧
    key.issuer = some parent.ident ∧ (contents parent.ident).isSome
  /-- At the top level are listed the keys whose issuer is not there. -/
  top_iff : ∀ {key}, key ∈ forest.rows none ↔ contents key.ident = some key ∧
    ∀ p, key.issuer = some p → contents p = none
  /-- For an issuer that is not there wait the keys whose issuer it is. -/
  waiting_iff : ∀ {issuer key}, key ∈ forest.waitingFor issuer ↔
    contents key.ident = some key ∧ key.issuer = some issuer.ident ∧ contents issuer.ident = none

/-- Two forests with the same keys in the same rows, where the same keys wait for the same
issuers. -/
def SameTree (forest other : Forest) : Prop :=
  forest.stored = other.stored ∧ (∀ parent, forest.rows parent = other.rows parent) ∧
    ∀ issuer, forest.waitingFor issuer = other.waitingFor issuer

theorem Settled.mem_under (h : forest.Settled outline) :
    key ∈ forest.under o ↔ key ∈ outline.keys ∧ outline.up key.ident = some o := by
  rw [Shows.mem_under h]
  simp

/-- Where no key is cut, the keys of the outline decide. -/
theorem Settled.canonical (h : forest.Settled outline) (hproper : outline.Proper)
    (hcut : outline.cut = ∅) : forest.Canonical outline.keys.key? := by
  have hkeys {key : Key} : outline.keys.key? key.ident = some key ↔ key ∈ outline.keys := by
    rw [hproper.sorted.key?_eq_some, and_iff_left rfl]
  have hhas {x : Ident} : (outline.keys.key? x).isSome ↔ outline.Has x := Bucket.isSome_key?
  have hnone {x : Ident} : outline.keys.key? x = none ↔ ¬ outline.Has x := by
    rw [← hhas, Option.not_isSome_iff_eq_none]
  refine ⟨fun f => ?_, fun {parent key} => ?_, fun {key} => ?_, fun {issuer key} => ?_⟩
  · rw [h.stored_eq hproper.sorted, Bucket.lookup_eq hproper.sorted]
  · rw [rows_eq, h.mem_under, hkeys, hhas]
    refine and_congr_right fun hkey => ?_
    refine (Outline.up_eq_under hproper.sorted hkey).trans ?_
    simp [hcut]
  · rw [rows_eq, h.mem_under, hkeys]
    refine and_congr_right fun hkey => ?_
    refine (Outline.up_eq_top hproper.sorted hkey).trans ?_
    simp [hcut, hnone]
  · rw [waitingFor_eq, h.waits.awaiting_iff, hkeys, hnone]
    rfl

theorem Settled.sameTree {outline' : Outline} (h : forest.Settled outline)
    (h' : other.Settled outline') (hforest : forest.Canonical contents)
    (hother : other.Canonical contents) : forest.SameTree other := by
  have hsorted {forest : Forest} {outline : Outline} (h : forest.Settled outline)
      (parent : Option Fingerprint) : Bucket.IsSorted (forest.rows parent) := by
    rw [rows_eq]
    exact h.arranged.rows_sorted _
  have hwaiting {forest : Forest} {outline : Outline} (h : forest.Settled outline)
      (issuer : Fingerprint) : Bucket.IsSorted (forest.waitingFor issuer) := by
    rw [waitingFor_eq]
    exact h.waits.ascends _
  have hstored {forest : Forest} {outline : Outline} (h : forest.Settled outline)
      (hcanonical : forest.Canonical contents) (key : Key) :
      key ∈ forest.stored ↔ contents key.ident = some key := by
    rw [← hcanonical.stored_eq, Bucket.lookup_eq h.arranged.stored_sorted,
      h.arranged.stored_sorted.key?_eq_some, and_iff_left rfl]
  refine ⟨?_, fun parent => ?_, fun issuer => ?_⟩
  · refine h.arranged.stored_sorted.ext h'.arranged.stored_sorted fun key => ?_
    rw [hstored h hforest, hstored h' hother]
  · refine (hsorted h parent).ext (hsorted h' parent) fun key => ?_
    cases parent with
    | none => rw [hforest.top_iff, hother.top_iff]
    | some parent => rw [hforest.under_iff, hother.under_iff]
  · refine (hwaiting h issuer).ext (hwaiting h' issuer) fun key => ?_
    rw [hforest.waiting_iff, hother.waiting_iff]

theorem canonical_afterRun {operations earlier : List Operation}
    (hacyclic : Operation.Acyclic operations) (hearlier : earlier <+: operations) :
    (Operation.run earlier : Journal Forest).state.Canonical (Operation.contents earlier) := by
  have hcanonical := (run_spec earlier).2.canonical (Outline.proper_afterRun earlier)
    (Outline.cut_afterRun hacyclic hearlier)
  rwa [Outline.key?_afterRun] at hcanonical

/-- In a run that delivers no cycle of issuers the forest after each operation is the canonical
one of the contents, and so it is the same as after any other such run with the same contents. -/
theorem run_canonical (operations : List Operation) (hacyclic : Operation.Acyclic operations) :
    (∀ earlier, earlier <+: operations →
      (Operation.run earlier : Journal Forest).state.Canonical (Operation.contents earlier)) ∧
    ∀ others, Operation.Acyclic others →
      Operation.contents others = Operation.contents operations →
      (Operation.run others : Journal Forest).state.SameTree
        (Operation.run operations : Journal Forest).state := by
  refine ⟨fun earlier hearlier => canonical_afterRun hacyclic hearlier, fun others hothers heq => ?_⟩
  have hcanonical := canonical_afterRun hothers (List.prefix_refl others)
  rw [heq] at hcanonical
  exact (run_spec others).2.sameTree (run_spec operations).2 hcanonical
    (canonical_afterRun hacyclic (List.prefix_refl operations))

/-- A key that is delivered before its issuer waits for it, and then both stand as if the issuer had
come first. -/
theorem run_canonical_either_order :
    let root := Key.ofFingerprint (.ofText "A")
    let leaf := (Key.ofFingerprint (.ofText "AB")).issuedBy (.ofText "a")
    let operations := [Operation.addOne leaf, .addOne root]
    (Operation.run [.addOne leaf] : Journal Forest).state.Canonical
        (Operation.contents [.addOne leaf]) ∧
      (Operation.run [.add [root, leaf]] : Journal Forest).state.SameTree
        (Operation.run operations : Journal Forest).state := by
  intro root leaf operations
  have hacyclic : Operation.Acyclic operations := not_onCycle_of_rank List.length (by decide)
  have hothers : Operation.Acyclic [.add [root, leaf]] :=
    not_onCycle_of_rank List.length (by decide)
  have hcontents : Operation.contents [.add [root, leaf]] = Operation.contents operations := by
    funext x
    have hroot : root.isNull = false := by decide
    have hleaf : leaf.isNull = false := by decide
    have hne : leaf.ident ≠ root.ident := by decide
    have hnil : Bucket.last? [] x = none := rfl
    simp only [operations, Operation.contents, List.foldl_cons, List.foldl_nil, Contents.follow,
      Contents.deliver, List.filter_cons, hroot, hleaf, Bool.not_false, if_true, List.filter_nil,
      Bucket.last?_cons, hnil, Option.none_or]
    by_cases hx : root.ident = x
    · rw [if_pos hx, if_neg (hx ▸ hne)]
      rfl
    · rw [if_neg hx, Option.or_none, Option.none_or]
  obtain ⟨hcanonical, hsame⟩ := run_canonical operations hacyclic
  exact ⟨hcanonical _ ⟨[.addOne root], rfl⟩, hsame _ hothers hcontents⟩

end KeyForest.Forest
