import KeyForest.Proofs.FlatList
import KeyForest.Proofs.Forest.Operations
import KeyForest.Proofs.Contents

/-!
# Both key lists store the same keys

The flat list puts keys in one by one, while the forest takes whole rows out and brings them back,
and builds itself anew when an issuer goes. Whatever is done to them, both store the current keys of
the contents (`FlatList.key?_run`, `Forest.key?_run`), and as a sorted list is settled by its keys
they store the same list (`run_stored`).
-/
namespace KeyForest

namespace Bucket

theorem mem_iff_exists_key? {keys : Bucket} (h : IsSorted keys) {key : Key} :
    key ∈ keys ↔ ∃ x, keys.key? x = some key :=
  ⟨fun hkey => ⟨key.ident, h.key?_eq_some.mpr ⟨hkey, rfl⟩⟩, fun ⟨_, hx⟩ => (mem_of_key? hx).1⟩

/-- Keys that are put count before those that were there. -/
theorem key?_foldl_put {keys new : Bucket} (h : IsSorted keys) (hnew : IsSorted new) (x : Ident) :
    (new.foldl Bucket.put keys).key? x = (new.key? x).or (keys.key? x) := by
  refine Option.ext fun key => ?_
  rw [(isSorted_foldl_put h new).key?_eq_some,
    mem_foldl_put h fun a ha b hb => hnew.eq_of_ident ha hb, Option.or_eq_some_iff,
    hnew.key?_eq_some, h.key?_eq_some, key?_eq_none]
  grind

end Bucket

namespace FlatList

variable {journal : Journal FlatList}

theorem keys_merge (journal : Journal FlatList) (batch : Bucket) :
    (merge journal batch).1.state.keys = batch.foldl Bucket.put journal.state.keys := by
  have hfold (journal : Journal FlatList) (batch : List Key) :
      (batch.foldl put journal).state.keys = batch.foldl Bucket.put journal.state.keys := by
    induction batch generalizing journal with
    | nil => rfl
    | cons key batch ih => rw [List.foldl_cons, ih, state_put, List.foldl_cons]
  rw [merge, Journal.state_check, hfold, Journal.state_check]

theorem key?_add (hstate : Tidy journal.state) (keys : List Key) :
    (KeyList.add journal keys).1.state.keys.key? =
      Contents.deliver journal.state.keys.key? keys := by
  funext x
  rw [Contents.deliver, ← Bucket.key?_ofBatch]
  rcases KeyList.add_cases journal keys with ⟨hempty, hadd⟩ | hadd
  · rw [hadd, hempty]
    rfl
  · rw [hadd]
    refine (congrArg (Bucket.key? · x) (keys_merge _ _)).trans ?_
    exact Bucket.key?_foldl_put hstate.sorted (Bucket.isSorted_ofBatch keys) x

theorem keys_remove (journal : Journal FlatList) (f : Fingerprint) :
    (remove journal f).state.keys = journal.state.keys.erase f := by
  unfold remove Bucket.erase
  cases journal.state.keys.rowOf? f <;> rfl

/-- After a run the keys of the flat list are the contents after the run. -/
theorem key?_run (operations : List Operation) :
    (Operation.run operations : Journal FlatList).state.keys.key? =
      Operation.contents operations := by
  induction operations using List.reverseRecOn with
  | nil => rfl
  | append_singleton operations operation ih =>
    have hstate := (run_spec operations).2
    rw [Operation.run_concat, Operation.contents_concat, ← ih]
    cases operation with
    | add keys => exact key?_add hstate keys
    | addOne key => exact key?_add hstate [key]
    | set keys => exact @key?_add (clear (Operation.run operations)) tidy_nil keys
    | remove f =>
      funext x
      rw [Contents.follow, Function.update_apply]
      refine (congrArg (Bucket.key? · x) (keys_remove _ f)).trans ?_
      exact Bucket.key?_erase hstate.sorted f x
    | clear => rfl

end FlatList

/-- After a run the keys of the forest are the contents after the run. -/
theorem Forest.key?_run (operations : List Operation) :
    (Operation.run operations : Journal Forest).state.stored.key? =
      Operation.contents operations := by
  rw [(run_spec operations).2.stored_eq (Outline.proper_afterRun operations).sorted,
    Outline.key?_afterRun]

/-- After any run of operations the flat list and the forest store the same list of keys, in every
field and spelling: the ascending list of the current keys of all certificates. -/
theorem run_stored (operations : List Operation) :
    Listing.stored (Operation.run operations : Journal FlatList).state =
        Listing.stored (Operation.run operations : Journal Forest).state ∧
      Bucket.IsSorted (Listing.stored (Operation.run operations : Journal Forest).state) ∧
      (∀ key, key ∈ Listing.stored (Operation.run operations : Journal Forest).state ↔
        ∃ x, Operation.contents operations x = some key) ∧
      ∀ f, Listing.keyWith (Operation.run operations : Journal Forest).state f =
        Operation.contents operations f.ident := by
  have hflat := (FlatList.run_spec operations).2.sorted
  have hforest : Bucket.IsSorted (Operation.run operations : Journal Forest).state.stored :=
    (Forest.run_spec operations).2.arranged.stored_sorted
  have hkeys := Forest.key?_run operations
  refine ⟨hflat.ext_key? hforest ((FlatList.key?_run operations).trans hkeys.symm), hforest,
    fun key => ?_, fun f => ?_⟩
  · rw [← hkeys]
    exact Bucket.mem_iff_exists_key? hforest
  · rw [← hkeys]
    exact Bucket.lookup_eq hforest f

end KeyForest
