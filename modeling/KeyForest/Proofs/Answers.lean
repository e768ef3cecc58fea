import KeyForest.Proofs.Agreement
import KeyForest.Proofs.Forest.Repeat
import KeyForest.Proofs.Forest.Touched

/-!
# What is answered when keys are added

The indexes that are answered are looked up when the whole batch has been merged. None of them is
missing, because every stored key is found at a row that holds it as it is stored
(`Listing.Locates`), and the keys of the batch are stored then. So whatever later keys of a batch do
to the rows of earlier ones, the answer names the rows at which they end up (`run_add_answers`).
-/
namespace KeyForest

namespace Listing

variable {σ : Type} [Listing σ] {state : σ}

/-- Every stored key is found at a row that holds it as it is stored. -/
def Locates (state : σ) : Prop :=
  ∀ key ∈ stored state, ∃ index, placeOf state key.fingerprint = some index ∧
    keyAt state index = some key

/-- Stored keys are looked for with success, and what is found are these keys. -/
theorem Locates.map_keyAt (h : Locates state) {keys : List Key}
    (hkeys : ∀ key ∈ keys, key ∈ stored state) :
    (keys.filterMap fun key => placeOf state key.fingerprint).map (keyAt state) =
      keys.map some := by
  induction keys with
  | nil => rfl
  | cons key keys ih =>
    obtain ⟨hkey, hkeys⟩ := List.forall_mem_cons.mp hkeys
    obtain ⟨index, hindex, hkeyAt⟩ := h key hkey
    rw [List.filterMap_cons, hindex, List.map_cons, hkeyAt, ih hkeys, List.map_cons]

end Listing

open Listing

/-- To adding the keys of a list is answered one index for each key of `batch`, in their order, at
which this key is listed in the end. -/
def Answers {σ : Type} [KeyList σ] (journal : Journal σ) (keys : List Key) (batch : Bucket) :
    Prop :=
  (KeyList.add journal keys).2.map (keyAt (KeyList.add journal keys).1.state) = batch.map some

/-- What is answered to adding one key. -/
structure AnswersOne {σ : Type} [KeyList σ] (journal : Journal σ) (key : Key) : Prop where
  isSome_iff : (KeyList.addOne journal key).2.isSome ↔ key.isNull = false
  keyAt_eq : ∀ index ∈ (KeyList.addOne journal key).2,
    keyAt (KeyList.addOne journal key).1.state index = some key

section Adding

variable {σ : Type} [KeyList σ] {journal : Journal σ} {keys : List Key} {key : Key}

theorem answers_of_locates
    (hindexes : (KeyList.add journal keys).2 = (Bucket.ofBatch keys).filterMap fun key =>
      placeOf (KeyList.add journal keys).1.state key.fingerprint)
    (hlocates : Locates (KeyList.add journal keys).1.state)
    (hstored : ∀ key ∈ Bucket.ofBatch keys, key ∈ stored (KeyList.add journal keys).1.state) :
    Answers journal keys (Bucket.ofBatch keys) := by
  rw [Answers, hindexes]
  exact hlocates.map_keyAt hstored

/-- One key is answered as a batch of one. -/
theorem Answers.one (h : Answers journal [key] (Bucket.ofBatch [key])) :
    AnswersOne journal key := by
  have hindex : (KeyList.addOne journal key).2 = (KeyList.add journal [key]).2.head? := rfl
  by_cases hnull : key.isNull = true
  · have hbatch : Bucket.ofBatch [key] = [] := by simp [Bucket.ofBatch, hnull, Bucket.lastOfRuns]
    rw [hbatch] at h
    have hnone : (KeyList.addOne journal key).2 = none := by
      rw [hindex, List.map_eq_nil_iff.mp h, List.head?_nil]
    exact ⟨by simp [hnone, hnull], by simp [hnone]⟩
  · have hbatch : Bucket.ofBatch [key] = [key] :=
      Bucket.ofBatch_of_isSorted (List.pairwise_singleton _ _)
        (by simpa using mt Key.isNull_iff.mpr hnull)
    rw [hbatch] at h
    obtain ⟨index, hanswer, hkeyAt⟩ := List.map_eq_singleton_iff.mp h
    have hsome : (KeyList.addOne journal key).2 = some index := by
      rw [hindex, hanswer, List.head?_cons]
    refine ⟨by simp [hsome, hnull], fun other hother => ?_⟩
    rw [hsome, Option.mem_some_iff] at hother
    rw [← hother]
    exact hkeyAt

end Adding

/-! ### Both key lists -/

theorem FlatList.Tidy.locates {list : FlatList} (h : FlatList.Tidy list) : Locates list := by
  intro key hkey
  obtain ⟨row, hrow⟩ := List.mem_iff_getElem?.mp hkey
  have hplace : list.keys.rowOf? key.fingerprint = some row :=
    (Bucket.rowOf?_eq_some h.sorted).mpr ⟨key, hrow, rfl⟩
  exact ⟨.top row, congrArg (Option.map RowIndex.top) hplace, hrow⟩

theorem FlatList.Tidy.answers {journal : Journal FlatList} (h : journal.Faultless)
    (hstate : FlatList.Tidy journal.state) (keys : List Key) :
    Answers journal keys (Bucket.ofBatch keys) := by
  have hafter := (FlatList.add_spec h hstate keys).2
  refine answers_of_locates ?_ hafter.locates fun key hkey => ?_
  · rcases KeyList.add_cases journal keys with ⟨hempty, hadd⟩ | hadd
    · rw [hadd, hempty]
      rfl
    · rw [hadd]
      rfl
  · refine (Bucket.mem_iff_exists_key? hafter.sorted).mpr ⟨key.ident, ?_⟩
    have hbatch := (Bucket.isSorted_ofBatch keys).key?_eq_some.mpr ⟨hkey, rfl⟩
    rw [FlatList.key?_add hstate, Contents.deliver, ← Bucket.key?_ofBatch, hbatch]
    rfl

namespace Forest

variable {outline : Outline}

theorem Settled.locates {forest : Forest} (h : forest.Settled outline) : Locates forest := by
  intro key hkey
  obtain ⟨index, hfound⟩ := h.arranged.exists_found? hkey rfl
  simp only [found?, Option.bind_eq_bind, Option.bind_eq_some_iff] at hfound
  obtain ⟨index, hindex, other, hother, heq⟩ := hfound
  cases heq
  exact ⟨index, hindex, hother⟩

theorem Settled.answers {journal : Journal Forest} (h : journal.Faultless)
    (hstate : journal.state.Settled outline) (hproper : outline.Proper) (keys : List Key) :
    Answers journal keys (Bucket.ofBatch keys) := by
  have hafter := (add_spec h hstate hproper keys).2
  refine answers_of_locates (indexes_add journal keys) hafter.locates fun key hkey => ?_
  have hkey : key ∈ (outline.add keys).keys := (Outline.mem_add hproper).mpr (.inl hkey)
  rw [← hafter.stored_eq (hproper.add keys).sorted] at hkey
  exact hkey

end Forest

/-- After any run, adding keys is answered alike by both key lists: with one index for each
certificate among the keys but the null one, by ascending fingerprints, and at each index is listed
what the last key of the certificate says. Adding one key is answered unless the key is null. -/
theorem run_add_answers (operations : List Operation) :
    (∀ keys, ∃ batch, Bucket.Prepares keys batch ∧
      Answers (Operation.run operations : Journal Forest) keys batch ∧
      Answers (Operation.run operations : Journal FlatList) keys batch) ∧
    ∀ key, AnswersOne (Operation.run operations : Journal Forest) key ∧
      AnswersOne (Operation.run operations : Journal FlatList) key := by
  have hforest (keys : List Key) :
      Answers (Operation.run operations : Journal Forest) keys (Bucket.ofBatch keys) := by
    obtain ⟨h, hstate⟩ := Forest.run_spec operations
    exact hstate.answers h (Outline.proper_afterRun operations) keys
  have hflat (keys : List Key) :
      Answers (Operation.run operations : Journal FlatList) keys (Bucket.ofBatch keys) := by
    obtain ⟨h, hstate⟩ := FlatList.run_spec operations
    exact hstate.answers h keys
  exact ⟨fun keys => ⟨_, Bucket.prepares_ofBatch keys, hforest keys, hflat keys⟩,
    fun key => ⟨(hforest [key]).one, (hflat [key]).one⟩⟩

end KeyForest
