import KeyForest.Proofs.Batch

/-!
# What a prepared batch depends on

Of a list of keys only the last key of each certificate counts: two lists make the same batch
exactly if these agree (`ofBatch_eq_iff`). So a batch may be prepared in stages, and keys of
different certificates may come in any order (`ofBatch_unique`).
-/
namespace KeyForest.Bucket

variable {keys keys' : List Key} {batch : Bucket} {x : Ident}

/-- There is one bucket of the last keys of a list, and preparing the list gives it. -/
theorem Prepares.iff_eq_ofBatch : Prepares keys batch ↔ batch = ofBatch keys := by
  refine ⟨fun h => h.sorted.ext (isSorted_ofBatch keys) fun key => ?_, fun h => ?_⟩
  · rw [h.mem_iff, (prepares_ofBatch keys).mem_iff]
  · rw [h]
    exact prepares_ofBatch keys

theorem last?_append (keys more : List Key) (x : Ident) :
    last? (keys ++ more) x = (last? more x).or (last? keys x) := by
  rw [last?, List.reverse_append, List.find?_append, last?, last?]

/-- The null certificate is in no batch. -/
theorem key?_ofBatch_null (keys : List Key) : key? (ofBatch keys) [] = none :=
  key?_eq_none.mpr fun _ hkey => (mem_of_mem_ofBatch hkey).2

theorem key?_ofBatch_named (keys : List Key) (hnamed : x ≠ []) :
    key? (ofBatch keys) x = last? keys x := by
  rw [key?_ofBatch, last?_named keys hnamed]

/-- Lists make the same batch if their certificates have the same last keys, and only then. -/
theorem ofBatch_eq_iff :
    ofBatch keys = ofBatch keys' ↔ ∀ x, x ≠ [] → last? keys x = last? keys' x := by
  constructor
  · intro h x hnamed
    rw [← key?_ofBatch_named keys hnamed, h, key?_ofBatch_named keys' hnamed]
  · intro h
    refine (isSorted_ofBatch keys).ext_key? (isSorted_ofBatch keys') (funext fun x => ?_)
    by_cases hnamed : x = []
    · rw [hnamed, key?_ofBatch_null, key?_ofBatch_null]
    · rw [key?_ofBatch_named keys hnamed, key?_ofBatch_named keys' hnamed, h x hnamed]

theorem ofBatch_ofBatch (keys : List Key) : ofBatch (ofBatch keys) = ofBatch keys :=
  ofBatch_of_isSorted (isSorted_ofBatch keys) fun _ hkey => (mem_of_mem_ofBatch hkey).2

/-- A batch has the last keys of the list that it was made of. -/
theorem last?_ofBatch (keys : List Key) (hnamed : x ≠ []) :
    last? (ofBatch keys) x = last? keys x :=
  ofBatch_eq_iff.mp (ofBatch_ofBatch keys) x hnamed

/-- Keys that are prepared before others follow them make no difference. -/
theorem ofBatch_append (keys more : List Key) :
    ofBatch (keys ++ more) = ofBatch (ofBatch keys ++ more) := by
  refine ofBatch_eq_iff.mpr fun x hnamed => ?_
  rw [last?_append, last?_append, last?_ofBatch keys hnamed]

/-- Whether two lists hold the keys of every certificate in the same order, null keys apart. What
stands between them may differ. -/
def SameOrders (keys keys' : List Key) : Prop :=
  ∀ f : Fingerprint, f.isEmpty = false →
    keys.filter (fun key => key.fingerprint == f) = keys'.filter fun key => key.fingerprint == f

theorem SameOrders.last? (h : SameOrders keys keys') {key : Key} (hnamed : x ≠ [])
    (hkey : last? keys x = some key) : Bucket.last? keys' x = some key := by
  obtain ⟨-, rfl⟩ := mem_of_last? hkey
  have hempty : key.fingerprint.isEmpty = false := by
    rw [← Bool.not_eq_true, Fingerprint.isEmpty_iff]
    exact hnamed
  have hfilter := h key.fingerprint hempty
  simp only [Fingerprint.beq_eq_decide] at hfilter
  rwa [← last?_filter, ← hfilter, last?_filter]

/-- Neighbours that are different certificates may change places. -/
theorem sameOrders_swap (front back : List Key) {a b : Key} (hab : a.ident ≠ b.ident) :
    SameOrders (front ++ a :: b :: back) (front ++ b :: a :: back) := by
  intro f _
  simp only [List.filter_append, List.filter_cons, Fingerprint.beq_eq_decide, decide_eq_true_eq]
  by_cases ha : a.ident = f.ident
  · have hb : ¬ b.ident = f.ident := fun hb => hab (ha.trans hb.symm)
    rw [if_neg hb, if_neg hb]
  · rw [if_neg ha, if_neg ha]

theorem SameOrders.ofBatch_eq (h : SameOrders keys keys') : ofBatch keys = ofBatch keys' := by
  refine ofBatch_eq_iff.mpr fun x hnamed => Option.ext fun key => ⟨h.last? hnamed, ?_⟩
  exact SameOrders.last? (fun f hf => (h f hf).symm) hnamed

/-- The batch of a list is the one bucket in which every certificate that the list names has its
last key. It is prepared already; in front of other keys it stands for the whole list; and it stays
the same when keys of different certificates change places. -/
theorem ofBatch_unique (keys : List Key) :
    (∀ batch, Prepares keys batch ↔ batch = ofBatch keys) ∧
    ofBatch (ofBatch keys) = ofBatch keys ∧
    (∀ more, ofBatch (keys ++ more) = ofBatch (ofBatch keys ++ more)) ∧
    ∀ keys', SameOrders keys keys' → ofBatch keys = ofBatch keys' :=
  ⟨fun _ => Prepares.iff_eq_ofBatch, ofBatch_ofBatch keys, ofBatch_append keys,
    fun _ h => h.ofBatch_eq⟩

/-- Two spellings of one certificate, and another certificate that comes between them or first. -/
theorem ofBatch_unique_spellings :
    let named (name : String) := Key.ofFingerprint (.ofText name)
    let keys := [(named "ab").withSecret, named "c", named "AB", named " "]
    let keys' := [named "c", (named "ab").withSecret, named "AB", named " "]
    SameOrders keys keys' ∧ ofBatch keys = ofBatch keys' := by
  intro named keys keys'
  have hsame : SameOrders keys keys' :=
    sameOrders_swap [] [named "AB", named " "] (by decide +kernel)
  exact ⟨hsame, (ofBatch_unique keys).2.2.2 keys' hsame⟩

end KeyForest.Bucket
