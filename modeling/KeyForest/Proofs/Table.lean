import KeyForest.Table
import KeyForest.Proofs.Identity

/-!
# Tables as finite maps

`value?` reads a table by identity. Putting and erasing change it at one identity only, on every
list of entries (`value?_put`, `value?_erase`), and they keep the entries ascending
(`IsSorted.put`, `IsSorted.erase`). A sorted table has as many entries as identities with a value.
-/
namespace KeyForest.Table

variable {α : Type}

/-- The value for an identity. -/
def value? (table : Table α) (x : Ident) : Option α :=
  (table.find? fun entry => entry.1.ident = x).map (·.2)

/-- The identities that have a value, in the order of the entries. -/
def idents (table : Table α) : List Ident := table.map (·.1.ident)

/-- The fingerprints of the entries ascend strictly. -/
def IsSorted (table : Table α) : Prop :=
  table.Pairwise fun a b => Ident.Below a.1.ident b.1.ident

theorem get?_eq (table : Table α) (f : Fingerprint) : table.get? f = table.value? f.ident := by
  simp [get?, value?]

theorem has_iff {table : Table α} {f : Fingerprint} :
    table.has f = true ↔ (table.value? f.ident).isSome := by
  simp [has, value?]

@[simp] theorem value?_nil (x : Ident) : value? ([] : Table α) x = none := rfl

theorem value?_cons (entry : Fingerprint × α) (table : Table α) (x : Ident) :
    value? (entry :: table) x = if entry.1.ident = x then some entry.2 else value? table x := by
  by_cases h : entry.1.ident = x <;> simp [value?, h]

theorem exists_mem_of_value? {table : Table α} {x : Ident} {v : α} (h : table.value? x = some v) :
    ∃ f, (f, v) ∈ table ∧ f.ident = x := by
  obtain ⟨⟨f, w⟩, hfind, rfl⟩ := Option.map_eq_some_iff.mp h
  exact ⟨f, List.mem_of_find?_eq_some hfind, by simpa using List.find?_some hfind⟩

theorem mem_idents {table : Table α} {x : Ident} :
    x ∈ table.idents ↔ (table.value? x).isSome := by
  simp [idents, value?]

theorem IsSorted.nodup_idents {table : Table α} (h : table.IsSorted) : table.idents.Nodup :=
  List.Pairwise.map _ (fun _ _ hlt => hlt.ne) h

theorem IsSorted.value?_of_mem {table : Table α} (h : table.IsSorted) {f : Fingerprint} {v : α}
    (hmem : (f, v) ∈ table) : table.value? f.ident = some v := by
  induction table with
  | nil => contradiction
  | cons entry rest ih =>
    rw [value?_cons]
    rcases List.mem_cons.mp hmem with rfl | hrest
    · simp
    · have hlt := (List.pairwise_cons.mp h).1 _ hrest
      rw [if_neg hlt.ne, ih (List.pairwise_cons.mp h).2 hrest]

/-! ### Putting -/

theorem value?_put (table : Table α) (f : Fingerprint) (v : α) (x : Ident) :
    (table.put f v).value? x = if f.ident = x then some v else table.value? x := by
  induction table with
  | nil => simp [put, value?_cons]
  | cons entry rest ih =>
    unfold put
    split
    · rw [value?_cons]
    · rename_i heq
      rw [Fingerprint.compare_eq_eq] at heq
      by_cases hx : f.ident = x <;> simp [value?_cons, ← heq, hx]
    · rename_i hgt
      rw [value?_cons, ih, value?_cons]
      have hne := (Fingerprint.compare_eq_gt.mp hgt).ne
      by_cases hx : f.ident = x
      · rw [if_pos hx, if_pos hx, if_neg (fun h => hne (h.trans hx.symm))]
      · rw [if_neg hx, if_neg hx]

theorem mem_put {table : Table α} {f : Fingerprint} {v : α} {entry : Fingerprint × α}
    (h : entry ∈ table.put f v) : entry.2 = v ∨ entry ∈ table := by
  induction table with
  | nil => simp_all [put]
  | cons first rest ih =>
    unfold put at h
    split at h <;> grind

theorem mem_idents_put {table : Table α} {f : Fingerprint} {v : α} {x : Ident} :
    x ∈ (table.put f v).idents ↔ x = f.ident ∨ x ∈ table.idents := by
  rw [mem_idents, value?_put, mem_idents]
  by_cases h : f.ident = x
  · simp [h]
  · simp [h, Ne.symm h]

theorem IsSorted.put {table : Table α} (h : table.IsSorted) (f : Fingerprint) (v : α) :
    (table.put f v).IsSorted := by
  induction table with
  | nil => exact List.pairwise_singleton _ _
  | cons entry rest ih =>
    obtain ⟨hentry, hrest⟩ := List.pairwise_cons.mp h
    unfold Table.put
    split
    · rename_i hlt
      rw [Fingerprint.compare_eq_lt] at hlt
      refine List.pairwise_cons.mpr ⟨fun other hother => ?_, h⟩
      rcases List.mem_cons.mp hother with rfl | hother
      · exact hlt
      · exact hlt.trans (hentry other hother)
    · exact List.pairwise_cons.mpr ⟨hentry, hrest⟩
    · rename_i hgt
      rw [Fingerprint.compare_eq_gt] at hgt
      refine List.pairwise_cons.mpr ⟨fun other hother => ?_, ih hrest⟩
      have hident : other.1.ident ∈ (Table.put rest f v).idents := List.mem_map_of_mem hother
      rcases mem_idents_put.mp hident with heq | hold
      · rw [heq]
        exact hgt
      · obtain ⟨old, hold, heq⟩ := List.mem_map.mp hold
        rw [← heq]
        exact hentry old hold

/-- A value that is there already may be put again. -/
theorem IsSorted.put_self {table : Table α} (h : table.IsSorted) {f : Fingerprint} {v : α}
    (hvalue : table.value? f.ident = some v) : table.put f v = table := by
  induction table with
  | nil => contradiction
  | cons entry rest ih =>
    obtain ⟨hentry, hrest⟩ := List.pairwise_cons.mp h
    rw [value?_cons] at hvalue
    unfold Table.put
    by_cases hident : entry.1.ident = f.ident
    · rw [if_pos hident] at hvalue
      rw [Fingerprint.compare_eq_eq.mpr hident.symm, ← Option.some.inj hvalue]
    · rw [if_neg hident] at hvalue
      obtain ⟨g, hmem, hg⟩ := exists_mem_of_value? hvalue
      have hgt : compare f entry.1 = .gt :=
        Fingerprint.compare_eq_gt.mpr (hg ▸ hentry _ hmem)
      rw [hgt, ih hrest hvalue]

/-! ### Erasing -/

theorem value?_erase (table : Table α) (f : Fingerprint) (x : Ident) :
    (table.erase f).value? x = if f.ident = x then none else table.value? x := by
  simp only [value?, erase, List.find?_filter, Fingerprint.beq_eq_decide]
  by_cases hx : f.ident = x
  · rw [if_pos hx, Option.map_eq_none_iff, List.find?_eq_none]
    intro entry _
    simp [hx]
  · rw [if_neg hx]
    congr 2
    funext entry
    by_cases he : entry.1.ident = x
    · simp [he, Ne.symm hx]
    · simp [he]

/-- A fingerprint without an entry may be erased. -/
theorem erase_eq_self {table : Table α} {f : Fingerprint} (hvalue : table.value? f.ident = none) :
    table.erase f = table := by
  refine List.filter_eq_self.mpr fun entry hentry => ?_
  rw [Bool.not_eq_true', Fingerprint.beq_false_iff]
  intro hident
  have hmem : f.ident ∈ table.idents := hident ▸ List.mem_map_of_mem hentry
  simp [mem_idents, hvalue] at hmem

theorem mem_of_mem_erase {table : Table α} {f : Fingerprint} {entry : Fingerprint × α}
    (h : entry ∈ table.erase f) : entry ∈ table := List.mem_of_mem_filter h

theorem IsSorted.erase {table : Table α} (h : table.IsSorted) (f : Fingerprint) :
    (table.erase f).IsSorted := h.filter _

/-- A sorted table without values has no entry. -/
theorem eq_nil_of_value? {table : Table α} (h : ∀ x, table.value? x = none) : table = [] := by
  cases table with
  | nil => rfl
  | cons entry rest =>
    have := h entry.1.ident
    simp [value?_cons] at this

/-! ### All lists of a table together -/

theorem total_eq (table : Table (List α)) : table.total = (table.flatMap (·.2)).length := by
  induction table with
  | nil => rfl
  | cons entry rest ih =>
    rw [total, List.foldr_cons, List.flatMap_cons, List.length_append, ← ih]
    rfl

theorem length_le_total {table : Table (List α)} {entry : Fingerprint × List α}
    (h : entry ∈ table) : entry.2.length ≤ table.total := by
  induction table with
  | nil => contradiction
  | cons first rest ih =>
    have htotal : Table.total (first :: rest) = first.2.length + Table.total rest := rfl
    rw [htotal]
    rcases List.mem_cons.mp h with rfl | hrest
    · omega
    · have := ih hrest
      omega

end KeyForest.Table
