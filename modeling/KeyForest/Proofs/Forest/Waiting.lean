import KeyForest.Forest.Update
import KeyForest.Proofs.Forest.Walks

/-!
# Keys that wait for their issuers

`Waits` ties the table of waiting keys to the keys of a forest: for an issuer wait exactly the
keys that name it, as long as the issuer is not there. The steps that change the table keep this
up while a key comes (`Waits.rewait`), goes (`Waits.forget`), or its issuer comes (`Waits.arrive`)
or goes (`Waits.depart`).
-/
namespace KeyForest.Forest

variable {forest other : Forest} {keys : Bucket} {there : Set Ident} {key : Key} {f : Fingerprint}
  {target : Target}

structure Waits (forest : Forest) (keys : Bucket) (there : Set Ident) : Prop where
  sorted : forest.waiting.IsSorted
  /-- Only issuers that are waited for have an entry. -/
  nonempty : ∀ entry ∈ forest.waiting, entry.2 ≠ []
  ascends : ∀ x, Bucket.IsSorted (forest.awaiting x)
  awaiting_iff : ∀ {x child}, child ∈ forest.awaiting x ↔
    child ∈ keys ∧ child.issuer = some x ∧ x ∉ there

theorem waits_empty : Waits {} [] ∅ where
  sorted := List.Pairwise.nil
  nonempty := by simp
  ascends _ := List.Pairwise.nil
  awaiting_iff := by simp [awaiting]

/-- No row and no placement is part of the table. -/
theorem Waits.frame (h : forest.Waits keys there) (hwaiting : other.waiting = forest.waiting) :
    other.Waits keys there := by
  have hawaiting (x : Ident) : other.awaiting x = forest.awaiting x := by
    rw [awaiting, awaiting, hwaiting]
  refine ⟨hwaiting ▸ h.sorted, hwaiting ▸ h.nonempty, fun x => ?_, fun {x child} => ?_⟩
  · rw [hawaiting]
    exact h.ascends x
  · rw [hawaiting]
    exact h.awaiting_iff

/-! ### One issuer's list in the table -/

/-- Gives an issuer another list of waiting keys; without keys it has no entry. -/
theorem awaiting_put (forest : Forest) (issuer : Fingerprint) (list : Bucket) (x : Ident) :
    ({ forest with waiting := forest.waiting.put issuer list } : Forest).awaiting x =
      if issuer.ident = x then list else forest.awaiting x := by
  rw [awaiting, Table.value?_put]
  split <;> rfl

theorem awaiting_erase (forest : Forest) (issuer : Fingerprint) (x : Ident) :
    ({ forest with waiting := forest.waiting.erase issuer } : Forest).awaiting x =
      if issuer.ident = x then [] else forest.awaiting x := by
  rw [awaiting, Table.value?_erase]
  split <;> rfl

theorem awaiting_forgetOrphan (forest : Forest) (issuer f : Fingerprint) (x : Ident) :
    (forest.forgetOrphan issuer f).awaiting x =
      if issuer.ident = x then (forest.awaiting x).erase f else forest.awaiting x := by
  simp only [forgetOrphan]
  by_cases hempty : ((forest.waitingFor issuer).erase f).isEmpty
  · rw [if_pos hempty, awaiting_erase]
    split
    · rename_i hx
      rw [waitingFor_eq, hx] at hempty
      exact (List.isEmpty_iff.mp hempty).symm
    · rfl
  · rw [if_neg hempty, awaiting_put, waitingFor_eq]
    split
    · rename_i hx
      rw [hx]
    · rfl

theorem awaiting_await (forest : Forest) (issuer : Fingerprint) (key : Key) (x : Ident) :
    (forest.await issuer key).awaiting x =
      if issuer.ident = x then (forest.awaiting x).put key else forest.awaiting x := by
  rw [await, awaiting_put, waitingFor_eq]
  split
  · rename_i hx
    rw [hx]
  · rfl

/-- The table keeps its form when one list of it is changed. -/
structure Formed (waiting : Table Bucket) : Prop where
  sorted : waiting.IsSorted
  nonempty : ∀ entry ∈ waiting, entry.2 ≠ []

theorem Formed.erase {waiting : Table Bucket} (h : Formed waiting) (issuer : Fingerprint) :
    Formed (waiting.erase issuer) :=
  ⟨h.sorted.erase issuer, fun entry hentry => h.nonempty entry (Table.mem_of_mem_erase hentry)⟩

theorem Formed.put {waiting : Table Bucket} (h : Formed waiting) (issuer : Fingerprint)
    {list : Bucket} (hlist : list ≠ []) : Formed (waiting.put issuer list) := by
  refine ⟨h.sorted.put issuer list, fun entry hentry => ?_⟩
  rcases Table.mem_put hentry with hnew | hold
  · rw [hnew]
    exact hlist
  · exact h.nonempty entry hold

theorem Formed.forgetOrphan (h : Formed forest.waiting) (issuer f : Fingerprint) :
    Formed (forest.forgetOrphan issuer f).waiting := by
  simp only [Forest.forgetOrphan]
  split
  · exact h.erase issuer
  · rename_i hempty
    exact h.put issuer fun hnil => hempty (by rw [hnil]; rfl)

theorem put_ne_nil (keys : Bucket) (key : Key) : keys.put key ≠ [] := by
  intro hnil
  unfold Bucket.put Bucket.putAt at hnil
  split at hnil
  · rename_i row hslot
    obtain rfl : keys = [] := by simpa using hnil
    simp [Bucket.search, Bucket.narrow] at hslot
  · rename_i row hslot
    have hlength := congrArg List.length hnil
    rw [List.length_insertIdx] at hlength
    split at hlength
    · simp at hlength
    · rename_i hrow
      obtain rfl : keys = [] := List.eq_nil_of_length_eq_zero hlength
      have : row = 0 := by
        have hsearch : Bucket.search [] key.fingerprint = .free 0 := by
          simp [Bucket.search, Bucket.narrow]
        rw [hsearch] at hslot
        exact (Slot.free.inj hslot).symm
      omega

theorem Formed.await (h : Formed forest.waiting) (issuer : Fingerprint) (key : Key) :
    Formed (forest.await issuer key).waiting := h.put issuer (put_ne_nil _ _)

theorem Waits.formed (h : forest.Waits keys there) : Formed forest.waiting := ⟨h.1, h.2⟩

/-! ### Steps -/

/-- The issuer whose arrival a target makes a key wait for. -/
def Target.awaited : Target → Option Ident
  | .orphan issuer => some issuer.ident
  | _ => none

theorem Target.isOrphanOf_iff {issuer : Fingerprint} :
    target.isOrphanOf issuer = true ↔ target.awaited = some issuer.ident := by
  cases target <;> simp [isOrphanOf, awaited]

theorem forgetOrphan_eq (forest : Forest) (issuer f : Fingerprint) :
    forest.forgetOrphan issuer f =
      { forest with waiting := (forest.forgetOrphan issuer f).waiting } := by
  simp only [forgetOrphan]
  split <;> rfl

theorem endWait_eq (forest : Forest) (issuer : Option Fingerprint) (f : Fingerprint) :
    forest.endWait issuer f = { forest with waiting := (forest.endWait issuer f).waiting } := by
  cases issuer with
  | none => rfl
  | some issuer => exact forgetOrphan_eq forest issuer f

theorem awaiting_endWait (forest : Forest) (issuer : Option Fingerprint) (f : Fingerprint)
    (x : Ident) : (forest.endWait issuer f).awaiting x =
      if issuer.map Fingerprint.ident = some x then (forest.awaiting x).erase f
      else forest.awaiting x := by
  cases issuer with
  | none => simp [endWait]
  | some issuer => simp [endWait, awaiting_forgetOrphan]

theorem Formed.endWait (h : Formed forest.waiting) (issuer : Option Fingerprint)
    (f : Fingerprint) : Formed (forest.endWait issuer f).waiting := by
  cases issuer with
  | none => exact h
  | some issuer => exact h.forgetOrphan issuer f

/-- Waiting elsewhere changes the table only. -/
theorem rewait_eq (forest : Forest) (former : Option Fingerprint) (target : Target) (key : Key) :
    forest.rewait former target key =
      { forest with waiting := (forest.rewait former target key).waiting } := by
  simp only [rewait]
  cases target with
  | orphan issuer =>
    simp only [await]
    rw [endWait_eq]
  | topLevel | under issuer => exact endWait_eq _ _ _

theorem awaiting_rewait (forest : Forest) (former : Option Fingerprint) (target : Target)
    (key : Key) (x : Ident) : (forest.rewait former target key).awaiting x =
      if target.awaited = some x then (forest.awaiting x).put key
      else if former.map Fingerprint.ident = some x then
        (forest.awaiting x).erase key.fingerprint
      else forest.awaiting x := by
  have hleft : (former.filter fun issuer => !target.isOrphanOf issuer).map Fingerprint.ident =
      some x ↔ target.awaited ≠ some x ∧ former.map Fingerprint.ident = some x := by
    cases former with
    | none => simp
    | some issuer =>
      simp only [Option.map_some, Option.some.injEq, Option.map_eq_some_iff,
        Option.filter_eq_some_iff, Bool.not_eq_true', ← Bool.not_eq_true, Target.isOrphanOf_iff]
      grind
  have hended : (forest.endWait (former.filter fun issuer => !target.isOrphanOf issuer)
      key.fingerprint).awaiting x = if target.awaited ≠ some x ∧
        former.map Fingerprint.ident = some x then (forest.awaiting x).erase key.fingerprint
      else forest.awaiting x := by
    rw [awaiting_endWait]
    exact if_congr hleft rfl rfl
  cases target with
  | orphan issuer =>
    simp only [rewait, awaiting_await, hended, Target.awaited, Option.some.injEq]
    by_cases hx : issuer.ident = x <;> simp [hx]
  | topLevel | under issuer =>
    simp only [rewait, hended]
    simp [Target.awaited]

/-- A key that comes waits for its issuer unless that is there, whatever it waited for before. -/
theorem Waits.rewait (h : forest.Waits keys there) (hkeys : Bucket.IsSorted keys)
    {former : Option Fingerprint}
    (hformer : former.map Fingerprint.ident = (keys.key? key.ident).bind Key.issuer)
    (htarget : ∀ x, target.awaited = some x ↔ key.issuer = some x ∧ x ∉ there) :
    (forest.rewait former target key).Waits (keys.put key) there := by
  have hformed : Formed (forest.rewait former target key).waiting := by
    have hended := h.formed.endWait (former.filter fun issuer => !target.isOrphanOf issuer)
      key.fingerprint
    unfold Forest.rewait
    cases target with
    | orphan issuer => exact hended.await issuer key
    | topLevel | under issuer => exact hended
  refine ⟨hformed.sorted, hformed.nonempty, fun x => ?_, fun {x child} => ?_⟩
  · rw [awaiting_rewait]
    split
    · exact (h.ascends x).put key
    · split
      · exact (h.ascends x).erase key.fingerprint
      · exact h.ascends x
  · rw [awaiting_rewait, Bucket.mem_put hkeys]
    by_cases hx : target.awaited = some x
    · rw [if_pos hx, Bucket.mem_put (h.ascends x), h.awaiting_iff]
      have := (htarget x).mp hx
      grind
    · rw [if_neg hx]
      have hnot : ¬ (key.issuer = some x ∧ x ∉ there) := mt (htarget x).mpr hx
      by_cases hformer' : former.map Fingerprint.ident = some x
      · rw [if_pos hformer', Bucket.mem_erase (h.ascends x), h.awaiting_iff]
        grind
      · rw [if_neg hformer', h.awaiting_iff]
        have hchild (hmem : child ∈ keys) (hissuer : child.issuer = some x) :
            child.ident ≠ key.ident := by
          intro hident
          refine hformer' ?_
          rw [hformer, hkeys.key?_eq_some.mpr ⟨hmem, hident⟩]
          exact hissuer
        grind

/-- A key that goes waits no longer. -/
theorem Waits.forget (h : forest.Waits keys there) (hkeys : Bucket.IsSorted keys)
    (hkey : key ∈ keys) (hf : f.ident = key.ident) :
    (forest.endWait key.cleanIssuer f).Waits (keys.erase f) there := by
  have hformed := h.formed.endWait key.cleanIssuer f
  refine ⟨hformed.sorted, hformed.nonempty, fun x => ?_, fun {x child} => ?_⟩
  · rw [awaiting_endWait]
    split
    · exact (h.ascends x).erase f
    · exact h.ascends x
  · rw [awaiting_endWait, Bucket.mem_erase hkeys]
    split
    · rw [Bucket.mem_erase (h.ascends x), h.awaiting_iff]
      grind
    · rename_i hx
      rw [h.awaiting_iff]
      have hchild (hmem : child ∈ keys) (hissuer : child.issuer = some x) :
          child.ident ≠ f.ident := by
        intro hident
        rw [hkeys.eq_of_ident hmem hkey (hident.trans hf)] at hissuer
        exact hx hissuer
      grind

/-- When an issuer comes, no key waits for it any more. -/
theorem Waits.arrive (h : forest.Waits keys there) (f : Fingerprint) :
    ({ forest with waiting := forest.waiting.erase f } : Forest).Waits keys
      (insert f.ident there) := by
  refine ⟨h.sorted.erase f, (h.formed.erase f).nonempty, fun x => ?_, fun {x child} => ?_⟩
  · rw [awaiting_erase]
    split
    · exact List.Pairwise.nil
    · exact h.ascends x
  · rw [awaiting_erase]
    by_cases hx : f.ident = x
    · simp [hx]
    · rw [if_neg hx, h.awaiting_iff]
      simp [Ne.symm hx]

/-- When an issuer goes, the keys that name it wait for it. -/
theorem Waits.depart (h : forest.Waits keys there) {cut : Bucket} (hcut : Bucket.IsSorted cut)
    (hnonempty : cut ≠ []) (hmem : ∀ child, child ∈ cut ↔
      child ∈ keys ∧ child.issuer = some f.ident) :
    ({ forest with waiting := forest.waiting.put f cut } : Forest).Waits keys
      (there \ {f.ident}) := by
  refine ⟨h.sorted.put f cut, (h.formed.put f hnonempty).nonempty, fun x => ?_,
    fun {x child} => ?_⟩
  · rw [awaiting_put]
    split
    · exact hcut
    · exact h.ascends x
  · rw [awaiting_put]
    by_cases hx : f.ident = x
    · rw [if_pos hx, hmem]
      simp [hx]
    · rw [if_neg hx, h.awaiting_iff]
      simp [Ne.symm hx]

end KeyForest.Forest
