import KeyForest.Forest.Defect
import KeyForest.Proofs.Ascent
import KeyForest.Proofs.Bucket
import KeyForest.Proofs.Table

/-!
# Walks through a forest

A forest read by identities: `placed` says where a key is placed and `under` which keys are listed
under a parent. When no way up runs in a circle, the bounded walks of a forest end before their
bound is reached, so that they decide what they are meant to decide (`isAttached_iff`,
`isWithin_iff`, `mem_subtree`).
-/
namespace KeyForest.Forest

open Placements

variable {forest other : Forest} {f root : Fingerprint} {x p : Ident} {n steps : ℕ}

/-- Where the keys of a forest are placed. -/
def placed (forest : Forest) : Placements := fun x =>
  (forest.parents.value? x).map (·.map Fingerprint.ident)

/-- The keys listed under a parent, or at the top level. -/
def under (forest : Forest) : Option Ident → Bucket
  | none => forest.topLevel
  | some x => (forest.children.value? x).getD []

/-- The keys waiting for an issuer. -/
def awaiting (forest : Forest) (x : Ident) : Bucket := (forest.waiting.value? x).getD []

/-- Whether a key is taken out of its place and not yet listed again. -/
def IsMoving (forest : Forest) (x : Ident) : Prop := x ∈ forest.inTransit.idents

@[simp] theorem under_none : forest.under none = forest.topLevel := rfl

/-- Which keys are listed under which depends on the rows only. -/
theorem under_congr (htop : other.topLevel = forest.topLevel)
    (hchildren : other.children = forest.children) : other.under = forest.under := by
  funext o
  cases o with
  | none => exact htop
  | some x => rw [under, under, hchildren]

theorem exists_under_congr (htop : other.topLevel = forest.topLevel)
    (hchildren : other.children = forest.children) {key : Key} :
    (∃ o, key ∈ other.under o) ↔ ∃ o, key ∈ forest.under o := by
  rw [under_congr htop hchildren]

theorem childrenOf_eq (forest : Forest) (f : Fingerprint) :
    forest.childrenOf f = forest.under (some f.ident) := by
  rw [childrenOf, Table.get?_eq, under]

theorem rows_eq (forest : Forest) (parent : Option Fingerprint) :
    forest.rows parent = forest.under (parent.map Fingerprint.ident) := by
  cases parent with
  | none => rfl
  | some f => exact childrenOf_eq forest f

theorem waitingFor_eq (forest : Forest) (f : Fingerprint) :
    forest.waitingFor f = forest.awaiting f.ident := by
  rw [waitingFor, Table.get?_eq, awaiting]

theorem get?_parents_eq_none : forest.parents.get? f = none ↔ forest.placed f.ident = none := by
  rw [Table.get?_eq, placed, Option.map_eq_none_iff]

theorem placed_of_get? {parent : Option Fingerprint} (h : forest.parents.get? f = some parent) :
    forest.placed f.ident = some (parent.map Fingerprint.ident) := by
  rw [Table.get?_eq] at h
  rw [placed, h, Option.map_some]

theorem isPlaced_iff : forest.isPlaced f = true ↔ (forest.placed f.ident).isSome := by
  rw [isPlaced, Table.has_iff, placed, Option.isSome_map]

theorem has_inTransit_iff : forest.inTransit.has f = true ↔ forest.IsMoving f.ident := by
  rw [Table.has_iff, IsMoving, Table.mem_idents]

theorem mem_parents_of_placed {parent : Option Ident} (h : forest.placed x = some parent) :
    x ∈ forest.parents.idents := by
  obtain ⟨value, hvalue, -⟩ := Option.map_eq_some_iff.mp h
  rw [Table.mem_idents, hvalue, Option.isSome_some]

/-! ### Ways up -/

/-- No way up has more parents than there are placements. -/
theorem ends_le_parents (h : Ends forest.placed n x) : n ≤ forest.parents.length := by
  have hle : n ≤ forest.parents.idents.length :=
    h.le_length fun y p _ hy => mem_parents_of_placed hy
  simpa [Table.idents] using hle

theorem attached_of_reachesTop (h : forest.reachesTop steps f = true) :
    Attached forest.placed f.ident := by
  induction steps generalizing f with
  | zero => simp [reachesTop] at h
  | succ steps ih =>
    rw [reachesTop] at h
    cases hget : forest.parents.get? f with
    | none => simp [hget] at h
    | some parent =>
      cases parent with
      | none => exact .top (placed_of_get? hget)
      | some parent =>
        rw [hget] at h
        exact .child (placed_of_get? hget) (ih h)

theorem reachesTop_of_attached (h : Attached forest.placed x) (hn : Ends forest.placed n x)
    (hx : f.ident = x) (hlt : n < steps) : forest.reachesTop steps f = true := by
  induction steps generalizing f x n with
  | zero => omega
  | succ steps ih =>
    subst hx
    rw [reachesTop]
    cases hget : forest.parents.get? f with
    | none =>
      have := h.isSome
      simp [get?_parents_eq_none.mp hget] at this
    | some parent =>
      cases parent with
      | none => rfl
      | some parent =>
        have hparent := placed_of_get? hget
        cases hn with
        | here hnone => exact absurd hparent (hnone _)
        | child hp hn =>
          rw [hp] at hparent
          cases hparent
          exact ih (h.of_child hp) hn rfl (by omega)

theorem isAttached_iff (f : Fingerprint) :
    forest.isAttached f = true ↔ Attached forest.placed f.ident := by
  refine ⟨attached_of_reachesTop, fun h => ?_⟩
  obtain ⟨n, hn⟩ := h.ends
  exact reachesTop_of_attached h hn rfl (Nat.lt_succ_of_le (ends_le_parents hn))

theorem meets_iff (hn : Ends forest.placed n x) (hx : f.ident = x) (hlt : n < steps) :
    forest.meets root steps f = true ↔ Hangs forest.placed root.ident x := by
  induction steps generalizing f x n with
  | zero => omega
  | succ steps ih =>
    subst hx
    rw [meets]
    by_cases heq : f.ident = root.ident
    · rw [if_pos (Fingerprint.beq_iff.mpr heq), heq]
      exact iff_of_true rfl .self
    · rw [if_neg (mt Fingerprint.beq_iff.mp heq)]
      cases hget : forest.parents.get? f with
      | none =>
        have hnone := get?_parents_eq_none.mp hget
        refine iff_of_false (by simp) fun h => ?_
        rcases h.eq_or_child with hroot | ⟨p, hp, -⟩
        · exact heq hroot
        · simp [hnone] at hp
      | some parent =>
        have hplaced := placed_of_get? hget
        cases parent with
        | none =>
          refine iff_of_false (by simp) fun h => ?_
          rcases h.eq_or_child with hroot | ⟨p, hp, -⟩
          · exact heq hroot
          · simp [hplaced] at hp
        | some parent =>
          cases hn with
          | here hnone => exact absurd hplaced (hnone _)
          | child hp hn =>
            rw [hp] at hplaced
            cases hplaced
            exact (ih hn rfl (by omega)).trans ⟨.child hp, fun h => h.of_child hp heq⟩

theorem isWithin_iff (hacyclic : Acyclic forest.placed) (f root : Fingerprint) :
    forest.isWithin f root = true ↔ Hangs forest.placed root.ident f.ident := by
  obtain ⟨n, hn⟩ := hacyclic f.ident
  exact meets_iff hn rfl (Nat.lt_succ_of_le (ends_le_parents hn))

theorem climbsBeyond_eq_false (hn : Ends forest.placed n x) (hx : f.ident = x) (hle : n ≤ steps) :
    forest.climbsBeyond steps f = false := by
  induction steps generalizing f x n with
  | zero =>
    subst hx
    obtain rfl : n = 0 := by omega
    rw [climbsBeyond]
    cases hget : forest.parents.get? f with
    | none => rfl
    | some parent =>
      cases parent with
      | none => rfl
      | some parent =>
        cases hn with
        | here hnone => exact absurd (placed_of_get? hget) (hnone _)
  | succ steps ih =>
    subst hx
    rw [climbsBeyond]
    cases hget : forest.parents.get? f with
    | none => rfl
    | some parent =>
      cases parent with
      | none => rfl
      | some parent =>
        have hplaced := placed_of_get? hget
        cases hn with
        | here hnone => exact absurd hplaced (hnone _)
        | child hp hn =>
          rw [hp] at hplaced
          cases hplaced
          exact ih hn rfl (by omega)

/-! ### Ways down -/

/-- The rows under parents and the placements say the same. -/
def RowsMatch (forest : Forest) : Prop :=
  ∀ x parent, forest.placed x = some parent ↔ ∃ key ∈ forest.under parent, key.ident = x

theorem mem_below_succ {key : Key} {levels : ℕ} : key ∈ forest.below (levels + 1) f ↔
    key ∈ forest.childrenOf f ∨
      ∃ child ∈ forest.childrenOf f, key ∈ forest.below levels child.fingerprint := by
  rw [below, List.mem_append, List.mem_flatMap]
  simp only [List.mem_reverse]

/-- What is listed below a key does not depend on what is stored. -/
theorem subtree_congr {other : Forest} (hchildren : forest.children = other.children)
    (hparents : forest.parents = other.parents) : forest.subtree f = other.subtree f := by
  have hbelow (levels : ℕ) : forest.below levels f = other.below levels f := by
    induction levels generalizing f with
    | zero => rfl
    | succ levels ih => simp only [below, childrenOf, hchildren, ih]
  rw [subtree, subtree, hparents, hbelow]

/-- What is found at some depth below a key is listed under a key that hangs below it. -/
theorem exists_under_of_mem_below (hmatch : forest.RowsMatch) {key : Key} {levels : ℕ}
    (h : key ∈ forest.below levels f) :
    ∃ p, Hangs forest.placed f.ident p ∧ key ∈ forest.under (some p) := by
  induction levels generalizing f with
  | zero => simp [below] at h
  | succ levels ih =>
    simp only [mem_below_succ, childrenOf_eq] at h
    rcases h with hchild | ⟨child, hchild, hbelow⟩
    · exact ⟨f.ident, .self, hchild⟩
    · obtain ⟨p, hp, hkey⟩ := ih hbelow
      have hplaced := (hmatch child.ident (some f.ident)).mpr ⟨child, hchild, rfl⟩
      exact ⟨p, (Hangs.child hplaced .self).trans hp, hkey⟩

/-- Conversely, as long as the depth does not exceed the levels. -/
theorem mem_below (hmatch : forest.RowsMatch) {key : Key} {levels a m : ℕ}
    (ha : Ends forest.placed a f.ident) (hp : Hangs forest.placed f.ident p)
    (hkey : key ∈ forest.under (some p)) (hm : Ends forest.placed m p) (hlt : m < levels + a) :
    key ∈ forest.below levels f := by
  induction levels generalizing f a with
  | zero =>
    obtain ⟨k, hk, hak, -⟩ := hp.ends ha
    have := hk.unique hm
    omega
  | succ levels ih =>
    simp only [mem_below_succ, childrenOf_eq]
    rcases hp.from_root with rfl | ⟨c, hc, hcp⟩
    · exact .inl hkey
    · obtain ⟨child, hchild, rfl⟩ := (hmatch c (some f.ident)).mp hc
      exact .inr ⟨child, hchild, ih (.child hc ha) hcp (by omega)⟩

/-- The subtree of a key holds every key listed below it, at any depth. -/
theorem mem_subtree (hmatch : forest.RowsMatch) (hacyclic : Acyclic forest.placed) {key : Key} :
    key ∈ forest.subtree f ↔
      ∃ p, Hangs forest.placed f.ident p ∧ key ∈ forest.under (some p) := by
  refine ⟨exists_under_of_mem_below hmatch, fun ⟨p, hp, hkey⟩ => ?_⟩
  obtain ⟨a, ha⟩ := hacyclic f.ident
  obtain ⟨m, hm⟩ := hacyclic p
  have hplaced := (hmatch key.ident (some p)).mpr ⟨key, hkey, rfl⟩
  have hle := ends_le_parents (.child hplaced hm)
  exact mem_below hmatch ha hp hkey hm (by omega)

end KeyForest.Forest
