import KeyForest.Proofs.FilterGroup
import KeyForest.Proofs.Ranking

/-!
# How keys are classified

On every occasion each key belongs to someone: either the filter of the own certificates or that of
the foreign ones matches it, whatever else is configured. A group may describe a filter that agrees
with one of these two in everything, so filters are told apart by their places among the given ones
(`Ranking.placed`). The first of the filters that match is the most specific one, and to ask on
several occasions at once finds the filters that are found on any of them
(`Ranking.reload_classifies`).
-/
namespace KeyForest

theorem Contexts.has_none {occasion : Occasion} : ¬ Contexts.none.Has occasion := by
  cases occasion <;> exact Bool.false_ne_true

theorem Contexts.ne_none_iff {contexts : Contexts} :
    contexts ≠ .none ↔ ∃ occasion, contexts.Has occasion := by
  constructor
  · intro h
    obtain ⟨_ | _, _ | _⟩ := contexts
    · exact absurd rfl h
    · exact ⟨.filtering, rfl⟩
    · exact ⟨.appearance, rfl⟩
    · exact ⟨.appearance, rfl⟩
  · rintro ⟨occasion, hhas⟩ rfl
    exact has_none hhas

namespace KeyFilter

variable {filter : KeyFilter} {key : Key} {contexts : Contexts}

theorem accepts_eq_true : filter.accepts key contexts = true ↔
    (∃ occasion, filter.contexts.Has occasion ∧ contexts.Has occasion) ∧
      filter.rule.holds key = true := by
  rw [accepts, Bool.and_eq_true, Contexts.intersects_iff]

/-- Nothing matches when it is asked on no occasion. -/
theorem accepts_none : filter.accepts key .none = false := by
  rw [← Bool.not_eq_true, accepts_eq_true]
  rintro ⟨⟨_, -, hnone⟩, -⟩
  exact Contexts.has_none hnone

theorem accepts_union {a b : Contexts} : filter.accepts key (a.union b) = true ↔
    filter.accepts key a = true ∨ filter.accepts key b = true := by
  simp only [accepts_eq_true, Contexts.has_union, and_or_left, exists_or, or_and_right]

/-- A filter for all occasions goes by its rule alone. -/
theorem accepts_of_any (hany : filter.contexts = .any) (hsome : contexts ≠ .none) :
    filter.accepts key contexts = filter.rule.holds key := by
  rw [Bool.eq_iff_iff, accepts_eq_true, hany]
  refine and_iff_right ?_
  obtain ⟨occasion, hhas⟩ := Contexts.ne_none_iff.mp hsome
  exact ⟨occasion, Contexts.has_any, hhas⟩

theorem holds_myCertificates (key : Key) : myCertificates.rule.holds key = key.hasSecret := by
  cases h : key.hasSecret <;>
    simp [myCertificates, builtin, Rule.holds, Criteria.holds, Criteria.flags, Demand.accepts, h]

theorem holds_foreignCertificates (key : Key) :
    foreignCertificates.rule.holds key = !key.hasSecret := by
  cases h : key.hasSecret <;>
    simp [foreignCertificates, builtin, Rule.holds, Criteria.holds, Criteria.flags, Demand.accepts, h]

end KeyFilter

namespace Ranking

open KeyFilter

variable {given : List KeyFilter} {key : Key} {contexts : Contexts} {entry : KeyFilter × ℕ}

/-- The given filters in the order of a ranking, each with its place among those given. -/
def placed (given : List KeyFilter) : List (KeyFilter × ℕ) :=
  given.zipIdx.mergeSort fun a b => decide (b.1.specificity ≤ a.1.specificity)

/-- Those of them that match a key. -/
def placedMatching (given : List KeyFilter) (key : Key) (contexts : Contexts) :
    List (KeyFilter × ℕ) :=
  (placed given).filter fun entry => entry.1.accepts key contexts

theorem map_fst_placed (given : List KeyFilter) : (placed given).map Prod.fst = sort given := by
  have hsort := List.map_mergeSort (f := Prod.fst) (l := given.zipIdx)
    (r := fun a b => decide (b.1.specificity ≤ a.1.specificity))
    (s := fun a b => decide (b.specificity ≤ a.specificity)) fun _ _ _ _ => rfl
  rw [List.zipIdx_map_fst] at hsort
  exact hsort

theorem mem_placed : entry ∈ placed given ↔ given[entry.2]? = some entry.1 := by
  rw [placed, List.mem_mergeSort, List.mem_zipIdx_iff_getElem?]

theorem mem_placedMatching : entry ∈ placedMatching given key contexts ↔
    entry ∈ placed given ∧ entry.1.accepts key contexts = true := List.mem_filter

theorem allMatching_of_placed {ranking : Ranking} (h : ranking.filters = sort given) :
    ranking.allMatching key contexts = (placedMatching given key contexts).map Prod.fst := by
  rw [allMatching, h, ← map_fst_placed, List.filter_map]
  rfl

/-- How filters that are given in some order classify a key. -/
structure Classifies (ranking : Ranking) (given : List KeyFilter) (key : Key) : Prop where
  /-- The ranking holds the given filters and no others. -/
  perm : (placed given).Perm given.zipIdx
  filters_eq : ranking.filters = (placed given).map Prod.fst
  /-- Those that match a key are found, each of them, in their order. -/
  sublist : ∀ contexts, (placedMatching given key contexts).Sublist (placed given)
  mem_iff : ∀ contexts, ∀ entry ∈ placed given,
    entry ∈ placedMatching given key contexts ↔ entry.1.accepts key contexts = true
  allMatching_eq : ∀ contexts,
    ranking.allMatching key contexts = (placedMatching given key contexts).map Prod.fst
  /-- The first of them is the most specific one. -/
  first : ∀ contexts, ranking.firstMatching key contexts = (ranking.allMatching key contexts).head?
  foremost : ∀ contexts, ∀ filter ∈ ranking.firstMatching key contexts,
    ∀ other ∈ ranking.allMatching key contexts, other.specificity ≤ filter.specificity
  /-- A key belongs to someone, and not to two. -/
  owned : ∀ contexts, contexts ≠ .none →
    Xor ((myCertificates, 0) ∈ placedMatching given key contexts)
      ((foreignCertificates, 1) ∈ placedMatching given key contexts)
  nonempty : ∀ contexts, contexts ≠ .none → ranking.allMatching key contexts ≠ []
  union : ∀ a b entry, entry ∈ placedMatching given key (a.union b) ↔
    entry ∈ placedMatching given key a ∨ entry ∈ placedMatching given key b
  nothing : ranking.allMatching key .none = []

/-- Of the filters for own and foreign certificates exactly one matches, at its place. -/
theorem owned_placedMatching (hmine : given[0]? = some myCertificates)
    (hforeign : given[1]? = some foreignCertificates) (hsome : contexts ≠ .none) :
    Xor ((myCertificates, 0) ∈ placedMatching given key contexts)
      ((foreignCertificates, 1) ∈ placedMatching given key contexts) := by
  rw [mem_placedMatching, mem_placedMatching, mem_placed, mem_placed,
    accepts_of_any rfl hsome, accepts_of_any rfl hsome, holds_myCertificates,
    holds_foreignCertificates, and_iff_right hmine, and_iff_right hforeign]
  cases key.hasSecret <;> decide

theorem classifies_of_eq_sort {ranking : Ranking} (h : ranking.filters = sort given)
    (hmine : given[0]? = some myCertificates) (hforeign : given[1]? = some foreignCertificates) :
    Classifies ranking given key where
  perm := List.mergeSort_perm _ _
  filters_eq := h.trans (map_fst_placed given).symm
  sublist _ := List.filter_sublist
  mem_iff _ _ hentry := mem_placedMatching.trans (and_iff_right hentry)
  allMatching_eq _ := allMatching_of_placed h
  first _ := List.head?_filter.symm
  foremost contexts filter hfilter other hother := by
    have hhead : (ranking.allMatching key contexts).head? = some filter :=
      List.head?_filter.trans hfilter
    obtain ⟨rest, hrest⟩ := List.head?_eq_some_iff.mp hhead
    have hdescends : (ranking.allMatching key contexts).Pairwise
        fun a b => b.specificity ≤ a.specificity :=
      (Ranked.iff_eq_sort.mpr h).descends.filter _
    rw [hrest] at hdescends hother
    rcases List.mem_cons.mp hother with rfl | hother
    · exact le_rfl
    · exact (List.pairwise_cons.mp hdescends).1 other hother
  owned _ := owned_placedMatching hmine hforeign
  nonempty contexts hsome hnone := by
    have hempty : placedMatching given key contexts = [] := by
      rwa [allMatching_of_placed h, List.map_eq_nil_iff] at hnone
    have howned : Xor ((myCertificates, 0) ∈ placedMatching given key contexts)
        ((foreignCertificates, 1) ∈ placedMatching given key contexts) :=
      owned_placedMatching hmine hforeign hsome
    rw [hempty] at howned
    exact howned.elim (fun hmem => List.not_mem_nil hmem.1) fun hmem => List.not_mem_nil hmem.1
  union a b entry := by
    simp only [mem_placedMatching, accepts_union, and_or_left]
  nothing := List.filter_eq_nil_iff.mpr fun _ _ => by simp [accepts_none]

/-- Whatever a ranking was loaded with before, when it is loaded with groups it classifies every
key: to one of the two built-in filters for own and foreign certificates, however many filters of
the groups have their names. -/
theorem reload_classifies (compliance : Compliance) (history : List (List Config.FilterGroup))
    (groups : List Config.FilterGroup) (key : Key) :
    Classifies ((afterReloads compliance history).reload groups).1
      (KeyFilter.given compliance groups) key :=
  classifies_of_eq_sort (filters_reload compliance history groups) rfl rfl

/-- A group whose filter agrees in everything with the built-in one for own certificates. -/
theorem reload_classifies_twin :
    let twin : Config.FilterGroup := ⟨"Key Filter #1", [("font-bold", .boolean true),
      ("has-secret-key", .boolean true), ("id", .string "my-certificates"),
      ("name", .string "My Certificates"), ("specificity", .integer 4294967295)]⟩
    let key := (Key.ofFingerprint (.ofText "A")).withSecret
    let given := KeyFilter.given .standard [twin]
    twin.build.toOption = some myCertificates ∧ Contexts.filteringOnly ≠ .none ∧
      Xor ((myCertificates, 0) ∈ placedMatching given key .filteringOnly)
        ((foreignCertificates, 1) ∈ placedMatching given key .filteringOnly) := by
  intro twin key given
  have htwin : twin.build.toOption = some myCertificates := by decide +kernel
  have hsome : Contexts.filteringOnly ≠ .none := by decide
  exact ⟨htwin, hsome, (reload_classifies .standard [] [twin] key).owned _ hsome⟩

end Ranking

end KeyForest
