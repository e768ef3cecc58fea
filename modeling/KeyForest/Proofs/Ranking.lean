import KeyForest.Filter.Ranking
import KeyForest.Proofs.StableSort
import Mathlib.Tactic

/-!
# How filters are ranked

A ranking is loaded from the built-in filters and those of the groups that can be built. Whatever it
was loaded with before, the filters end up in one order only: by descending specificity, and at one
specificity as they were given (`Ranked.iff_eq_sort`). To ask for a name is to ask for the most
specific filter of that name, and of several such filters for the one that was given first
(`Ranked.denotes`).
-/
namespace KeyForest

namespace KeyFilter

/-- The filters of a compliance mode and of groups, in the order in which they are given. Groups that
cannot be built contribute nothing. -/
def given (compliance : Compliance) (groups : List Config.FilterGroup) : List KeyFilter :=
  builtins compliance ++ groups.filterMap fun group => group.build.toOption

end KeyFilter

namespace Ranking

open KeyFilter

variable {compliance : Compliance} {filters given : List KeyFilter} {id : String}

/-- The ranking of a compliance mode after it has been loaded with one list of groups after the
other. -/
def afterReloads (compliance : Compliance) (history : List (List Config.FilterGroup)) : Ranking :=
  history.foldl (fun ranking groups => (ranking.reload groups).1) (ofCompliance compliance).1

theorem filters_foldl_addGroup (groups : List Config.FilterGroup) (found : List KeyFilter)
    (events : List LogEvent) : (groups.foldl addGroup (found, events)).1 =
      found ++ groups.filterMap fun group => group.build.toOption := by
  induction groups generalizing found events with
  | nil => simp
  | cons group groups ih =>
    rw [List.foldl_cons, addGroup]
    cases hbuild : group.build with
    | error reason => simp [ih, hbuild, Except.toOption]
    | ok filter => simp [ih, hbuild, Except.toOption]

theorem filters_load (compliance : Compliance) (groups : List Config.FilterGroup) :
    (load compliance groups).1.filters = sort (KeyFilter.given compliance groups) := by
  rw [KeyFilter.given, ← filters_foldl_addGroup groups (builtins compliance) []]
  rfl

/-- A ranking keeps its compliance mode. -/
theorem compliance_afterReloads (compliance : Compliance)
    (history : List (List Config.FilterGroup)) :
    (afterReloads compliance history).compliance = compliance := by
  induction history using List.reverseRecOn with
  | nil => rfl
  | append_singleton history groups ih =>
    rw [afterReloads, List.foldl_append, ← afterReloads]
    exact ih

/-- Nothing of what a ranking was loaded with before is left after it is loaded again. -/
theorem filters_reload (compliance : Compliance) (history : List (List Config.FilterGroup))
    (groups : List Config.FilterGroup) :
    ((afterReloads compliance history).reload groups).1.filters =
      sort (KeyFilter.given compliance groups) := by
  rw [reload, filters_load, compliance_afterReloads]

/-! ### The order of filters -/

/-- The filters are the given ones by descending specificity, and at one specificity in the order in
which they are given. -/
structure Ranked (filters given : List KeyFilter) : Prop where
  perm : filters.Perm given
  descends : filters.Pairwise fun a b => b.specificity ≤ a.specificity
  level_eq : ∀ n, filters.filter (·.specificity = n) = given.filter (·.specificity = n)

theorem ranked_sort (given : List KeyFilter) : Ranked (sort given) given where
  perm := List.mergeSort_perm _ _
  descends := by
    have hordered : (sort given).Pairwise fun a b =>
        decide (b.specificity ≤ a.specificity) = true :=
      List.pairwise_mergeSort (by grind) (by grind) given
    exact hordered.imp of_decide_eq_true
  level_eq n := StableSort.filter_mergeSort (by grind) (by grind) (by grind) given

/-- There is one such order, and sorting finds it. -/
theorem Ranked.iff_eq_sort : Ranked filters given ↔ filters = sort given := by
  refine ⟨fun h => ?_, fun h => h ▸ ranked_sort given⟩
  have hlevel (filter : KeyFilter) : (fun other : KeyFilter =>
      decide (other.specificity ≤ filter.specificity) &&
        decide (filter.specificity ≤ other.specificity)) =
      fun other => decide (other.specificity = filter.specificity) := by
    funext other
    rw [← Bool.decide_and, decide_eq_decide]
    exact Nat.le_antisymm_iff.symm
  have hdescends {filters : List KeyFilter} (h : Ranked filters given) :
      filters.Pairwise fun a b => decide (b.specificity ≤ a.specificity) = true :=
    h.descends.imp decide_eq_true
  refine StableSort.eq_of_levels (by grind) (hdescends h) (hdescends (ranked_sort given))
    fun filter => ?_
  rw [hlevel, h.level_eq, (ranked_sort given).level_eq]

/-! ### Names -/

/-- The most specific of the given filters with this name, and of several such the first. -/
def Foremost (given : List KeyFilter) (id : String) (filter : KeyFilter) : Prop :=
  filter.id = id ∧ ∃ front back, given = front ++ filter :: back ∧
    (∀ other ∈ front, other.id = id → other.specificity < filter.specificity) ∧
    ∀ other ∈ back, other.id = id → other.specificity ≤ filter.specificity

/-- What is found of a name among the given filters, and at which place of a ranking. -/
inductive Denotes (ranking : Ranking) (given : List KeyFilter) (id : String) : Prop
  | nothing : ranking.positionOf? id = none → ranking.byId? id = none →
      (∀ filter ∈ given, filter.id ≠ id) → Denotes ranking given id
  | filter {row : ℕ} {filter : KeyFilter} : ranking.positionOf? id = some row →
      ranking.byId? id = some filter → ranking.filters[row]? = some filter →
      Foremost given id filter → Denotes ranking given id

theorem Ranked.foremost (h : Ranked filters given) {filter : KeyFilter}
    (hfind : filters.find? (·.id == id) = some filter) : Foremost given id filter := by
  obtain ⟨hid, front, back, rfl, hfront⟩ := List.find?_eq_some_iff_append.mp hfind
  have hid' : filter.id = id := beq_iff_eq.mp hid
  have hle : ∀ other ∈ given, other.id = id → other.specificity ≤ filter.specificity := by
    intro other hother hident
    rcases List.mem_append.mp (h.perm.mem_iff.mpr hother) with hmem | hmem
    · simpa [hident] using hfront other hmem
    · rcases List.mem_cons.mp hmem with rfl | hmem
      · exact le_rfl
      · exact (List.pairwise_cons.mp (List.pairwise_append.mp h.descends).2.1).1 other hmem
  -- Within its own level the filter is the first of its name, in the ranking as among the given.
  have hlevel : (given.filter (·.specificity = filter.specificity)).find? (·.id == id) =
      some filter := by
    rw [← h.level_eq, List.filter_append, List.filter_cons_of_pos (by simp), List.find?_append,
      List.find?_eq_none.mpr, Option.none_or, List.find?_cons, hid]
    intro other hother
    simpa using hfront other (List.mem_filter.mp hother).1
  rw [List.find?_filter] at hlevel
  obtain ⟨-, before, after, rfl, hbefore⟩ := List.find?_eq_some_iff_append.mp hlevel
  refine ⟨hid', before, after, rfl, fun other hother hident => ?_, fun other hother hident => ?_⟩
  · refine lt_of_le_of_ne (hle other (by simp [hother]) hident) fun heq => ?_
    simpa [hident, heq] using hbefore other hother
  · exact hle other (by simp [hother]) hident

theorem Ranked.denotes {ranking : Ranking} (h : Ranked ranking.filters given) (id : String) :
    Denotes ranking given id := by
  cases hfind : ranking.filters.find? (·.id == id) with
  | none =>
    have hnone := List.find?_eq_none.mp hfind
    refine .nothing (List.findIdx?_eq_none_iff.mpr fun filter hfilter => ?_) hfind
      fun filter hfilter => ?_
    · exact Bool.eq_false_iff.mpr (hnone filter hfilter)
    · simpa using hnone filter (h.perm.mem_iff.mpr hfilter)
  | some filter =>
    obtain ⟨hid, front, back, hfilters, hfront⟩ := List.find?_eq_some_iff_append.mp hfind
    have hposition : ranking.positionOf? id = some front.length := by
      rw [positionOf?, hfilters, List.findIdx?_append, List.findIdx?_eq_none_iff.mpr,
        List.findIdx?_cons, hid]
      · simp
      · intro other hother
        simpa using hfront other hother
    have hrow : ranking.filters[front.length]? = some filter := by
      rw [hfilters, List.getElem?_append_right (Nat.le_refl _), Nat.sub_self]
      rfl
    exact .filter hposition hfind hrow (h.foremost hfind)

/-! ### Loading -/

/-- Whatever a ranking was loaded with before, when it is loaded with groups its filters are the
built-in ones and those of the groups in their one order. The groups that cannot be built might as
well not be there, and a name denotes the most specific filter that has it. -/
theorem reload_ranked (compliance : Compliance) (history : List (List Config.FilterGroup))
    (groups : List Config.FilterGroup) :
    (∀ filters, Ranked filters (KeyFilter.given compliance groups) ↔
      filters = ((afterReloads compliance history).reload groups).1.filters) ∧
    (∀ n, ((afterReloads compliance history).reload groups).1.filters.filter (·.specificity = n) =
      (builtins compliance).filter (·.specificity = n) ++
        (groups.filterMap fun group => group.build.toOption).filter (·.specificity = n)) ∧
    ((afterReloads compliance history).reload groups).1.filters =
      ((afterReloads compliance history).reload
        (groups.filter fun group => group.build.toOption.isSome)).1.filters ∧
    ∀ id, Denotes ((afterReloads compliance history).reload groups).1
      (KeyFilter.given compliance groups) id := by
  have hfilters := filters_reload compliance history
  have hranked := Ranked.iff_eq_sort.mpr (hfilters groups)
  refine ⟨fun filters => ?_, fun n => ?_, ?_, hranked.denotes⟩
  · rw [Ranked.iff_eq_sort, hfilters]
  · rw [hranked.level_eq, KeyFilter.given, List.filter_append]
  · rw [hfilters, hfilters, KeyFilter.given, KeyFilter.given, List.filterMap_filter]
    refine congrArg (fun built => sort (builtins compliance ++ built)) ?_
    refine List.filterMap_congr fun group _ => ?_
    cases group.build <;> rfl

end Ranking

end KeyForest
