import KeyForest.Toml.Document
import Mathlib.Data.String.Basic
import Mathlib.Tactic

/-!
# Names of the entries of a document

While a document is read, every table that is written to keeps distinct names, since an entry is
either new or put in the place of the one with its name (`Entries.distinct_put`). In the end the
entries are put in order, so that the names of the top table ascend strictly (`ascending_parse`).
-/
namespace KeyForest.Toml

/-- No two entries have the same name. -/
def Distinct {α : Type} (entries : List (String × α)) : Prop := (entries.map Prod.fst).Nodup

/-- The names of the entries ascend strictly. -/
def Ascending (table : Table) : Prop := table.Pairwise fun a b => a.1 < b.1

namespace Entries

variable {entries entries' : Entries} {name : String} {α : Type} {answer : α}

theorem map_fst_put (entries : Entries) (name : String) (node : Node) :
    (put entries name node).map Prod.fst =
      if name ∈ entries.map Prod.fst then entries.map Prod.fst
      else entries.map Prod.fst ++ [name] := by
  induction entries with
  | nil => rfl
  | cons entry entries ih =>
    by_cases hname : entry.1 = name
    · simp [put, hname]
    · simp only [put, beq_iff_eq, hname, if_false, List.map_cons, ih, List.mem_cons,
        Ne.symm hname, false_or]
      split <;> simp

theorem distinct_put (h : Distinct entries) (name : String) (node : Node) :
    Distinct (put entries name node) := by
  rw [Distinct, map_fst_put]
  split
  · exact h
  · rename_i hnew
    refine List.nodup_append'.mpr ⟨h, List.nodup_singleton name, ?_⟩
    exact List.disjoint_singleton.mpr hnew

theorem distinct_erase (h : Distinct entries) (name : String) : Distinct (entries.erase name) :=
  List.Nodup.sublist (List.filter_sublist.map Prod.fst) h

/-- A change below an entry gives the entry a new node. -/
theorem exists_put_of_changeAt {dotted isDotted : Bool} {path : List String}
    {change : Bool → Entries → Option (Entries × α)}
    (h : changeAt dotted change (name :: path) isDotted entries = some (entries', answer)) :
    ∃ node, entries' = put entries name node := by
  rw [changeAt] at h
  split at h <;> try split at h
  all_goals first
    | contradiction
    | obtain ⟨_, -, hput⟩ := Option.bind_eq_some_iff.mp h
      cases hput
      exact ⟨_, rfl⟩

/-- Whatever is changed at the end of a path, the table where it begins keeps distinct names. -/
theorem distinct_changeAt {dotted isDotted : Bool} {path : List String}
    {change : Bool → Entries → Option (Entries × α)}
    (hchange : ∀ isDotted entries entries' answer, Distinct entries →
      change isDotted entries = some (entries', answer) → Distinct entries')
    (h : Distinct entries)
    (hsome : changeAt dotted change path isDotted entries = some (entries', answer)) :
    Distinct entries' := by
  cases path with
  | nil => exact hchange isDotted entries entries' answer h hsome
  | cons name path =>
    obtain ⟨node, rfl⟩ := exists_put_of_changeAt hsome
    exact distinct_put h name node

theorem distinct_addEntry {path : List String} {value : Value} (h : Distinct entries)
    (hsome : addEntry entries path value = some entries') : Distinct entries' := by
  obtain ⟨name, -, hsome⟩ := Option.bind_eq_some_iff.mp hsome
  obtain ⟨⟨changed, _⟩, hchanged, hsome⟩ := Option.bind_eq_some_iff.mp hsome
  cases hsome
  refine distinct_changeAt (fun _ entries _ _ hentries hput => ?_) h hchanged
  split at hput
  · exact nomatch hput
  · cases hput
    exact distinct_put hentries _ _

end Entries

namespace Draft

open Entries

variable {draft next : Draft} {entries : Entries} {path : List String}

/-- The tables of a draft that may become the top table have distinct names. -/
structure Proper (draft : Draft) : Prop where
  root : Distinct draft.root
  current : draft.path = [] → Distinct draft.current

theorem Proper.settle (h : draft.Proper) (hsome : draft.settle = some entries) :
    Distinct entries := by
  rw [Draft.settle] at hsome
  split at hsome
  · rename_i hpath
    cases hsome
    exact h.current (List.getLast?_eq_none_iff.mp hpath)
  · obtain ⟨⟨root, _⟩, hroot, hsome⟩ := Option.bind_eq_some_iff.mp hsome
    cases hsome
    refine distinct_changeAt (fun _ entries _ _ hentries hput => ?_) h.root hroot
    split at hput
    · cases hput
      exact distinct_put hentries _ _
    · cases hput
      exact distinct_put hentries _ _
    · exact nomatch hput

theorem Proper.beginTable (h : draft.Proper) (hsome : draft.beginTable path = some next) :
    next.Proper := by
  obtain ⟨root, hroot, hsome⟩ := Option.bind_eq_some_iff.mp hsome
  obtain ⟨name, hname, hsome⟩ := Option.bind_eq_some_iff.mp hsome
  obtain ⟨⟨changed, current⟩, hchanged, hsome⟩ := Option.bind_eq_some_iff.mp hsome
  cases hsome
  refine ⟨?_, fun hpath => ?_⟩
  · refine distinct_changeAt (fun _ entries _ _ hentries hbegin => ?_) (h.settle hroot) hchanged
    split at hbegin
    · cases hbegin
      exact hentries
    · cases hbegin
      exact distinct_erase hentries _
    · exact nomatch hbegin
  · obtain rfl : path = [] := hpath
    exact nomatch hname

theorem Proper.beginArrayTable (h : draft.Proper)
    (hsome : draft.beginArrayTable path = some next) : next.Proper := by
  obtain ⟨root, hroot, hsome⟩ := Option.bind_eq_some_iff.mp hsome
  obtain ⟨name, hname, hsome⟩ := Option.bind_eq_some_iff.mp hsome
  obtain ⟨⟨changed, _⟩, hchanged, hsome⟩ := Option.bind_eq_some_iff.mp hsome
  cases hsome
  refine ⟨?_, fun _ => List.nodup_nil⟩
  refine distinct_changeAt (fun _ entries _ _ hentries hbegin => ?_) (h.settle hroot) hchanged
  split at hbegin
  · cases hbegin
    exact distinct_put hentries _ _
  · cases hbegin
    exact hentries
  · exact nomatch hbegin

end Draft

open Draft

variable {draft next : Draft} {entries : Entries} {cs rest : List Char}

theorem proper_readLine (h : draft.Proper) (hsome : readLine draft cs = some (next, rest)) :
    next.Proper := by
  rw [readLine.eq_def] at hsome
  split at hsome <;> simp only [Option.bind_eq_bind, Option.bind_eq_some_iff] at hsome
  · obtain ⟨_, -, _, -, _, -, _, -, _, hbegin, hsome⟩ := hsome
    cases hsome
    exact h.beginArrayTable hbegin
  · obtain ⟨_, -, _, -, _, -, _, hbegin, hsome⟩ := hsome
    cases hsome
    exact h.beginTable hbegin
  · obtain ⟨_, -, _, -, _, -, _, -, current, hadd, hsome⟩ := hsome
    cases hsome
    exact ⟨h.root, fun hpath => Entries.distinct_addEntry (h.current hpath) hadd⟩

theorem distinct_readLinesOf {steps : ℕ} (h : draft.Proper)
    (hsome : readLinesOf steps draft cs = some entries) : Distinct entries := by
  induction steps generalizing draft cs with
  | zero => exact h.settle hsome
  | succ steps ih =>
    rw [readLinesOf] at hsome
    split at hsome
    · exact h.settle hsome
    · split at hsome
      · obtain ⟨_, -, hsome⟩ := Option.bind_eq_some_iff.mp hsome
        exact ih h hsome
      · obtain ⟨⟨next, rest⟩, hline, hsome⟩ := Option.bind_eq_some_iff.mp hsome
        exact ih (proper_readLine h hline) hsome

theorem map_fst_valuesOf (entries : Entries) :
    (valuesOf entries).map Prod.fst = entries.map Prod.fst := by
  induction entries with
  | nil => rfl
  | cons entry entries ih => rw [valuesOf, List.map_cons, List.map_cons, ih]

theorem map_fst_orderedEntries {entries : Table} {table : Table}
    (h : orderedEntries entries = some table) : table.map Prod.fst = entries.map Prod.fst := by
  induction entries generalizing table with
  | nil =>
    cases h
    rfl
  | cons entry entries ih =>
    rw [orderedEntries] at h
    obtain ⟨value, -, h⟩ := Option.bind_eq_some_iff.mp h
    obtain ⟨rest, hrest, h⟩ := Option.bind_eq_some_iff.mp h
    cases h
    rw [List.map_cons, List.map_cons, ih hrest]

theorem ascending_sortEntries {table : Table} (h : Distinct table) :
    Ascending (sortEntries table) := by
  have hordered : (sortEntries table).Pairwise fun a b => decide (a.1 ≤ b.1) = true :=
    List.pairwise_mergeSort (by grind) (by grind) table
  have hdistinct : (sortEntries table).Pairwise fun a b => a.1 ≠ b.1 := by
    refine List.pairwise_map.mp ?_
    exact ((List.mergeSort_perm table _).map Prod.fst).nodup_iff.mpr h
  refine (hordered.and hdistinct).imp fun hab => ?_
  exact lt_of_le_of_ne (of_decide_eq_true hab.1) hab.2

/-- The names of the top table of a document ascend strictly. -/
theorem ascending_parse {document : String} {table : Table} (h : parse document = some table) :
    Ascending table := by
  obtain ⟨entries, hentries, h⟩ := Option.bind_eq_some_iff.mp h
  obtain ⟨ordered, hordered, h⟩ := Option.bind_eq_some_iff.mp h
  cases h
  refine ascending_sortEntries ?_
  have hproper : ({} : Draft).Proper := ⟨List.nodup_nil, fun _ => List.nodup_nil⟩
  rw [Distinct, map_fst_orderedEntries hordered, map_fst_valuesOf]
  exact distinct_readLinesOf hproper hentries

end KeyForest.Toml
