import KeyForest.Config.Settings
import KeyForest.Proofs.FilterGroup
import KeyForest.Proofs.StableSort
import KeyForest.Proofs.Text
import KeyForest.Proofs.Toml.Names
import Mathlib

/-!
# Filter groups of a document

A table of a document whose name is `Key Filter #` and a number becomes a filter group, and nothing
else does. The groups stand in the order of their numbers, and those of equal number, since numbers
may be written with zeros in front, in the order of their names (`parse_collects`). Only a number of
more than 64 bits loses its group.
-/
namespace KeyForest.Config

open Toml (Ascending)

/-! ### Numbered names -/

/-- Whether a name is made of the title of filter groups and of this number in decimal digits, with
or without zeros in front. -/
def IsNumbered (name : String) (number : ℕ) : Prop :=
  ∃ digits : List Char, digits ≠ [] ∧ (∀ c ∈ digits, c.isDigit = true) ∧
    name.toList = Settings.groupTitle.toList ++ digits ∧ Nat.ofDigitChars 10 digits 0 = number

variable {name : String} {number m n : ℕ}

theorem IsNumbered.unique (hm : IsNumbered name m) (hn : IsNumbered name n) : m = n := by
  obtain ⟨digits, -, -, hname, rfl⟩ := hm
  obtain ⟨digits', -, -, hname', rfl⟩ := hn
  rw [List.append_cancel_left (hname.symm.trans hname')]

theorem IsNumbered.isAscii (h : IsNumbered name n) : Text.IsAscii name.toList := by
  obtain ⟨digits, -, hdigits, hname, -⟩ := h
  have htitle : Settings.groupTitle.toList.all (·.val ≤ 127) = true := by decide +kernel
  rw [hname]
  refine List.forall_mem_append.mpr
    ⟨fun c hc => of_decide_eq_true (List.all_eq_true.mp htitle c hc), fun c hc => ?_⟩
  have hle := (Text.isDigit_iff.mp (hdigits c hc)).2
  rw [UInt32.le_iff_toNat_le]
  exact le_trans hle (by decide)

theorem IsNumbered.ne_general (h : IsNumbered name n) : name ≠ "general" := by
  rintro rfl
  obtain ⟨digits, -, -, hname, -⟩ := h
  exact nomatch congrArg List.head? hname

/-- A number is read if it has at most 64 bits. -/
theorem Settings.groupNumber?_eq_some :
    groupNumber? name = some number ↔ IsNumbered name number ∧ number < 2 ^ 64 := by
  rw [groupNumber?]
  constructor
  · intro h
    split at h
    · rename_i htitle
      obtain ⟨digits, hname⟩ := List.isPrefixOf_iff_prefix.mp htitle
      rw [← hname, List.drop_left] at h
      obtain ⟨hnonempty, hdigits, hvalue, hlt⟩ := Text.count?_eq_some.mp h
      exact ⟨⟨digits, hnonempty, hdigits, hname.symm, hvalue⟩, hlt⟩
    · exact nomatch h
  · rintro ⟨⟨digits, hnonempty, hdigits, hname, hvalue⟩, hlt⟩
    rw [hname, if_pos (List.isPrefixOf_iff_prefix.mpr (List.prefix_append _ _)), List.drop_left]
    exact Text.count?_eq_some.mpr ⟨hnonempty, hdigits, hvalue, hlt⟩

/-! ### Groups in order -/

/-- Whether a group stands before another one: its number is smaller, or the numbers are equal and
its name is smaller byte by byte. -/
def FilterGroup.Precedes (a b : FilterGroup) : Prop :=
  ∃ m n, IsNumbered a.name m ∧ IsNumbered b.name n ∧
    (m < n ∨ m = n ∧ Text.bytes a.name < Text.bytes b.name)

theorem FilterGroup.Precedes.asymm {a b : FilterGroup} (h : a.Precedes b) : ¬ b.Precedes a := by
  rintro ⟨n', m', hb', ha', hba⟩
  obtain ⟨m, n, ha, hb, hab⟩ := h
  obtain rfl := ha.unique ha'
  obtain rfl := hb.unique hb'
  rcases hab with hlt | ⟨rfl, hbytes⟩
  · omega
  · rcases hba with hlt | ⟨-, hbytes'⟩
    · exact lt_irrefl _ hlt
    · exact List.lt_asymm hbytes hbytes'

instance : Std.Asymm FilterGroup.Precedes := ⟨fun _ _ => FilterGroup.Precedes.asymm⟩

/-- Whether groups are the tables of a document whose names are numbered, by numbers that count:
each table is there once with all its entries, and the order is that of the numbers. -/
structure Lists (table : Toml.Table) (counts : ℕ → Prop) (groups : List FilterGroup) : Prop where
  mem_iff : ∀ group, group ∈ groups ↔ (group.name, .table group.entries) ∈ table ∧
    ∃ number, IsNumbered group.name number ∧ counts number
  ascends : groups.Pairwise FilterGroup.Precedes

namespace Lists

variable {table table' : Toml.Table} {counts : ℕ → Prop} {groups groups' : List FilterGroup}

/-- The groups depend on nothing but the tables of numbered names. -/
theorem congr (h : Lists table counts groups) (h' : Lists table' counts groups')
    (hsame : ∀ name entries number, IsNumbered name number → counts number →
      ((name, .table entries) ∈ table ↔ (name, .table entries) ∈ table')) : groups = groups' := by
  refine h.ascends.eq_of_mem_iff h'.ascends fun group => ?_
  rw [h.mem_iff, h'.mem_iff]
  refine and_congr_left fun ⟨number, hnumber, hcounts⟩ => ?_
  exact hsame group.name group.entries number hnumber hcounts

theorem unique (h : Lists table counts groups) (h' : Lists table counts groups') :
    groups = groups' :=
  h.congr h' fun _ _ _ _ _ => Iff.rfl

/-- No table is left out exactly if the numbers of all of them count. -/
theorem all_iff (h : Lists table counts groups) : Lists table (fun _ => True) groups ↔
    ∀ name entries number, (name, .table entries) ∈ table → IsNumbered name number →
      counts number := by
  constructor
  · intro hall name entries number hmem hnumber
    have hgroup := (hall.mem_iff ⟨name, entries⟩).mpr ⟨hmem, number, hnumber, trivial⟩
    obtain ⟨-, number', hnumber', hcounts⟩ := (h.mem_iff _).mp hgroup
    rwa [hnumber.unique hnumber']
  · intro hall
    refine ⟨fun group => (h.mem_iff group).trans (and_congr_right fun hmem => ?_), h.ascends⟩
    refine exists_congr fun number => and_congr_right fun hnumber => iff_true_intro ?_
    exact hall group.name group.entries number hmem hnumber

end Lists

/-! ### Reading a document -/

namespace Settings

variable {table : Toml.Table} {document : String} {settings : Settings} {events : List LogEvent}

/-- The groups of a document, with their numbers, in the order of its tables. -/
def numbered (table : Toml.Table) : List (ℕ × FilterGroup) :=
  ((table.filter (·.1 != "general")).map fun (name, value) => readGroup name value).filterMap
    Sum.getLeft?

theorem readGroup_eq_inl {value : Toml.Value} {entry : ℕ × FilterGroup} :
    readGroup name value = .inl entry ↔
      groupNumber? name = some entry.1 ∧ name = entry.2.name ∧ value = .table entry.2.entries := by
  obtain ⟨number, group⟩ := entry
  constructor
  · intro h
    rw [readGroup.eq_def] at h
    split at h
    · cases h
      exact ⟨‹_›, rfl, rfl⟩
    · exact nomatch h
    · exact nomatch h
  · rintro ⟨hnumber, rfl, rfl⟩
    simp only [readGroup.eq_def, hnumber]

theorem mem_numbered {entry : ℕ × FilterGroup} : entry ∈ numbered table ↔
    (entry.2.name, .table entry.2.entries) ∈ table ∧ IsNumbered entry.2.name entry.1 ∧
      entry.1 < 2 ^ 64 := by
  rw [← groupNumber?_eq_some]
  simp only [numbered, List.mem_filterMap, List.mem_map, List.mem_filter, Sum.getLeft?_eq_some_iff]
  constructor
  · rintro ⟨_, ⟨⟨name, value⟩, ⟨hmem, -⟩, hread⟩, rfl⟩
    obtain ⟨hnumber, rfl, rfl⟩ := readGroup_eq_inl.mp hread
    exact ⟨hmem, hnumber⟩
  · rintro ⟨hmem, hnumber⟩
    have hgeneral := (groupNumber?_eq_some.mp hnumber).1.ne_general
    exact ⟨_, ⟨_, ⟨hmem, bne_iff_ne.mpr hgeneral⟩, readGroup_eq_inl.mpr ⟨hnumber, rfl, rfl⟩⟩, rfl⟩

/-- The tables of a document are in the order of their names. -/
theorem numbered_ascend (h : Ascending table) :
    (numbered table).Pairwise fun a b => a.2.name < b.2.name := by
  refine List.pairwise_filterMap.mpr (List.pairwise_map.mpr ((h.filter _).imp ?_))
  rintro ⟨name, value⟩ ⟨name', value'⟩ hlt a ha b hb
  rw [Sum.getLeft?_eq_some_iff] at ha hb
  obtain ⟨-, rfl, -⟩ := readGroup_eq_inl.mp ha
  obtain ⟨-, rfl, -⟩ := readGroup_eq_inl.mp hb
  exact hlt

/-- The groups of a document in the order of their numbers. -/
def ordered (table : Toml.Table) : List FilterGroup :=
  ((numbered table).mergeSort fun a b => decide (a.1 ≤ b.1)).map (·.2)

theorem lists_ordered (h : Ascending table) : Lists table (· < 2 ^ 64) (ordered table) where
  mem_iff group := by
    simp only [ordered, List.mem_map, List.mem_mergeSort, mem_numbered]
    constructor
    · rintro ⟨⟨number, _⟩, ⟨hmem, hnumber, hlt⟩, rfl⟩
      exact ⟨hmem, number, hnumber, hlt⟩
    · rintro ⟨hmem, number, hnumber, hlt⟩
      exact ⟨(number, group), ⟨hmem, hnumber, hlt⟩, rfl⟩
  ascends := by
    refine List.pairwise_map.mpr ?_
    refine (StableSort.pairwise_mergeSort (by grind) (by grind) (numbered_ascend h)).imp_of_mem
      fun {a b} ha hb hab => ?_
    obtain ⟨-, hnumber, -⟩ := mem_numbered.mp (List.mem_mergeSort.mp ha)
    obtain ⟨-, hnumber', -⟩ := mem_numbered.mp (List.mem_mergeSort.mp hb)
    refine ⟨a.1, b.1, hnumber, hnumber', ?_⟩
    rcases lt_or_eq_of_le (of_decide_eq_true hab.1) with hlt | heq
    · exact .inl hlt
    · have hname := hab.2 (decide_eq_true heq.ge)
      exact .inr ⟨heq, Text.bytes_lt_bytes hnumber.isAscii hnumber'.isAscii hname⟩

/-- Whether the general section of a document, if it has one, can be read. -/
def ReadsGeneral (table : Toml.Table) : Prop :=
  ∀ value, table.get? "general" = some value → ∃ compliance, decodeGeneral value = .ok compliance

theorem groups_of_ofTable (h : ofTable table = .ok (settings, events)) :
    settings.groups = ordered table := by
  rw [ofTable] at h
  split at h <;> obtain ⟨compliance, -, h⟩ := bind_eq_ok.mp h
  · cases h
    rfl
  · cases h
    rfl

/-- Nothing but the general section can keep a document from being read. -/
theorem exists_ofTable (h : ReadsGeneral table) :
    ∃ settings events, ofTable table = .ok (settings, events) := by
  rw [ofTable]
  cases hvalue : table.get? "general" with
  | none => exact ⟨_, _, rfl⟩
  | some value =>
    obtain ⟨compliance, hcompliance⟩ := h value hvalue
    exact ⟨_, _, bind_eq_ok.mpr ⟨compliance, hcompliance, rfl⟩⟩

theorem parse_eq_ok (htable : Toml.parse document = some table) :
    parse document = .ok (settings, events) ↔ ofTable table = .ok (settings, events) := by
  simp only [parse, htable, mapError_eq_ok]

theorem lists_of_parse (htable : Toml.parse document = some table)
    (h : parse document = .ok (settings, events)) : Lists table (· < 2 ^ 64) settings.groups := by
  rw [groups_of_ofTable ((parse_eq_ok htable).mp h)]
  exact lists_ordered (Toml.ascending_parse htable)

/-- Whether a document, if its general section can be read, loses none of its tables of numbered
names. -/
def KeepsAll (document : String) : Prop :=
  ∀ table, Toml.parse document = some table → ReadsGeneral table →
    ∃ settings events, parse document = .ok (settings, events) ∧
      Lists table (fun _ => True) settings.groups

theorem keepsAll_iff (htable : Toml.parse document = some table)
    (h : parse document = .ok (settings, events)) (hgeneral : ReadsGeneral table) :
    KeepsAll document ↔ Lists table (fun _ => True) settings.groups := by
  constructor
  · intro hkeeps
    obtain ⟨settings', events', h', hlists⟩ := hkeeps table htable hgeneral
    rw [h] at h'
    cases h'
    exact hlists
  · intro hlists table' htable' _
    rw [htable] at htable'
    cases htable'
    exact ⟨settings, events, h, hlists⟩

/-- What the groups of a configuration are, by the document that holds it. -/
structure Collects (document : String) (table : Toml.Table) (settings : Settings) : Prop where
  /-- The groups are the tables of numbered names with numbers of at most 64 bits, in order. -/
  lists_iff : ∀ groups, Lists table (· < 2 ^ 64) groups ↔ groups = settings.groups
  /-- No table is lost exactly if no number has more than 64 bits. -/
  keepsAll_iff : KeepsAll document ↔ ∀ name entries number, (name, .table entries) ∈ table →
    IsNumbered name number → number < 2 ^ 64
  /-- Whatever else is in a document does not matter to its groups. -/
  alone : ∀ document' table' settings' events', Toml.parse document' = some table' →
    parse document' = .ok (settings', events') →
    (∀ name entries number, IsNumbered name number → number < 2 ^ 64 →
      ((name, .table entries) ∈ table' ↔ (name, .table entries) ∈ table)) →
    settings'.groups = settings.groups

/-- A document whose general section can be read is a configuration, and its groups are its tables of
numbered names. -/
theorem parse_collects (htable : Toml.parse document = some table)
    (hgeneral : ReadsGeneral table) : ∃ settings events,
      parse document = .ok (settings, events) ∧ Collects document table settings := by
  obtain ⟨settings, events, h⟩ := exists_ofTable hgeneral
  have hparse := (parse_eq_ok htable).mpr h
  have hlists := lists_of_parse htable hparse
  refine ⟨settings, events, hparse, fun groups => ⟨fun h => h.unique hlists, ?_⟩, ?_, ?_⟩
  · rintro rfl
    exact hlists
  · rw [keepsAll_iff htable hparse hgeneral, hlists.all_iff]
  · intro document' table' settings' events' htable' hparse' hsame
    exact (lists_of_parse htable' hparse').congr hlists hsame

/-- Two groups whose numbers and names are in different orders. -/
theorem parse_collects_zero :
    let document := "['Key Filter #02']\n['Key Filter #1']\nid = 'one'\n[general]\n"
    ∃ settings events, parse document = .ok (settings, events) ∧
      settings.groups = [⟨"Key Filter #1", [("id", .string "one")]⟩, ⟨"Key Filter #02", []⟩] := by
  have htable : Toml.parse "['Key Filter #02']\n['Key Filter #1']\nid = 'one'\n[general]\n" =
      some [("Key Filter #02", .table []), ("Key Filter #1", .table [("id", .string "one")]),
        ("general", .table [])] := by cbv
  obtain ⟨settings, events, hparse, hcollects⟩ := parse_collects htable fun value hvalue => by
    cases hvalue
    exact ⟨none, rfl⟩
  have hone : IsNumbered "Key Filter #1" 1 := (groupNumber?_eq_some.mp (by decide +kernel)).1
  have htwo : IsNumbered "Key Filter #02" 2 := (groupNumber?_eq_some.mp (by decide +kernel)).1
  refine ⟨settings, events, hparse, ((hcollects.lists_iff _).mp ⟨fun group => ?_, ?_⟩).symm⟩
  · simp only [List.mem_cons, List.not_mem_nil, or_false]
    constructor
    · rintro (rfl | rfl)
      · exact ⟨.inr (.inl rfl), 1, hone, by norm_num⟩
      · exact ⟨.inl rfl, 2, htwo, by norm_num⟩
    · obtain ⟨name, entries⟩ := group
      rintro ⟨hentry | hentry | hentry, number, hnumber, -⟩ <;> cases hentry
      · exact .inr rfl
      · exact .inl rfl
      · exact absurd rfl hnumber.ne_general
  · exact List.pairwise_pair.mpr ⟨1, 2, hone, htwo, .inl (by norm_num)⟩

theorem parse_long : Toml.parse "['Key Filter #18446744073709551616']\nid = 'long'\n" =
    some [("Key Filter #18446744073709551616", .table [("id", .string "long")])] := by cbv

theorem ofTable_long :
    ofTable [("Key Filter #18446744073709551616", .table [("id", .string "long")])] =
      .ok ({}, [.unknownTable "Key Filter #18446744073709551616"]) := by cbv

/-- A group is lost, with nothing but an event for an unknown table, if its number has more than 64
bits. -/
theorem not_keepsAll_long :
    let document := "['Key Filter #18446744073709551616']\nid = 'long'\n"
    let name := "Key Filter #18446744073709551616"
    let table := [(name, .table [("id", .string "long")])]
    Toml.parse document = some table ∧ ReadsGeneral table ∧ IsNumbered name (2 ^ 64) ∧
      parse document = .ok ({}, [.unknownTable name]) ∧ ¬ KeepsAll document := by
  intro document name table
  have hgeneral : ReadsGeneral table := fun value hvalue => nomatch hvalue
  have hnumber : IsNumbered name (2 ^ 64) :=
    ⟨"18446744073709551616".toList, List.cons_ne_nil _ _, List.all_eq_true.mp (by decide +kernel),
      by decide +kernel⟩
  have hparse := (parse_eq_ok parse_long).mpr ofTable_long
  refine ⟨parse_long, hgeneral, hnumber, hparse, fun hkeeps => ?_⟩
  have hlists := (keepsAll_iff parse_long hparse hgeneral).mp hkeeps
  exact List.not_mem_nil ((hlists.mem_iff ⟨name, [("id", .string "long")]⟩).mpr
    ⟨List.mem_singleton_self _, 2 ^ 64, hnumber, trivial⟩)

end Settings

end KeyForest.Config
