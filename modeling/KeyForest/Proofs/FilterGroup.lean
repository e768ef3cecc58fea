import KeyForest.Config.FilterGroup
import KeyForest.Proofs.Criteria
import Mathlib.Data.List.Nodup
import Mathlib.Data.List.TakeDrop

/-!
# What a filter group means

Whether the filter of a group matches a key is decided by the criteria of the group, one by one, and
each criterion looks at a single entry of the group (`Criterion.Met`). Entries that are no criteria
take no part in it, and an entry that is added can only take keys away (`build_means`).
-/
namespace KeyForest

open Config

/-! ### Outcomes -/

section Outcome

variable {ε δ α β : Type} {x : Except ε α} {a : α} {b : β}

theorem bind_eq_ok {f : α → Except ε β} : (x >>= f) = .ok b ↔ ∃ a, x = .ok a ∧ f a = .ok b := by
  cases x <;> simp [bind, Except.bind]

theorem map_eq_ok {f : α → β} : x.map f = .ok b ↔ ∃ a, x = .ok a ∧ f a = b := by
  cases x <;> simp [Except.map]

theorem mapError_eq_ok {f : ε → δ} : x.mapError f = .ok a ↔ x = .ok a := by
  cases x <;> simp [Except.mapError]

theorem forM_eq_ok {f : α → Except ε Unit} {xs : List α} :
    xs.forM f = .ok () ↔ ∀ x ∈ xs, f x = .ok () := by
  induction xs with
  | nil => simp [List.forM, pure, Except.pure]
  | cons x xs ih =>
    change (f x >>= fun _ => xs.forM f) = _ ↔ _
    rw [bind_eq_ok, List.forall_mem_cons, ← ih]
    exact ⟨fun ⟨(), hx, hxs⟩ => ⟨hx, hxs⟩, fun ⟨hx, hxs⟩ => ⟨(), hx, hxs⟩⟩

/-- What can be done in any case may as well be left out. -/
theorem forM_insert {f : α → Except ε Unit} (ha : f a = .ok ()) (front back : List α) :
    (front ++ a :: back).forM f = (front ++ back).forM f := by
  simp only [List.forM_eq_forM, List.forM_append, List.forM_cons, ha]
  rfl

end Outcome

/-! ### Occasions -/

/-- One of the occasions for asking a filter. -/
inductive Occasion where
  | appearance
  | filtering
deriving DecidableEq, Repr

namespace Occasion

def keyword : Occasion → String
  | appearance => "appearance"
  | filtering => "filtering"

/-- Whether a text names an occasion, on its own or as one of all. -/
def IsNamedBy (occasion : Occasion) (text : String) : Prop :=
  Text.Spells text.toList occasion.keyword ∨ Text.Spells text.toList "any" ∨
    Text.Spells text.toList "any-match-context"

theorem isNamedBy_iff {occasion : Occasion} {text : String} : occasion.IsNamedBy text ↔
    Text.keyword text = occasion.keyword ∨ Text.keyword text = "any" ∨
      Text.keyword text = "any-match-context" := by
  rw [IsNamedBy, ← Text.keyword_eq_iff (by cases occasion <;> decide),
    ← Text.keyword_eq_iff (by decide), ← Text.keyword_eq_iff (by decide)]

end Occasion

namespace Contexts

variable {contexts asked : Contexts} {occasion : Occasion} {text : String} {names : List String}

/-- Whether an occasion is in a set of occasions. -/
def Has (contexts : Contexts) : Occasion → Prop
  | .appearance => contexts.appearance = true
  | .filtering => contexts.filtering = true

theorem has_union {a b : Contexts} :
    (a.union b).Has occasion ↔ a.Has occasion ∨ b.Has occasion := by
  cases occasion <;> simp [Has, union]

theorem intersects_iff {a b : Contexts} :
    a.intersects b = true ↔ ∃ occasion, a.Has occasion ∧ b.Has occasion := by
  constructor
  · intro h
    obtain ⟨_ | _, _ | _⟩ := a <;> obtain ⟨_ | _, _ | _⟩ := b <;>
      first
      | contradiction
      | exact ⟨.appearance, rfl, rfl⟩
      | exact ⟨.filtering, rfl, rfl⟩
  · rintro ⟨_ | _, ha, hb⟩ <;> simp_all [Has, intersects, inter, isEmpty, none]

theorem has_any : Contexts.any.Has occasion := by cases occasion <;> rfl

theorem has_of_parse (h : parse text = .ok contexts) :
    contexts.Has occasion ↔ occasion.IsNamedBy text := by
  rw [Occasion.isNamedBy_iff]
  simp only [parse] at h
  split at h
  · rename_i hword
    cases h
    rw [hword]
    cases occasion <;> simp [Has, appearanceOnly, Occasion.keyword]
  · split at h
    · rename_i hword
      cases h
      rw [hword]
      cases occasion <;> simp [Has, filteringOnly, Occasion.keyword]
    · split at h
      · rename_i hword
        cases h
        rw [Bool.or_eq_true, decide_eq_true_iff, decide_eq_true_iff] at hword
        exact iff_of_true has_any (.inr hword)
      · exact nomatch h

/-- Reading one text after the other adds the occasions that they name. -/
theorem has_of_foldlM {start : Contexts}
    (h : names.foldlM (fun contexts name => (parse name).map contexts.union) start = .ok contexts) :
    contexts.Has occasion ↔ start.Has occasion ∨ ∃ text ∈ names, occasion.IsNamedBy text := by
  induction names generalizing start with
  | nil =>
    cases h
    simp
  | cons text names ih =>
    rw [List.foldlM_cons, bind_eq_ok] at h
    obtain ⟨_, hfirst, h⟩ := h
    obtain ⟨named, hparse, rfl⟩ := map_eq_ok.mp hfirst
    rw [ih h, has_union, has_of_parse hparse]
    simp [or_assoc]

/-- A list names the occasions that one of its texts names, in whatever order and however often. -/
theorem has_of_parseList (h : parseList names = .ok contexts) :
    contexts.Has occasion ↔ ∃ text ∈ names, occasion.IsNamedBy text := by
  rw [has_of_foldlM h]
  cases occasion <;> simp [Has, none]

end Contexts

/-! ### Levels -/

namespace LevelCriterion

theorem parse_level {cs : List Char} {level : Validity} :
    Validity.parse (String.ofList cs) = .ok level ↔ Text.Spells cs level.name := by
  have hspells : Text.keyword (String.ofList cs) = level.name ↔
      Text.Spells (String.ofList cs).toList level.name :=
    Text.keyword_eq_iff (by cases level <;> decide)
  rw [String.toList_ofList] at hspells
  rw [← hspells, Validity.parse]
  generalize Text.keyword (String.ofList cs) = word
  constructor
  · intro h
    split at h
    · rename_i found hfound
      cases h
      exact (beq_iff_eq.mp (List.find?_some
        (p := fun level : Validity => level.name == word) hfound)).symm
    · exact nomatch h
  · rintro rfl
    rw [Validity.ofName?_name]

theorem find_keyword {cs : List Char} {operator : LevelOperator} :
    LevelOperator.all.find? (·.keyword == Text.keyword (String.ofList cs)) = some operator ↔
      Text.Spells cs operator.keyword := by
  have hspells : Text.keyword (String.ofList cs) = operator.keyword ↔
      Text.Spells (String.ofList cs).toList operator.keyword :=
    Text.keyword_eq_iff (by cases operator <;> decide)
  rw [String.toList_ofList] at hspells
  rw [← hspells]
  generalize Text.keyword (String.ofList cs) = word
  constructor
  · intro h
    exact (beq_iff_eq.mp (List.find?_some
      (p := fun operator : LevelOperator => operator.keyword == word) h)).symm
  · rintro rfl
    cases operator <;> decide

theorem span_colon {cs operator level : List Char} {c : Char} :
    cs.span (· != ':') = (operator, c :: level) ↔
      c = ':' ∧ cs = operator ++ ':' :: level ∧ ':' ∉ operator := by
  rw [List.span_eq_takeWhile_dropWhile, Prod.mk.injEq]
  constructor
  · rintro ⟨rfl, hrest⟩
    have hc : (c != ':') = false := by
      have hhead := List.head?_dropWhile_not (· != ':') cs
      rw [hrest] at hhead
      simpa using hhead
    obtain rfl : c = ':' := by simpa using hc
    refine ⟨rfl, ?_, fun hmem => ?_⟩
    · rw [← hrest, List.takeWhile_append_dropWhile]
    · simpa using List.mem_takeWhile_imp hmem
  · rintro ⟨rfl, rfl, hcolon⟩
    have hall : ∀ d ∈ operator, (d != ':') = true := fun d hd => by
      rw [bne_iff_ne]
      rintro rfl
      exact hcolon hd
    rw [List.takeWhile_append_of_pos hall, List.dropWhile_append_of_pos hall]
    simp

theorem parse_eq_ok {text : String} {criterion : LevelCriterion} :
    parse text = .ok criterion ↔ criterion.IsReadFrom text := by
  constructor
  · intro h
    cases hspan : text.toList.span (· != ':') with
    | mk operator rest =>
      cases rest with
      | nil =>
        simp only [parse, hspan] at h
        exact nomatch h
      | cons c level =>
        obtain ⟨rfl, htext, hcolon⟩ := span_colon.mp hspan
        simp only [parse, hspan] at h
        split at h
        · exact nomatch h
        · rename_i found hfound
          obtain ⟨read, hread, rfl⟩ := map_eq_ok.mp h
          exact ⟨operator, level, htext, hcolon, find_keyword.mp hfound, parse_level.mp hread⟩
  · rintro ⟨operator, level, htext, hcolon, hoperator, hlevel⟩
    have hspan : text.toList.span (· != ':') = (operator, ':' :: level) :=
      span_colon.mpr ⟨rfl, htext, hcolon⟩
    simp only [parse, hspan]
    rw [find_keyword.mpr hoperator, parse_level.mpr hlevel]
    rfl

end LevelCriterion

/-! ### Criteria of a group -/

theorem Property.mem_all (property : Property) : property ∈ all := by cases property <;> decide

/-- What a group can say about when its filter matches. -/
inductive Criterion where
  | contexts
  | property (demanded : Property)
  | validity
  | ownerTrust
deriving DecidableEq

/-- Whether a value is a text. A date or time is one as it is written. -/
inductive IsText : Toml.Value → String → Prop
  | string {text : String} : IsText (.string text) text
  | moment {text : String} : IsText (.moment text) text

theorem text?_eq_some {value : Toml.Value} {text : String} :
    text? value = some text ↔ IsText value text := by
  constructor
  · intro h
    cases value
    case string => exact Option.some.inj h ▸ .string
    case moment => exact Option.some.inj h ▸ .moment
    all_goals exact nomatch h
  · rintro (_ | _) <;> rfl

/-- Whether an entry is a text or a list with this text. -/
def Mentions (value : Toml.Value) (text : String) : Prop :=
  IsText value text ∨ ∃ items, value = .array items ∧ ∃ item ∈ items, IsText item text

/-- Whether a level meets what the text of an entry demands. -/
def MeetsLevel (value : Toml.Value) (actual : Validity) : Prop :=
  ∃ text, IsText value text ∧ MeetsText text actual

/-- The name of the entry that makes a demand on a property. -/
def Property.entryName : Property → String
  | revoked => "is-revoked"
  | expired => "is-expired"
  | invalid => "is-invalid"
  | disabled => "is-disabled"
  | root => "is-root-certificate"
  | canEncrypt => "can-encrypt"
  | canSign => "can-sign"
  | canCertify => "can-certify"
  | canAuthenticate => "can-authenticate"
  | qualified => "is-qualified"
  | cardKey => "is-cardkey"
  | hasSecret => "has-secret-key"
  | openPgp => "is-openpgp-key"
  | wasValidated => "was-validated"
  | deVs => "is-de-vs"

namespace Criterion

/-- The name of the entry that a criterion looks at. -/
def entryName : Criterion → String
  | contexts => "match-contexts"
  | property demanded => demanded.entryName
  | validity => "validity"
  | ownerTrust => "ownertrust"

/-- Whether a key, on the occasions on which the filter is asked, meets a criterion of which the
group has this entry, or none. -/
def Met (key : Key) (asked : Contexts) : Criterion → Option Toml.Value → Prop
  | contexts, none => ∃ occasion, asked.Has occasion
  | contexts, some value =>
    ∃ occasion text, asked.Has occasion ∧ Mentions value text ∧ occasion.IsNamedBy text
  | property demanded, entry => ∀ value ∈ entry,
    value = .boolean true ∧ demanded.IsOf key ∨ value = .boolean false ∧ ¬ demanded.IsOf key
  | validity, entry => ∀ value ∈ entry, MeetsLevel value (firstValidity key.userIds)
  | ownerTrust, entry => ∀ value ∈ entry, MeetsLevel value key.ownerTrust

variable {key : Key} {asked : Contexts} {criterion : Criterion}

/-- Without an entry a criterion is met whenever it is met with one. -/
theorem Met.of_some {value : Toml.Value} (h : criterion.Met key asked (some value)) :
    criterion.Met key asked none := by
  cases criterion with
  | contexts =>
    obtain ⟨occasion, _, hasked, -⟩ := h
    exact ⟨occasion, hasked⟩
  | property _ => exact fun _ hnone => nomatch hnone
  | validity => exact fun _ hnone => nomatch hnone
  | ownerTrust => exact fun _ hnone => nomatch hnone

/-- All criteria. -/
def all : List Criterion := contexts :: validity :: ownerTrust :: Property.all.map property

theorem mem_all (criterion : Criterion) : criterion ∈ all := by
  cases criterion with
  | property demanded => cases demanded <;> decide
  | _ => decide

/-- No two criteria look at the same entry. -/
theorem entryName_injective {a b : Criterion} (h : a.entryName = b.entryName) : a = b :=
  List.inj_on_of_nodup_map (f := entryName) (by decide +kernel) (mem_all a) (mem_all b) h

theorem entryName_ne_id (criterion : Criterion) : criterion.entryName ≠ "id" := by
  cases criterion with
  | property demanded => cases demanded <;> decide
  | _ => decide

/-- The kind of value that the entry of a criterion has to have. -/
theorem kindOf?_entryName (criterion : Criterion) : kindOf? criterion.entryName =
    some (match criterion with
      | contexts => .contexts
      | property _ => .boolean
      | _ => .text) := by
  cases criterion with
  | property demanded => cases demanded <;> decide +kernel
  | _ => decide +kernel

end Criterion

namespace Config.FilterGroup

variable {group : FilterGroup} {filter : KeyFilter} {key : Key} {asked : Contexts} {name : String}
  {value : Toml.Value} {kind : EntryKind}

theorem check_eq_ok : group.check = .ok () ↔ ∀ entry ∈ group.entries, ∀ kind,
    kindOf? entry.1 = some kind → kind.check entry.2 = .ok () := by
  rw [check, forM_eq_ok]
  refine forall₂_congr fun entry _ => ?_
  cases hkind : kindOf? entry.1 <;> simp [hkind]

theorem check_of_get? (hcheck : group.check = .ok ()) (hkind : kindOf? name = some kind)
    (hvalue : group.entries.get? name = some value) : kind.check value = .ok () := by
  obtain ⟨entry, hfind, rfl⟩ := Option.map_eq_some_iff.mp hvalue
  obtain rfl : entry.1 = name := by simpa using List.find?_some hfind
  exact check_eq_ok.mp hcheck entry (List.mem_of_find?_eq_some hfind) kind hkind

/-- A group with an identity whose entries can be read. -/
structure Readable (group : FilterGroup) (contexts : Contexts)
    (validity ownerTrust : Option LevelCriterion) : Prop where
  checked : group.check = .ok ()
  named : (Text.trim (group.values.id.getD "")).isEmpty = false
  contexts_eq : FilterEntries.contexts group.values.matchContexts = .ok contexts
  validity_eq : FilterEntries.level group.values.validity = .ok validity
  ownerTrust_eq : FilterEntries.level group.values.ownerTrust = .ok ownerTrust

theorem readable_of_build (h : group.build = .ok filter) : ∃ validity ownerTrust,
    group.Readable filter.contexts validity ownerTrust ∧
      filter.rule = .criteria (group.values.criteria validity ownerTrust) := by
  simp only [build, decode, bind_eq_ok, map_eq_ok] at h
  obtain ⟨_, ⟨⟨⟩, hcheck, rfl⟩, h⟩ := h
  split at h
  · exact nomatch h
  · rename_i hid
    simp only [bind_eq_ok, mapError_eq_ok] at h
    obtain ⟨contexts, hcontexts, validity, hvalidity, ownerTrust, hownerTrust, hfilter⟩ := h
    cases hfilter
    exact ⟨validity, ownerTrust,
      ⟨hcheck, by simpa using hid, hcontexts, hvalidity, hownerTrust⟩, rfl⟩

theorem Readable.exists_build {contexts : Contexts} {validity ownerTrust : Option LevelCriterion}
    (h : group.Readable contexts validity ownerTrust) : ∃ filter, group.build = .ok filter := by
  rw [build, decode, h.checked, Except.map]
  simp only [bind, Except.bind, h.named, h.contexts_eq, h.validity_eq, h.ownerTrust_eq]
  exact ⟨_, rfl⟩

/-! ### What an entry says -/

theorem decodeText_eq_ok {text : String} :
    decodeText value = .ok text ↔ IsText value text := by
  rw [decodeText, ← text?_eq_some]
  cases text? value <;> simp

theorem exists_text (h : EntryKind.check value .text = .ok ()) :
    ∃ text, IsText value text := by
  rw [EntryKind.check, mapError_eq_ok, map_eq_ok] at h
  obtain ⟨text, htext, -⟩ := h
  exact ⟨text, decodeText_eq_ok.mp htext⟩

theorem exists_boolean (h : EntryKind.check value .boolean = .ok ()) : ∃ b, value = .boolean b := by
  rw [EntryKind.check, mapError_eq_ok, map_eq_ok] at h
  obtain ⟨b, hb, -⟩ := h
  cases value with
  | boolean b => exact ⟨b, rfl⟩
  | _ => exact nomatch hb

theorem mem_mapM_text? {items : List Toml.Value} {texts : List String}
    (h : items.mapM text? = some texts) {text : String} :
    text ∈ texts ↔ ∃ item ∈ items, IsText item text := by
  simp only [← text?_eq_some]
  induction items generalizing texts with
  | nil =>
    cases h
    simp
  | cons item items ih =>
    rw [List.mapM_cons] at h
    obtain ⟨first, hfirst, h⟩ := Option.bind_eq_some_iff.mp h
    obtain ⟨rest, hrest, h⟩ := Option.bind_eq_some_iff.mp h
    cases h
    rw [List.mem_cons, ih hrest]
    simp [hfirst, eq_comm]

/-- The texts that an entry has been found to hold. -/
theorem mentions_iff {names : String ⊕ List String} (h : decodeTexts value = .ok names)
    {text : String} : Mentions value text ↔ text ∈ names.elim ([·]) id := by
  rw [decodeTexts.eq_def] at h
  split at h
  · split at h
    · rename_i texts htexts
      cases h
      have hnone {items : List Toml.Value} : ¬ IsText (.array items) text := nofun
      simp [Mentions, hnone, mem_mapM_text? htexts]
    · exact nomatch h
  · rename_i hnoArray
    split at h
    · rename_i found hfound
      cases h
      have hnone : ¬ ∃ items, value = .array items ∧ ∃ item ∈ items, IsText item text :=
        fun ⟨items, heq, _⟩ => hnoArray items heq
      rw [Mentions, or_iff_left hnone, ← text?_eq_some, hfound]
      simp [eq_comm]
    · exact nomatch h

theorem level_iff (hcheck : group.check = .ok ()) (hkind : kindOf? name = some .text)
    {demand : Option LevelCriterion}
    (hdemand : FilterEntries.level (group.value? name decodeText) = .ok demand)
    (actual : Validity) : (∀ criterion ∈ demand, criterion.accepts actual = true) ↔
      ∀ value ∈ group.entries.get? name, MeetsLevel value actual := by
  rw [value?] at hdemand
  cases hvalue : group.entries.get? name with
  | none =>
    rw [hvalue] at hdemand
    cases hdemand
    simp
  | some value =>
    obtain ⟨text, htext⟩ := exists_text (check_of_get? hcheck hkind hvalue)
    rw [hvalue, Option.bind_some, decodeText_eq_ok.mpr htext] at hdemand
    obtain ⟨criterion, hparse, rfl⟩ := map_eq_ok.mp hdemand
    constructor
    · rintro haccepts _ ⟨⟩
      exact ⟨text, htext, meetsText_iff.mpr
        ⟨criterion, LevelCriterion.parse_eq_ok.mp hparse, haccepts criterion rfl⟩⟩
    · rintro h _ ⟨⟩
      obtain ⟨other, hother, hmeets⟩ := h value rfl
      obtain rfl : text = other := Option.some.inj
        ((text?_eq_some.mpr htext).symm.trans (text?_eq_some.mpr hother))
      obtain ⟨read, hread, haccepts⟩ := meetsText_iff.mp hmeets
      rw [LevelCriterion.parse_eq_ok.mpr hread] at hparse
      cases hparse
      exact haccepts

/-- The demand on a property is that of the entry of its name. -/
theorem demandOn_criteria (validity ownerTrust : Option LevelCriterion) (property : Property) :
    (group.values.criteria validity ownerTrust).demandOn property =
      .ofEntry (group.value? property.entryName decodeBoolean) := by
  cases property <;> rfl

theorem property_iff (key : Key) (asked : Contexts) (hcheck : group.check = .ok ())
    (property : Property) :
    (Demand.ofEntry (group.value? property.entryName decodeBoolean)).Met (property.IsOf key) ↔
      (Criterion.property property).Met key asked (group.entries.get? property.entryName) := by
  rw [value?]
  cases hvalue : group.entries.get? property.entryName with
  | none => simp [Criterion.Met, Demand.ofEntry, Demand.Met]
  | some value =>
    have hkind := Criterion.kindOf?_entryName (.property property)
    obtain ⟨required, rfl⟩ := exists_boolean (check_of_get? hcheck hkind hvalue)
    cases required <;>
      simp [Criterion.Met, Demand.ofEntry, Demand.ofBool, Demand.Met, decodeBoolean, boolean?,
        Except.toOption]

theorem contexts_intersects_iff (key : Key) (asked : Contexts)
    (hcheck : group.check = .ok ()) {contexts : Contexts}
    (hcontexts : FilterEntries.contexts (group.value? "match-contexts" decodeTexts) = .ok contexts) :
    contexts.intersects asked = true ↔
      Criterion.contexts.Met key asked (group.entries.get? "match-contexts") := by
  rw [Contexts.intersects_iff]
  rw [value?] at hcontexts
  cases hvalue : group.entries.get? "match-contexts" with
  | none =>
    rw [hvalue] at hcontexts
    cases hcontexts
    simp [Criterion.Met, Contexts.has_any]
  | some value =>
    have hkind := check_of_get? hcheck (Criterion.kindOf?_entryName .contexts) hvalue
    rw [EntryKind.check, mapError_eq_ok, map_eq_ok] at hkind
    obtain ⟨names, hnames, -⟩ := hkind
    simp only [hvalue, Option.bind_some, hnames, Except.toOption] at hcontexts
    have hhas (occasion : Occasion) : contexts.Has occasion ↔
        ∃ text ∈ names.elim ([·]) id, occasion.IsNamedBy text := by
      cases names with
      | inl text =>
        rw [FilterEntries.contexts] at hcontexts
        rw [Contexts.has_of_parse hcontexts]
        simp
      | inr texts =>
        rw [FilterEntries.contexts] at hcontexts
        exact Contexts.has_of_parseList hcontexts
    simp only [hhas, Criterion.Met, mentions_iff hnames]
    constructor
    · rintro ⟨occasion, ⟨text, htext, hnamed⟩, hasked⟩
      exact ⟨occasion, text, hasked, htext, hnamed⟩
    · rintro ⟨occasion, text, hasked, htext, hnamed⟩
      exact ⟨occasion, ⟨text, htext, hnamed⟩, hasked⟩

/-- The filter of a group matches the keys that meet every criterion. -/
theorem accepts_iff (h : group.build = .ok filter) : filter.accepts key asked = true ↔
    ∀ criterion : Criterion, criterion.Met key asked (group.entries.get? criterion.entryName) := by
  obtain ⟨validity, ownerTrust, hread, hrule⟩ := readable_of_build h
  have hvalidity := level_iff hread.checked (Criterion.kindOf?_entryName .validity)
    hread.validity_eq (firstValidity key.userIds)
  have hownerTrust := level_iff hread.checked (Criterion.kindOf?_entryName .ownerTrust)
    hread.ownerTrust_eq key.ownerTrust
  have hproperties (property : Property) :
      ((group.values.criteria validity ownerTrust).demandOn property).Met (property.IsOf key) ↔
        (Criterion.property property).Met key asked (group.entries.get? property.entryName) := by
    rw [demandOn_criteria]
    exact property_iff key asked hread.checked property
  rw [KeyFilter.accepts, hrule, Rule.holds, Bool.and_eq_true, Criteria.holds_iff,
    contexts_intersects_iff key asked hread.checked hread.contexts_eq, forall_congr' hproperties]
  constructor
  · rintro ⟨hcontexts, hmet, hlevel, htrust⟩ criterion
    cases criterion with
    | contexts => exact hcontexts
    | property demanded => exact hmet demanded
    | validity => exact hvalidity.mp hlevel
    | ownerTrust => exact hownerTrust.mp htrust
  · intro h
    exact ⟨h .contexts, fun demanded => h (.property demanded), hvalidity.mpr (h .validity),
      hownerTrust.mpr (h .ownerTrust)⟩

/-! ### Entries that come and go -/

variable {other : FilterGroup} {front back : Toml.Table}

theorem value?_congr {ε α : Type} (decode : Toml.Value → Except ε α)
    (h : group.entries.get? name = other.entries.get? name) :
    group.value? name decode = other.value? name decode := by
  rw [value?, value?, h]

/-- A group is built from its known entries alone. -/
theorem build_congr (hcheck : group.check = other.check)
    (hentries : ∀ name, (kindOf? name).isSome →
      group.entries.get? name = other.entries.get? name) : group.build = other.build := by
  have hvalue (name : String) (hname : (kindOf? name).isSome) {ε α : Type}
      (decode : Toml.Value → Except ε α) : group.value? name decode = other.value? name decode :=
    value?_congr decode (hentries name hname)
  have hvalues : group.values = other.values := by
    simp (disch := decide +kernel) only [values, hvalue]
  rw [build, build, decode, decode, hcheck, hvalues]

theorem get?_insert {wanted : String} (h : name ≠ wanted) :
    Toml.Table.get? (front ++ (name, value) :: back) wanted =
      Toml.Table.get? (front ++ back) wanted := by
  simp [Toml.Table.get?, List.find?_append, h]

theorem get?_eq_none (h : ∀ entry ∈ back, entry.1 ≠ name) : Toml.Table.get? back name = none := by
  simpa [Toml.Table.get?] using h

section Insert

variable (hgroup : group.entries = front ++ (name, value) :: back)
  (hother : other.entries = front ++ back)
include hgroup hother

theorem get?_eq_of_ne {wanted : String} (h : name ≠ wanted) :
    group.entries.get? wanted = other.entries.get? wanted := by
  rw [hgroup, hother, get?_insert h]

/-- An entry of an unknown name changes nothing. -/
theorem build_insert_unknown (hunknown : kindOf? name = none) : group.build = other.build := by
  refine build_congr ?_ fun known hknown => ?_
  · rw [check, check, hgroup, hother]
    exact forM_insert (by simp only [hunknown]) front back
  · refine get?_eq_of_ne hgroup hother ?_
    rintro rfl
    rw [hunknown] at hknown
    contradiction

variable (hfresh : ∀ entry ∈ other.entries, entry.1 ≠ name)
include hfresh

/-- If a group can be read, it can be read without an entry that does not give its identity. -/
theorem Readable.of_insert {contexts : Contexts} {validity ownerTrust : Option LevelCriterion}
    (h : group.Readable contexts validity ownerTrust) (hid : name ≠ "id") :
    ∃ contexts validity ownerTrust, other.Readable contexts validity ownerTrust := by
  have hnone : other.entries.get? name = none := get?_eq_none hfresh
  have hlevel {wanted : String} {demand : Option LevelCriterion}
      (hdemand : FilterEntries.level (group.value? wanted decodeText) = .ok demand) :
      ∃ demand, FilterEntries.level (other.value? wanted decodeText) = .ok demand := by
    by_cases hne : name = wanted
    · subst hne
      exact ⟨none, by rw [value?, hnone]; rfl⟩
    · rw [value?_congr decodeText (get?_eq_of_ne hgroup hother hne)] at hdemand
      exact ⟨demand, hdemand⟩
  have hcontexts : ∃ contexts,
      FilterEntries.contexts (other.value? "match-contexts" decodeTexts) = .ok contexts := by
    by_cases hne : name = "match-contexts"
    · exact ⟨.any, by rw [value?, ← hne, hnone]; rfl⟩
    · rw [← value?_congr decodeTexts (get?_eq_of_ne hgroup hother hne)]
      exact ⟨contexts, h.contexts_eq⟩
  have hchecked : other.check = .ok () := by
    refine check_eq_ok.mpr fun entry hentry => check_eq_ok.mp h.checked entry ?_
    rw [hother] at hentry
    rw [hgroup]
    exact ((List.sublist_cons_self _ _).append_left front).subset hentry
  obtain ⟨contexts, hcontexts⟩ := hcontexts
  obtain ⟨validity, hvalidity⟩ := hlevel h.validity_eq
  obtain ⟨ownerTrust, hownerTrust⟩ := hlevel h.ownerTrust_eq
  have hnamed : group.values.id = other.values.id :=
    value?_congr decodeText (get?_eq_of_ne hgroup hother hid)
  exact ⟨contexts, validity, ownerTrust, hchecked, hnamed ▸ h.named, hcontexts, hvalidity,
    hownerTrust⟩

/-- A filter matches no key that it would not match without one of its criteria. -/
theorem accepts_of_insert {filter' : KeyFilter} (h : group.build = .ok filter)
    (h' : other.build = .ok filter') (haccepts : filter.accepts key asked = true) :
    filter'.accepts key asked = true := by
  rw [accepts_iff h] at haccepts
  refine (accepts_iff h').mpr fun criterion => ?_
  by_cases hne : name = criterion.entryName
  · rw [← hne, get?_eq_none hfresh]
    cases hentry : group.entries.get? criterion.entryName with
    | none => exact hentry ▸ haccepts criterion
    | some value => exact (hentry ▸ haccepts criterion).of_some
  · rw [← get?_eq_of_ne hgroup hother hne]
    exact haccepts criterion

end Insert

/-- The names of the entries that say what a filter is called and how it styles rows. -/
def describingNames : List String :=
  ["id", "name", "icon", "specificity", "foreground-color", "background-color", "font", "font-bold",
    "font-italic", "font-strikeout"]

/-- Known are only entries that describe the filter and criteria. -/
theorem kindOf?_eq_none (hdescribes : name ∉ describingNames)
    (hcriterion : ∀ criterion : Criterion, criterion.entryName ≠ name) : kindOf? name = none := by
  have hknown : knownEntries.map (·.1) ⊆ describingNames ++ Criterion.all.map (·.entryName) := by
    decide +kernel
  rw [kindOf?, Option.map_eq_none_iff, List.find?_eq_none]
  rintro entry hentry heq
  obtain rfl : entry.1 = name := beq_iff_eq.mp heq
  rcases List.mem_append.mp (hknown (List.mem_map_of_mem hentry)) with hmem | hmem
  · exact hdescribes hmem
  · obtain ⟨criterion, -, hname⟩ := List.mem_map.mp hmem
    exact hcriterion criterion hname

/-- What the entries of a group mean for the keys that its filter matches. -/
structure Means (group : FilterGroup) : Prop where
  /-- A key is matched if it meets every criterion, each as the entry of its name says. -/
  accepts_iff : ∀ filter, group.build = .ok filter → ∀ key asked, filter.accepts key asked = true ↔
    ∀ criterion : Criterion, criterion.Met key asked (group.entries.get? criterion.entryName)
  /-- Another entry for a criterion makes no difference to keys for which it decides the same about
  that criterion. -/
  alone : ∀ (other : FilterGroup) (filter filter' : KeyFilter), group.build = .ok filter →
    other.build = .ok filter' → ∀ criterion : Criterion, (∀ name, name ≠ criterion.entryName →
      group.entries.get? name = other.entries.get? name) →
    ∀ key asked, (criterion.Met key asked (group.entries.get? criterion.entryName) ↔
      criterion.Met key asked (other.entries.get? criterion.entryName)) →
    filter.accepts key asked = filter'.accepts key asked
  /-- Entries of unknown names do not matter, not even to whether the group can be built. -/
  unknown : ∀ front name value back, group.entries = front ++ (name, value) :: back →
    name ∉ describingNames → (∀ criterion : Criterion, criterion.entryName ≠ name) →
    group.build = { group with entries := front ++ back }.build
  /-- A key that is matched with a criterion is matched without it. -/
  added : ∀ filter front (criterion : Criterion) value back, group.build = .ok filter →
    group.entries = front ++ (criterion.entryName, value) :: back →
    (∀ entry ∈ front ++ back, entry.1 ≠ criterion.entryName) →
    ∃ without, { group with entries := front ++ back }.build = .ok without ∧
      ∀ key asked, filter.accepts key asked = true → without.accepts key asked = true

/-- Whatever entries a group has: if its filter can be built, a key is matched if it has the named
properties that are asked for and none that are excluded, if its first user ID and its owner are as
valid as is demanded, and if the filter is asked on an occasion that is named. -/
theorem build_means (group : FilterGroup) : group.Means where
  accepts_iff _ h _ _ := accepts_iff h
  alone other filter filter' h h' criterion hsame key asked hmet := by
    rw [Bool.eq_iff_iff, accepts_iff h, accepts_iff h']
    refine forall_congr' fun c => ?_
    by_cases hc : c = criterion
    · rw [hc]
      exact hmet
    · rw [hsame c.entryName fun hname => hc (Criterion.entryName_injective hname)]
  unknown _ _ _ _ hgroup hdescribes hcriterion :=
    build_insert_unknown hgroup rfl (kindOf?_eq_none hdescribes hcriterion)
  added filter front criterion value back h hgroup hfresh := by
    have hother : { group with entries := front ++ back }.entries = front ++ back := rfl
    obtain ⟨_, _, hread, -⟩ := readable_of_build h
    obtain ⟨_, _, _, hread⟩ := hread.of_insert hgroup hother hfresh criterion.entryName_ne_id
    obtain ⟨without, hwithout⟩ := hread.exists_build
    exact ⟨without, hwithout, fun key asked => accepts_of_insert hgroup hother hfresh h hwithout⟩

/-- A group that asks for keys that are not revoked and not trusted. -/
theorem build_means_untrusted :
    let group : FilterGroup := ⟨"Key Filter #1", [("id", .string "untrusted"),
      ("is-revoked", .boolean false), ("match-contexts", .array [.string "Filtering"]),
      ("validity", .string "is-at-most: never")]⟩
    ∃ filter, group.build = .ok filter ∧ ∀ key asked, filter.accepts key asked = true ↔
      ∀ criterion : Criterion,
        criterion.Met key asked (group.entries.get? criterion.entryName) := by
  intro group
  have hbuilds : group.build.toOption.isSome = true := by decide +kernel
  obtain ⟨filter, hfilter⟩ : ∃ filter, group.build = .ok filter := by
    cases hbuild : group.build with
    | ok filter => exact ⟨filter, rfl⟩
    | error error =>
      rw [hbuild] at hbuilds
      exact nomatch hbuilds
  exact ⟨filter, hfilter, (build_means group).accepts_iff filter hfilter⟩

end Config.FilterGroup

end KeyForest
