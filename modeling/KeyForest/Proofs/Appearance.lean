import KeyForest.Proofs.Criteria
import KeyForest.Proofs.Ranking

/-!
# How rows are styled

The filters that style a key form one chain. A decoration of the font is there if some filter of the
chain has it, and every other attribute is that of the first filter of the chain that defines it
(`Ranking.Styled`). Filters that are not meant for styling have no part in it, and under VS-NfD the
background does not depend on anything that is configured (`Ranking.reload_styled`).
-/
namespace KeyForest

/-! ### Fonts -/

namespace Font

variable {fonts : List Font}

theorem resolve_assoc (a b c : Font) : (a.resolve b).resolve c = a.resolve (b.resolve c) := by
  have hfamily : ((a.family <|> b.family) <|> c.family) =
      (a.family <|> (b.family <|> c.family)) := by cases a.family <;> rfl
  simp only [resolve, Bool.or_assoc, hfamily]

theorem plain_resolve (a : Font) : plain.resolve a = a := rfl

theorem resolve_plain (a : Font) : a.resolve plain = a := by
  have hfamily : (a.family <|> none) = a.family := by cases a.family <;> rfl
  simp only [resolve, plain, Bool.or_false, hfamily]

/-- The decorations of all fonts of a list, the first of them first. -/
def combine (fonts : List Font) : Font := fonts.foldl resolve plain

theorem foldl_resolve (font : Font) (fonts : List Font) :
    fonts.foldl resolve font = font.resolve (combine fonts) := by
  induction fonts generalizing font with
  | nil => exact (resolve_plain font).symm
  | cons other fonts ih =>
    have hother : combine (other :: fonts) = other.resolve (combine fonts) := ih other
    rw [List.foldl_cons, ih, resolve_assoc, hother]

theorem combine_cons (font : Font) (fonts : List Font) :
    combine (font :: fonts) = font.resolve (combine fonts) := foldl_resolve font fonts

theorem combine_append (fonts more : List Font) :
    combine (fonts ++ more) = (combine fonts).resolve (combine more) := by
  rw [combine, List.foldl_append, foldl_resolve, ← combine]

/-- Fonts may be combined group by group. -/
theorem combine_flatten (groups : List (List Font)) :
    combine groups.flatten = combine (groups.map combine) := by
  induction groups with
  | nil => rfl
  | cons group groups ih => rw [List.flatten_cons, combine_append, ih, List.map_cons, combine_cons]

/-- What a font has or has not. -/
inductive Flag where
  | bold
  | italic
  | strikeout
deriving DecidableEq, Repr

def has (font : Font) : Flag → Bool
  | .bold => font.bold
  | .italic => font.italic
  | .strikeout => font.strikeout

theorem has_resolve (a b : Font) (flag : Flag) :
    (a.resolve b).has flag = (a.has flag || b.has flag) := by
  cases flag <;> rfl

theorem has_combine (flag : Flag) :
    (combine fonts).has flag = true ↔ ∃ font ∈ fonts, font.has flag = true := by
  induction fonts with
  | nil => cases flag <;> simp [combine, plain, has]
  | cons font fonts ih => simp [combine_cons, has_resolve, ih]

theorem family_combine (fonts : List Font) :
    (combine fonts).family = fonts.findSome? (·.family) := by
  induction fonts with
  | nil => rfl
  | cons font fonts ih =>
    rw [combine_cons, List.findSome?_cons, resolve, ih]
    cases font.family <;> rfl

end Font

/-- Whether all user IDs of a key are fully valid, and all its subkeys in use are approved. -/
def Key.IsFit (key : Key) : Prop :=
  (∀ uid ∈ key.userIds, uid.validity = .full ∨ uid.validity = .ultimate) ∧
    ∀ sub ∈ key.subkeys, sub.expired = false → sub.revoked = false → sub.deVs = true

/-! ### First values of a chain -/

section Chain

variable {α β : Type} {chain : List α} {trait : α → Option β} {answer : Option β}

/-- Whether an answer is the value of the first element of a chain that defines it, and none if
no element does. -/
inductive FirstDefined (chain : List α) (trait : α → Option β) : Option β → Prop
  | nothing : (∀ x ∈ chain, trait x = none) → FirstDefined chain trait none
  | value {front back : List α} {x : α} {b : β} : chain = front ++ x :: back →
      (∀ y ∈ front, trait y = none) → trait x = some b →
      FirstDefined chain trait (some b)

theorem firstDefined_iff :
    FirstDefined chain trait answer ↔ answer = chain.findSome? trait := by
  constructor
  · rintro (hnone | ⟨hchain, hfront, hx⟩)
    · exact (List.findSome?_eq_none_iff.mpr hnone).symm
    · exact (List.findSome?_eq_some_iff.mpr ⟨_, _, _, hchain, hx, hfront⟩).symm
  · rintro rfl
    cases hfind : chain.findSome? trait with
    | none => exact .nothing (List.findSome?_eq_none_iff.mp hfind)
    | some b =>
      obtain ⟨_, _, _, hchain, hx, hfront⟩ := List.findSome?_eq_some_iff.mp hfind
      exact .value hchain hfront hx

end Chain

namespace Ranking

open KeyFilter

variable {compliance : Compliance} {ranking other : Ranking} {key : Key}

/-- Whether the appearance of a key is made of the decorations of these filters, the first of which
have the first say. -/
structure Styled (ranking : Ranking) (key : Key) (chain : List KeyFilter) : Prop where
  flags : ∀ flag, (ranking.font key).has flag = true ↔
    ∃ filter ∈ chain, filter.font.has flag = true
  family : FirstDefined chain (·.font.family) (ranking.font key).family
  foreground : FirstDefined chain (·.foreground) (ranking.foreground key)
  background : FirstDefined chain (·.background) (ranking.background key)
  icon : FirstDefined chain (·.icon) (ranking.icon key)

theorem font_eq_combine (ranking : Ranking) (key : Key) :
    ranking.font key = Font.combine ((ranking.styling key).map (·.font)) := by
  rw [font, Font.combine, List.foldl_map]

theorem styled_styling (ranking : Ranking) (key : Key) :
    ranking.Styled key (ranking.styling key) where
  flags flag := by
    rw [font_eq_combine, Font.has_combine]
    simp
  family := by
    rw [firstDefined_iff, font_eq_combine, Font.family_combine, List.findSome?_map]
    rfl
  foreground := firstDefined_iff.mpr rfl
  background := firstDefined_iff.mpr rfl
  icon := firstDefined_iff.mpr rfl

/-! ### Filters that are not meant for styling -/

/-- Whether all questions about the appearance of a key have the same answers. -/
structure SameLook (ranking other : Ranking) (key : Key) : Prop where
  font : ranking.font key = other.font key
  foreground : ranking.foreground key = other.foreground key
  background : ranking.background key = other.background key
  icon : ranking.icon key = other.icon key

theorem SameLook.of_styling (h : ranking.styling key = other.styling key) :
    SameLook ranking other key := by
  refine ⟨?_, ?_, ?_, ?_⟩
  · rw [Ranking.font, Ranking.font, h]
  · rw [Ranking.foreground, Ranking.foreground, h]
  · rw [Ranking.background, Ranking.background, h]
  · rw [Ranking.icon, Ranking.icon, h]

theorem accepts_appearanceOnly (filter : KeyFilter) (key : Key) :
    filter.accepts key .appearanceOnly = (filter.contexts.appearance && filter.rule.holds key) := by
  rw [accepts]
  refine congrArg (· && _) ?_
  obtain ⟨_ | _, _ | _⟩ := filter.contexts <;> rfl

/-- A key is styled by those filters meant for styling whose rule it satisfies. -/
theorem styling_eq (ranking : Ranking) (key : Key) : ranking.styling key =
    ((ranking.appearanceFilters ++ ranking.filters).filter (·.contexts.appearance)).filter
      (·.rule.holds key) := by
  rw [styling, List.filter_filter]
  refine List.filter_congr fun filter _ => ?_
  rw [accepts_appearanceOnly, Bool.and_comm]

/-- Sorting and leaving filters out can be done in either order. -/
theorem filter_sort (p : KeyFilter → Bool) (given : List KeyFilter) :
    (sort given).filter p = sort (given.filter p) := by
  have h := ranked_sort given
  refine Ranked.iff_eq_sort.mp ⟨h.perm.filter p, h.descends.filter p, fun n => ?_⟩
  rw [List.filter_comm, h.level_eq, List.filter_comm]

theorem reload_eq_load (compliance : Compliance) (history : List (List Config.FilterGroup))
    (groups : List Config.FilterGroup) :
    (afterReloads compliance history).reload groups = load compliance groups := by
  rw [reload, compliance_afterReloads]

theorem styling_load (compliance : Compliance) (groups : List Config.FilterGroup) (key : Key) :
    (load compliance groups).1.styling key =
      (appearanceBuiltins compliance ++ (load compliance groups).1.filters).filter
        (·.accepts key .appearanceOnly) := rfl

/-- Filters that are not meant for styling may as well be others. -/
theorem sameLook_of_filter (h : (ranking.appearanceFilters ++ ranking.filters).filter
    (·.contexts.appearance) = (other.appearanceFilters ++ other.filters).filter
      (·.contexts.appearance)) : SameLook ranking other key := by
  refine .of_styling ?_
  rw [styling_eq, styling_eq, h]

/-- Groups that describe the same filters meant for styling make rows look the same. -/
theorem sameLook_load {groups groups' : List Config.FilterGroup} (key : Key)
    (h : (KeyFilter.given compliance groups).filter (·.contexts.appearance) =
      (KeyFilter.given compliance groups').filter (·.contexts.appearance)) :
    SameLook (load compliance groups).1 (load compliance groups').1 key := by
  refine sameLook_of_filter ?_
  rw [filters_load, filters_load, List.filter_append, filter_sort, h, ← filter_sort,
    ← List.filter_append]
  rfl

/-! ### The background under VS-NfD -/

theorem isFit_iff {key : Key} : key.IsFit ↔ (key.hasFullValidity && key.isDeVs) = true := by
  rw [Key.IsFit, Bool.and_eq_true, Key.hasFullValidity_iff, Key.isDeVs_iff, Property.IsOf]

/-- Either of the built-in filters for appearance matches, and the first say is theirs. -/
theorem background_deVs (ranking : Ranking) (key : Key)
    (h : ranking.appearanceFilters = [deVsValidAppearance, deVsNotValidAppearance]) :
    ranking.background key =
      some (if key.hasFullValidity && key.isDeVs then positiveBackground
        else negativeBackground) := by
  have hvalid : deVsValidAppearance.accepts key .appearanceOnly =
      (key.hasFullValidity && key.isDeVs) := accepts_appearanceOnly _ key
  have hnotValid : deVsNotValidAppearance.accepts key .appearanceOnly =
      !(key.hasFullValidity && key.isDeVs) := by
    rw [accepts_appearanceOnly, Bool.not_and]
    rfl
  rw [background, styling, h, List.cons_append, List.cons_append, List.filter_cons, hvalid,
    List.filter_cons, hnotValid]
  cases key.hasFullValidity && key.isDeVs <;> rfl

/-- Whatever a ranking was loaded with before, when it is loaded with groups it styles a key by one
chain of filters. Fonts are combined in any grouping. Filters that are not meant for styling might
as well be others, be they in the ranking or among those it was loaded with. Under VS-NfD the
background tells which keys are fit, whatever is configured. -/
theorem reload_styled (compliance : Compliance) (history : List (List Config.FilterGroup))
    (groups : List Config.FilterGroup) (key : Key) :
    let ranking := ((afterReloads compliance history).reload groups).1
    let chain := (appearanceBuiltins compliance ++ ranking.filters).filter
      (·.accepts key .appearanceOnly)
    ranking.Styled key chain ∧
    (∀ a b c : Font, (a.resolve b).resolve c = a.resolve (b.resolve c) ∧
      Font.plain.resolve a = a ∧ a.resolve .plain = a) ∧
    (∀ parts : List (List KeyFilter), parts.flatten = chain → ranking.font key =
      Font.combine (parts.map fun part => Font.combine (part.map (·.font)))) ∧
    (∀ other : Ranking, (ranking.appearanceFilters ++ ranking.filters).filter
      (·.contexts.appearance) = (other.appearanceFilters ++ other.filters).filter
        (·.contexts.appearance) → SameLook ranking other key) ∧
    (∀ groups', (KeyFilter.given compliance groups).filter (·.contexts.appearance) =
      (KeyFilter.given compliance groups').filter (·.contexts.appearance) →
        SameLook ranking ((afterReloads compliance history).reload groups').1 key) ∧
    (compliance = .deVs → (ranking.background key = some positiveBackground ↔ key.IsFit) ∧
      (ranking.background key = some negativeBackground ↔ ¬ key.IsFit)) := by
  rw [reload_eq_load]
  intro ranking chain
  have hchain : ranking.styling key = chain := styling_load compliance groups key
  refine ⟨hchain ▸ styled_styling ranking key,
    fun a b c => ⟨Font.resolve_assoc a b c, Font.plain_resolve a, Font.resolve_plain a⟩,
    fun parts hparts => ?_, fun _ => sameLook_of_filter, fun groups' hgroups => ?_, ?_⟩
  · rw [font_eq_combine, hchain, ← hparts, List.map_flatten, Font.combine_flatten, List.map_map]
    rfl
  · rw [reload_eq_load]
    exact sameLook_load key hgroups
  · rintro rfl
    rw [background_deVs ranking key rfl, isFit_iff]
    cases key.hasFullValidity && key.isDeVs <;> decide

/-- A group that asks for a background of its own, and one that is not meant for styling. -/
theorem reload_styled_fit :
    let loud : Config.FilterGroup := ⟨"Key Filter #1", [("background-color", .string "#FF0000"),
      ("id", .string "loud"), ("specificity", .integer 4294967295)]⟩
    let quiet : Config.FilterGroup := ⟨"Key Filter #2", [("font-strikeout", .boolean true),
      ("id", .string "quiet"), ("match-contexts", .string "filtering")]⟩
    let key := (Key.ofFingerprint (.ofText "A")).withUserId "a@example.org" .full
    let ranking := ((afterReloads .deVs []).reload [loud, quiet]).1
    ((KeyFilter.given .deVs [loud, quiet]).filter (·.contexts.appearance) =
      (KeyFilter.given .deVs [loud]).filter (·.contexts.appearance) ∧
      SameLook ranking ((afterReloads .deVs []).reload [loud]).1 key) ∧
    key.IsFit ∧ ranking.background key = some positiveBackground := by
  intro loud quiet key ranking
  obtain ⟨-, -, -, -, hgroups, hbackground⟩ := reload_styled .deVs [] [loud, quiet] key
  have hgiven : (KeyFilter.given .deVs [loud, quiet]).filter (·.contexts.appearance) =
      (KeyFilter.given .deVs [loud]).filter (·.contexts.appearance) := by decide +kernel
  have hfit : key.IsFit := isFit_iff.mpr (by decide +kernel)
  exact ⟨⟨hgiven, hgroups [loud] hgiven⟩, hfit, (hbackground rfl).1.mpr hfit⟩

end Ranking

end KeyForest
