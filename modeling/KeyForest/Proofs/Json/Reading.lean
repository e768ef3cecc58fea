import KeyForest.Json.Reader
import KeyForest.Proofs.Json.Lexing

/-!
# Reading written values

Wherever a value may begin, its lexemes are read as the value, and the frames around it stay as they
are (`Readable`). So a written value is read again as the value itself (`parse_render`).
-/
namespace KeyForest.Json

open Builder

variable {value item : Json} {items : List Json} {member : Option String × Json}
  {members : List (Option String × Json)} {expect : Expect}

/-- A value may come next. -/
inductive Begins : Expect → Prop
  | value : Begins .value
  | firstItem : Begins .firstItem

/-- Wherever a value may begin, its lexemes are read as the value. -/
def Readable (value : Json) : Prop := ∀ stack {expect}, Begins expect →
  value.lexemes.foldlM step ⟨stack, expect⟩ = some ⟨stack, .more value⟩

/-- The items that are left are read after those that stand in the frame already. -/
theorem foldlM_items (h : ∀ other ∈ item :: items, other.Readable) (stack : List Frame)
    (done : List Json) (hexpect : Begins expect) :
    ([Token.comma].intercalate (itemLexemes (item :: items)) ++ [Token.closeList]).foldlM step
        ⟨.list done :: stack, expect⟩ =
      some ⟨stack, .more (.list (done.reverse ++ item :: items))⟩ := by
  induction items generalizing item done expect with
  | nil =>
    have hitem := h item List.mem_cons_self (.list done :: stack) hexpect
    have hclose : step ⟨.list done :: stack, .more item⟩ .closeList =
        some ⟨stack, .more (.list (item :: done).reverse)⟩ := rfl
    rw [itemLexemes, itemLexemes, List.intercalate_singleton, foldlM_append_of_some hitem,
      foldlM_cons_of_some hclose, List.reverse_cons]
    rfl
  | cons next items ih =>
    obtain ⟨hitem, hrest⟩ := List.forall_mem_cons.mp h
    have hitem := hitem (.list done :: stack) hexpect
    have hcomma : step ⟨.list done :: stack, .more item⟩ .comma =
        some ⟨.list (item :: done) :: stack, .value⟩ := rfl
    have hlast := ih hrest (item :: done) .value
    rw [itemLexemes] at hlast
    rw [itemLexemes, itemLexemes, List.intercalate_cons_cons, List.append_assoc, List.append_assoc,
      foldlM_append_of_some hitem, List.singleton_append, foldlM_cons_of_some hcomma, hlast]
    simp

/-- A name, a colon and a value are read as a member that has its value still on top. -/
theorem foldlM_member (h : member.2.Readable) (stack : List Frame)
    (done : List (Option String × Json)) :
    (Token.quoted member.1 :: .colon :: member.2.lexemes).foldlM step ⟨stack, .name done⟩ =
      some ⟨.object done member.1 :: stack, .more member.2⟩ := by
  have hname : step ⟨stack, .name done⟩ (.quoted member.1) =
      some ⟨stack, .colon done member.1⟩ := rfl
  have hcolon : step ⟨stack, .colon done member.1⟩ .colon =
      some ⟨.object done member.1 :: stack, .value⟩ := rfl
  rw [foldlM_cons_of_some hname, foldlM_cons_of_some hcolon, h _ .value]

theorem foldlM_members (h : ∀ other ∈ member :: members, other.2.Readable) (stack : List Frame)
    (done : List (Option String × Json)) :
    ([Token.comma].intercalate (memberLexemes (member :: members)) ++ [Token.closeObject]).foldlM
        step ⟨stack, .name done⟩ =
      some ⟨stack, .more (.object (done.reverse ++ member :: members))⟩ := by
  induction members generalizing member done with
  | nil =>
    have hmember := foldlM_member (h member List.mem_cons_self) stack done
    have hclose : step ⟨.object done member.1 :: stack, .more member.2⟩ .closeObject =
        some ⟨stack, .more (.object (member :: done).reverse)⟩ := rfl
    rw [memberLexemes, memberLexemes, List.intercalate_singleton, foldlM_append_of_some hmember,
      foldlM_cons_of_some hclose, List.reverse_cons]
    rfl
  | cons next members ih =>
    obtain ⟨hfirst, hrest⟩ := List.forall_mem_cons.mp h
    have hmember := foldlM_member hfirst stack done
    have hcomma : step ⟨.object done member.1 :: stack, .more member.2⟩ .comma =
        some ⟨stack, .name (member :: done)⟩ := rfl
    have hlast := ih hrest (member :: done)
    rw [memberLexemes] at hlast
    rw [memberLexemes, memberLexemes, List.intercalate_cons_cons, List.append_assoc,
      List.append_assoc, foldlM_append_of_some hmember, List.singleton_append,
      foldlM_cons_of_some hcomma, hlast]
    simp

theorem readable_of_proper (h : value.Proper) : value.Readable := by
  induction h with
  | null =>
    intro stack expect hexpect
    cases hexpect <;> rfl
  | boolean value =>
    intro stack expect hexpect
    cases hexpect <;> rfl
  | number _ =>
    intro stack expect hexpect
    cases hexpect <;> rfl
  | text value =>
    intro stack expect hexpect
    cases hexpect <;> rfl
  | @list items _ ih =>
    intro stack expect hexpect
    have hopen : step ⟨stack, expect⟩ .openList = some ⟨.list [] :: stack, .firstItem⟩ := by
      cases hexpect <;> rfl
    rw [lexemes, List.cons_append, foldlM_cons_of_some hopen]
    cases items with
    | nil => rfl
    | cons item items => exact foldlM_items ih stack [] .firstItem
  | @object members _ ih =>
    intro stack expect hexpect
    have hopen : step ⟨stack, expect⟩ .openObject = some ⟨stack, .firstName⟩ := by
      cases hexpect <;> rfl
    rw [ofFields, lexemes, List.cons_append, foldlM_cons_of_some hopen]
    cases members with
    | nil => rfl
    | cons member members =>
      have hreadable : ∀ other ∈ (member :: members).map fun member => (some member.1, member.2),
          other.2.Readable := List.forall_mem_map.mpr ih
      have hmembers := foldlM_members hreadable stack []
      -- A first name is read as any other name.
      have hfirst (tokens : List Token) (name : Option String) :
          (Token.quoted name :: tokens).foldlM step ⟨stack, .firstName⟩ =
            (Token.quoted name :: tokens).foldlM step ⟨stack, .name []⟩ := rfl
      rw [memberLexemes, List.intercalate_cons_cons_left, List.cons_append] at hmembers
      rw [List.map_cons, memberLexemes, List.intercalate_cons_cons_left, List.cons_append, hfirst,
        hmembers]
      rfl

/-- A written value is read as the value itself. -/
theorem parse_render (h : value.Proper) : parse value.render = some value := by
  rw [parse, run_render h, Option.bind_eq_bind, Option.bind_some, start,
    readable_of_proper h [] .value]
  rfl

end KeyForest.Json
