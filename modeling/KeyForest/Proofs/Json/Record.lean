import KeyForest.Json.Record
import Mathlib.Data.List.Nodup
import Mathlib.Tactic

/-!
# Records that are written and read again

A record type whose fields have different names is read from a written record field by field, each
from what it has written (`readRecord_writeRecord`). Nothing else is known of a field than how it
reads and writes.
-/
namespace KeyForest.Json

variable {α β : Type} {fields rest : List (Field α)} {seen : List String}

/-! ### Records -/

/-- When the fields before have been given, those that are left are read in their order. -/
theorem readMembers_write (hnames : (fields.map (·.name)).Nodup)
    (hsub : ∀ field ∈ rest, field ∈ fields) (hrest : (rest.map (·.name) ++ seen).Nodup)
    (record given : α) :
    readMembers fields seen (rest.map fun field => (some field.name, field.write record)) given =
      rest.foldlM (fun given field => field.read (field.write record) given) given := by
  induction rest generalizing seen given with
  | nil => rfl
  | cons field rest ih =>
    obtain ⟨hfield, hsub⟩ := List.forall_mem_cons.mp hsub
    rw [List.map_cons, List.cons_append, List.nodup_cons, List.mem_append, not_or] at hrest
    obtain ⟨⟨hnew, hseen⟩, hrest⟩ := hrest
    have hfind : fields.find? (·.name == field.name) = some field := by
      cases hother : fields.find? (·.name == field.name) with
      | none => simpa using List.find?_eq_none.mp hother field hfield
      | some other =>
        have hname : other.name = field.name := by simpa using List.find?_some hother
        rw [List.inj_on_of_nodup_map hnames (List.mem_of_find?_eq_some hother) hfield hname]
    have hnext : (rest.map (·.name) ++ field.name :: seen).Nodup :=
      List.nodup_middle.mpr (List.nodup_cons.mpr ⟨by simp [hnew, hseen], hrest⟩)
    rw [List.map_cons, readMembers, hfind, List.foldlM_cons]
    dsimp only
    rw [if_neg (by simpa using hseen)]
    exact congrArg _ (funext (ih hsub hnext))

/-- A written record is read field by field. -/
theorem readRecord_writeRecord (hnames : (fields.map (·.name)).Nodup) (record given : α) :
    readRecord fields given (writeRecord fields record) =
      fields.foldlM (fun given field => field.read (field.write record) given) given := by
  rw [writeRecord, ofFields, List.map_map, readRecord]
  exact readMembers_write hnames (fun _ => id) (by simpa using hnames) record given

/-- A record with the property still has it after the field has been read. -/
def Field.Keeps (field : Field α) (P : α → Prop) : Prop :=
  ∀ value record next, field.read value record = some next → P record → P next

/-- What every field keeps, a record has that is read from one that has it. -/
theorem readRecord_keeps {P : α → Prop} (hfields : ∀ field ∈ fields, field.Keeps P)
    {given record : α} (hgiven : P given) {value : Json}
    (h : readRecord fields given value = some record) : P record := by
  cases value with
  | object members =>
    rw [readRecord] at h
    generalize ([] : List String) = seen at h
    induction members generalizing seen given with
    | nil =>
      cases h
      exact hgiven
    | cons member members ih =>
      obtain ⟨_ | name, value⟩ := member
      · contradiction
      rw [readMembers] at h
      cases hfind : fields.find? (·.name == name) with
      | none =>
        rw [hfind] at h
        exact ih hgiven seen h
      | some field =>
        rw [hfind] at h
        dsimp only at h
        split_ifs at h
        obtain ⟨next, hnext, h⟩ := Option.bind_eq_some_iff.mp h
        have hmem := List.mem_of_find?_eq_some hfind
        exact ih (hfields field hmem value given next hnext hgiven) _ h
  | list items =>
    rw [readRecord] at h
    induction items generalizing fields given with
    | nil =>
      cases fields <;> cases h <;> exact hgiven
    | cons value items ih =>
      cases fields with
      | nil => contradiction
      | cons field fields =>
        obtain ⟨hfield, hfields⟩ := List.forall_mem_cons.mp hfields
        obtain ⟨next, hnext, h⟩ := Option.bind_eq_some_iff.mp h
        exact ih hfields (hfield value given next hnext hgiven) h
  | _ => contradiction

theorem Field.keeps_of {P : α → Prop} {decode : Json → Option β} {set : β → α → α}
    (h : ∀ value v record, decode value = some v → P record → P (set v record)) (name : String)
    (encode : β → Json) (get : α → β) : (Field.of name decode encode get set).Keeps P := by
  intro value record next hnext hrecord
  obtain ⟨v, hv, rfl⟩ := Option.map_eq_some_iff.mp hnext
  exact h value v record hv hrecord

theorem Field.write_of (name : String) (decode : Json → Option β) (encode : β → Json) (get : α → β)
    (set : β → α → α) (record : α) :
    (Field.of name decode encode get set).write record = encode (get record) := rfl

theorem Field.read_write_of {decode : Json → Option β} {encode : β → Json} {get : α → β}
    {record : α} (h : decode (encode (get record)) = some (get record)) (name : String)
    (set : β → α → α) (given : α) :
    (Field.of name decode encode get set).read
        ((Field.of name decode encode get set).write record) given =
      some (set (get record) given) := congrArg (Option.map (set · given)) h

/-! ### Parts of records -/

variable {decode : Json → Option α} {encode : α → Json}

theorem readList_ofList {items : List α} (h : ∀ item ∈ items, decode (encode item) = some item) :
    readList decode (ofList encode items) = some items := by
  rw [ofList, readList]
  induction items with
  | nil => rfl
  | cons item items ih =>
    obtain ⟨hitem, hitems⟩ := List.forall_mem_cons.mp h
    simp [List.mapM_cons, hitem, ih hitems]

theorem decode_of_readOptional {value : Json} {a : α} (h : readOptional decode value = some (some a)) :
    decode value = some a := by
  cases value with
  | null => simp [readOptional] at h
  | _ => simpa [readOptional] using h

/-- Nothing is written as null, so that no value may be written so. -/
theorem readOptional_ofOption {value : Option α} (h : ∀ a ∈ value, decode (encode a) = some a)
    (hnull : ∀ a ∈ value, encode a ≠ .null) :
    readOptional decode (ofOption encode value) = some value := by
  cases value with
  | none => rfl
  | some a =>
    rw [ofOption, readOptional.eq_2 _ _ (hnull a rfl), h a rfl]
    rfl

end KeyForest.Json
