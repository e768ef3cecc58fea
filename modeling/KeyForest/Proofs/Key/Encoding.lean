import KeyForest.Keyring
import KeyForest.Proofs.Json.Reading
import KeyForest.Proofs.Json.Record
import KeyForest.Proofs.Timestamp

/-!
# Keys that are written and read again

A key that is written as JSON text and read again is the same key in all its fields
(`Key.read_written`), as long as its times are instants, as those of all keys are that are read
(`Key.dated_of_ofJson?`). A fingerprint is trimmed when it is read, which changes nothing because it
has been trimmed when it was made.
-/
namespace KeyForest

open Json

/-! ### Parts of keys -/

theorem Json.proper_writeRecord {α : Type} {fields : List (Field α)} {record : α}
    (h : ∀ field ∈ fields, (field.write record).Proper) : (writeRecord fields record).Proper :=
  .object (List.forall_mem_map.mpr h)

theorem Json.proper_ofList {α : Type} {encode : α → Json} {items : List α}
    (h : ∀ item ∈ items, (encode item).Proper) : (ofList encode items).Proper :=
  .list (List.forall_mem_map.mpr h)

theorem Json.proper_ofOption {α : Type} {encode : α → Json} {value : Option α}
    (h : ∀ a ∈ value, (encode a).Proper) : (ofOption encode value).Proper := by
  cases value with
  | none => exact .null
  | some a => exact h a rfl

theorem Json.read_write_flag {α : Type} (name : String) (get : α → Bool) (set : Bool → α → α)
    (record given : α) :
    (flag name get set).read ((flag name get set).write record) given =
      some (set (get record) given) := Field.read_write_of rfl name set given

theorem Fingerprint.ofJson?_toJson (f : Fingerprint) : ofJson? f.toJson = some f :=
  congrArg some f.ofText_text

theorem Validity.ofJson?_toJson (v : Validity) : ofJson? v.toJson = some v := v.ofName?_name

theorem Protocol.ofJson?_toJson (p : Protocol) : ofJson? p.toJson = some p := p.ofName?_name

theorem Timestamp.ofJson?_toJson {t : Timestamp} (h : t.IsInstant) : ofJson? t.toJson = some t := by
  rw [ofJson?, toJson, text?, Option.bind_some, parse_toText h]

theorem Timestamp.isInstant_of_ofJson? {t : Timestamp} {value : Json} (h : ofJson? value = some t) :
    t.IsInstant := by
  obtain ⟨text, -, hparse⟩ := Option.bind_eq_some_iff.mp h
  exact isInstant_of_parse hparse

theorem UserId.ofJson?_toJson (uid : UserId) : ofJson? uid.toJson = some uid := by
  have hid : text? (.text uid.id) = some uid.id := rfl
  rw [ofJson?, toJson, readRecord_writeRecord (by decide)]
  simp [fields, read_write_flag, Field.read_write_of, hid, Validity.ofJson?_toJson]

theorem UserId.proper_toJson (uid : UserId) : uid.toJson.Proper :=
  proper_writeRecord (by
    simp [fields, flag, Field.write_of, Validity.toJson, Proper.boolean, Proper.text])

theorem Subkey.proper_toJson (sub : Subkey) : sub.toJson.Proper :=
  proper_writeRecord (by simp [fields, flag, Field.write_of, Proper.boolean])

theorem Subkey.ofJson?_toJson (sub : Subkey) : ofJson? sub.toJson = some sub := by
  rw [ofJson?, toJson, readRecord_writeRecord (by decide)]
  simp [fields, read_write_flag]

/-! ### Keys -/

namespace Key

/-- The times of the key are instants. -/
def Dated (key : Key) : Prop :=
  (∀ t ∈ key.created, t.IsInstant) ∧ ∀ t ∈ key.expires, t.IsInstant

/-- A key is decoded from what it is encoded as. -/
theorem ofJson?_toJson {key : Key} (h : key.Dated) : ofJson? key.toJson = some key := by
  have hchain : readOptional Fingerprint.ofJson? (ofOption Fingerprint.toJson key.chainId) =
      some key.chainId :=
    readOptional_ofOption (fun f _ => f.ofJson?_toJson) fun f _ => by simp [Fingerprint.toJson]
  have htime (time : Option Timestamp) (htime : ∀ t ∈ time, t.IsInstant) :
      readOptional Timestamp.ofJson? (ofOption Timestamp.toJson time) = some time :=
    readOptional_ofOption (fun t ht => Timestamp.ofJson?_toJson (htime t ht)) fun t _ => by
      simp [Timestamp.toJson]
  have hcreated := htime key.created h.1
  have hexpires := htime key.expires h.2
  have huserIds : readList UserId.ofJson? (ofList UserId.toJson key.userIds) = some key.userIds :=
    readList_ofList fun uid _ => uid.ofJson?_toJson
  have hsubkeys : readList Subkey.ofJson? (ofList Subkey.toJson key.subkeys) = some key.subkeys :=
    readList_ofList fun sub _ => sub.ofJson?_toJson
  rw [ofJson?, toJson, readRecord_writeRecord (by decide)]
  simp [fields, read_write_flag, Field.read_write_of, Fingerprint.ofJson?_toJson,
    Protocol.ofJson?_toJson, Validity.ofJson?_toJson, hchain, hcreated, hexpires, huserIds,
    hsubkeys]

/-- A key that has been decoded has instants for its times. -/
theorem dated_of_ofJson? {key : Key} {value : Json} (h : ofJson? value = some key) : key.Dated := by
  have hinstant {value : Json} {v : Option Timestamp}
      (hv : readOptional Timestamp.ofJson? value = some v) : ∀ t ∈ v, t.IsInstant := by
    rintro t rfl
    exact Timestamp.isInstant_of_ofJson? (decode_of_readOptional hv)
  refine readRecord_keeps ?_ (by constructor <;> simp) h
  simp only [fields, flag, List.forall_mem_cons]
  and_intros
  iterate 18
    refine Field.keeps_of ?_ _ _ _
    exact fun _ _ _ _ hrecord => hrecord
  · refine Field.keeps_of ?_ _ _ _
    exact fun _ _ _ hv hrecord => ⟨hinstant hv, hrecord.2⟩
  · refine Field.keeps_of ?_ _ _ _
    exact fun _ _ _ hv hrecord => ⟨hrecord.1, hinstant hv⟩
  · simp

theorem proper_toJson (key : Key) : key.toJson.Proper := by
  have hchain : (ofOption Fingerprint.toJson key.chainId).Proper :=
    proper_ofOption fun f _ => .text f.text
  have htime (time : Option Timestamp) : (ofOption Timestamp.toJson time).Proper :=
    proper_ofOption fun t _ => .text t.toText
  have huserIds : (ofList UserId.toJson key.userIds).Proper :=
    proper_ofList fun uid _ => uid.proper_toJson
  have hsubkeys : (ofList Subkey.toJson key.subkeys).Proper :=
    proper_ofList fun sub _ => sub.proper_toJson
  refine proper_writeRecord ?_
  simp [fields, flag, Field.write_of, Fingerprint.toJson, Validity.toJson, Protocol.toJson,
    Proper.boolean, Proper.text, hchain, htime, huserIds, hsubkeys]

/-- The keys with instants for their times are those that can be decoded from some value. -/
theorem dated_iff {key : Key} : key.Dated ↔ ∃ value, ofJson? value = some key :=
  ⟨fun h => ⟨key.toJson, ofJson?_toJson h⟩, fun ⟨_, h⟩ => dated_of_ofJson? h⟩

/-- A key that is written and read again is the same in all its fields. -/
theorem read_written (key : Key) (h : key.Dated) :
    (Json.parse key.toJson.render).bind ofJson? = some key := by
  rw [parse_render key.proper_toJson, Option.bind_some, ofJson?_toJson h]

/-- A leap second, a year before the common era, escaped letters and an empty issuer. -/
theorem read_written_with_leap_second :
    let key : Key :=
      { fingerprint := .ofText " aB "
        chainId := some (.ofText "")
        userIds := [{ id := "Å \"b\"\t", validity := .full }]
        created := some ⟨2016, 12, 31, 23, 59, 60, 500000000⟩
        expires := some ⟨-1, 2, 28, 0, 0, 0, 1⟩ }
    key.Dated ∧ (Json.parse key.toJson.render).bind ofJson? = some key := by
  intro key
  have hdated : key.Dated := by
    constructor
    · rintro _ ⟨⟩
      exact ⟨by decide, by decide, by decide, by decide, by decide⟩
    · rintro _ ⟨⟩
      exact ⟨by decide, by decide, by decide, by decide, by decide⟩
  exact ⟨hdated, read_written key hdated⟩

end Key

/-- A keyring that is written and read again holds the same keys in the same order. -/
theorem Keyring.parse_written {keys : List Key} (h : ∀ key ∈ keys, key.Dated) :
    Keyring.parse (ofList Key.toJson keys).render = some keys := by
  have hproper : (ofList Key.toJson keys).Proper := proper_ofList fun key _ => key.proper_toJson
  rw [Keyring.parse, parse_render hproper, Option.bind_some,
    readList_ofList fun key hkey => Key.ofJson?_toJson (h key hkey)]

end KeyForest
