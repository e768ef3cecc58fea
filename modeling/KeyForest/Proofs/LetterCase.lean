import KeyForest.Proofs.Forest.Membership
import KeyForest.Proofs.Forest.Respelling
import KeyForest.Proofs.Text

/-!
# Letter case never matters

Two fingerprints are equal exactly if their texts agree once they are trimmed and their ASCII
letters are put in upper case. So a respelling in upper case (`Respelling.upper`) makes one run of
two whose operations differ in nothing else, and as no key list depends on spellings, what the two
runs lead to differs in nothing else either (`run_alike`).
-/
namespace KeyForest

/-! ### Upper case -/

namespace Text

/-- The text with the ASCII letters in upper case and every other character kept. -/
def upperAscii (s : String) : String := String.ofList (s.toList.map Char.toUpper)

/-- Whether two texts differ only in the case of ASCII letters and in the blanks around them. -/
def SameLetters (s t : String) : Prop := upperAscii (trim s) = upperAscii (trim t)

instance (s t : String) : Decidable (SameLetters s t) := inferInstanceAs (Decidable (_ = _))

/-- The number of a character or byte with an ASCII lower-case letter put in upper case. -/
def upperCode (n : ℕ) : ℕ := if 97 ≤ n ∧ n ≤ 122 then n - 32 else n

theorem upperCode_of_lt {n : ℕ} (h : 122 < n) : upperCode n = n := by
  rw [upperCode, if_neg (by omega)]

theorem upperCode_le (n : ℕ) : upperCode n ≤ n := by
  unfold upperCode
  split <;> omega

theorem upperByte_ofNat {n : ℕ} (h : n < 256) :
    upperByte (UInt8.ofNat n) = UInt8.ofNat (upperCode n) := by
  have hn : (UInt8.ofNat n).toNat = n := UInt8.toNat_ofNat_of_lt h
  have ha : 97 ≤ UInt8.ofNat n ↔ 97 ≤ n := by
    rw [UInt8.le_iff_toNat_le, hn]
    rfl
  have hz : UInt8.ofNat n ≤ 122 ↔ n ≤ 122 := by
    rw [UInt8.le_iff_toNat_le, hn]
    rfl
  simp only [upperByte, upperCode, ha, hz]
  split
  · exact (UInt8.ofNat_sub (b := 32) (by omega)).symm
  · rfl

theorem toNat_toUpper (c : Char) : c.toUpper.val.toNat = upperCode c.val.toNat := by
  have hletter : 'a'.val ≤ c.val ∧ c.val ≤ 'z'.val ↔ 97 ≤ c.val.toNat ∧ c.val.toNat ≤ 122 :=
    and_congr UInt32.le_iff_toNat_le UInt32.le_iff_toNat_le
  by_cases h : 97 ≤ c.val.toNat ∧ c.val.toNat ≤ 122
  · have hupper : c.toUpper.val = c.val - 32 :=
      (congrArg Char.val (dif_pos (hletter.mpr h))).trans (UInt32.sub_eq_add_neg c.val 32).symm
    have hle : (32 : UInt32) ≤ c.val := by
      rw [UInt32.le_iff_toNat_le]
      exact le_trans (by decide) h.1
    rw [hupper, upperCode, if_pos h]
    exact UInt32.toNat_sub_of_le c.val 32 hle
  · have hself : c.toUpper = c := dif_neg fun hc => h (hletter.mp hc)
    rw [hself, upperCode, if_neg h]

/-- A character is put in upper case byte by byte. -/
theorem map_upperByte_utf8EncodeChar (c : Char) :
    (String.utf8EncodeChar c).map upperByte = String.utf8EncodeChar c.toUpper := by
  simp only [String.utf8EncodeChar, toNat_toUpper]
  generalize c.val.toNat = n
  by_cases hascii : n ≤ 127
  · have hupper : upperCode n ≤ 127 := le_trans (upperCode_le n) hascii
    rw [if_pos hascii, if_pos hupper, List.map_singleton, upperByte_ofNat (by omega)]
  · -- All bytes of such a character are beyond the ASCII range.
    have hbyte {b : ℕ} (hb : 128 ≤ b) (hlt : b < 256) :
        upperByte (UInt8.ofNat b) = UInt8.ofNat b := by
      rw [upperByte_ofNat hlt, upperCode_of_lt (by omega)]
    rw [upperCode_of_lt (by omega), if_neg hascii]
    split
    · simp (disch := omega) only [List.map_cons, List.map_nil, hbyte]
    · split <;> simp (disch := omega) only [List.map_cons, List.map_nil, hbyte]

theorem bytes_upperAscii (s : String) : bytes (upperAscii s) = (bytes s).map upperByte := by
  rw [bytes_eq, bytes_eq, upperAscii, String.toList_ofList, List.flatMap_map, List.map_flatMap]
  exact List.flatMap_congr fun c _ => (map_upperByte_utf8EncodeChar c).symm

theorem isBlank_toUpper (c : Char) : isBlank c.toUpper = isBlank c := by
  have hcode : c.toUpper.toNat = upperCode c.toNat := toNat_toUpper c
  simp only [isBlank, hcode, upperCode]
  split <;> grind

theorem trim_upperAscii (s : String) : trim (upperAscii s) = upperAscii (trim s) := by
  have hleft (cs : List Char) :
      trimLeft (cs.map Char.toUpper) = (trimLeft cs).map Char.toUpper := by
    have hblank : isBlank ∘ Char.toUpper = isBlank := funext isBlank_toUpper
    rw [trimLeft, List.dropWhile_map, hblank, trimLeft]
  rw [trim, upperAscii, String.toList_ofList, upperAscii, toList_trim, trimList, hleft,
    ← List.map_reverse, hleft, ← List.map_reverse, trimList]

end Text

namespace Fingerprint

/-- The fingerprint in upper case. -/
def upper (f : Fingerprint) : Fingerprint where
  text := Text.upperAscii f.text
  isTrimmed := by rw [Text.trim_upperAscii, f.isTrimmed]

/-- The identity of a fingerprint is made of the bytes of its text in upper case. -/
theorem ident_eq (f : Fingerprint) : f.ident = Text.bytes f.upper.text :=
  (Text.bytes_upperAscii f.text).symm

theorem upper_eq_iff {f g : Fingerprint} : f.upper = g.upper ↔ (f == g) = true := by
  rw [beq_iff, ident_eq, ident_eq, Text.bytes_inj, Fingerprint.ext_iff]

/-- Texts spell equal fingerprints if they differ only in letter case and in blanks around them. -/
theorem beq_ofText {s t : String} : (ofText s == ofText t) = true ↔ Text.SameLetters s t := by
  rw [← upper_eq_iff, Fingerprint.ext_iff]
  rfl

theorem ident_upper (f : Fingerprint) : f.upper.ident = f.ident := by
  have hupper : Text.upperByte ∘ Text.upperByte = Text.upperByte := by
    funext b
    simp only [Function.comp_apply, Text.upperByte]
    grind
  rw [ident, hashBytes, upper, Text.bytes_upperAscii, List.map_map, hupper]
  rfl

end Fingerprint

/-! ### What is the same in other spellings -/

/-- Fingerprints read from texts that differ only in letter case and in blanks around them. -/
inductive Fingerprint.Respelled : Fingerprint → Fingerprint → Prop where
  | read {s t : String} (h : Text.SameLetters s t) : Respelled (ofText s) (ofText t)

/-- Whether two keys agree in everything but their fingerprints and chain ids, and in these as far
as `same` goes. -/
structure Key.Agree (same : Fingerprint → Fingerprint → Prop) (a b : Key) : Prop where
  fingerprint : same a.fingerprint b.fingerprint
  chainId : Option.Rel same a.chainId b.chainId
  others : b = { a with fingerprint := b.fingerprint, chainId := b.chainId }

/-- Keys that differ only in how fingerprints and chain ids are spelled. -/
abbrev Key.Respelled : Key → Key → Prop := Key.Agree Fingerprint.Respelled

/-- Keys that are the same when fingerprints are compared for equality. -/
abbrev Key.Alike : Key → Key → Prop := Key.Agree fun f g => (f == g) = true

/-- Operations that differ only in how fingerprints and chain ids are spelled. -/
inductive Operation.Respelled : Operation → Operation → Prop where
  | add {keys keys' : List Key} (h : List.Forall₂ Key.Respelled keys keys') :
      Respelled (.add keys) (.add keys')
  | addOne {key key' : Key} (h : key.Respelled key') : Respelled (.addOne key) (.addOne key')
  | set {keys keys' : List Key} (h : List.Forall₂ Key.Respelled keys keys') :
      Respelled (.set keys) (.set keys')
  | remove {f g : Fingerprint} (h : f.Respelled g) : Respelled (.remove f) (.remove g)
  | clear : Respelled .clear .clear

/-- Whether two changes are the same, in whatever spelling. -/
def Change.same : Change → Change → Bool
  | .aboutToInsert p i j, .aboutToInsert q k l => sameParent p q && i == k && j == l
  | .inserted p i j, .inserted q k l => sameParent p q && i == k && j == l
  | .aboutToRemove p i j, .aboutToRemove q k l => sameParent p q && i == k && j == l
  | .removed p i j, .removed q k l => sameParent p q && i == k && j == l
  | .dataChanged p i, .dataChanged q k => sameParent p q && i == k
  | .aboutToMove p i, .aboutToMove q k => sameParent p q && i == k
  | .moved p i, .moved q k => sameParent p q && i == k
  | .aboutToReset, .aboutToReset => true
  | .reset, .reset => true
  | _, _ => false

/-- Key lists that show the same rows under the same parents and store the same keys. -/
structure Listing.Alike {σ : Type} [Listing σ] (a b : σ) : Prop where
  rows : ∀ {p q}, sameParent p q = true → List.Forall₂ Key.Alike (rows a p) (rows b q)
  stored : List.Forall₂ Key.Alike (stored a) (stored b)

/-- Journals of key lists that are alike and have told of the same changes, each at a moment when
the key lists were alike. -/
structure Journal.Alike {σ : Type} [Listing σ] (first second : Journal σ) : Prop where
  state : Listing.Alike first.state second.state
  notices : List.Forall₂ (fun a b => a.1.same b.1 = true ∧ Listing.Alike a.2 b.2)
    first.notices second.notices

/-- Forests in which the same keys wait for the same issuers, and which say the same of where a key
sits. -/
structure Forest.SameWaiting (a b : Forest) : Prop where
  waiting : List.Forall₂ (fun x y => (x.1 == y.1) = true ∧ List.Forall₂ Key.Alike x.2 y.2)
    a.waiting b.waiting
  membership : ∀ {f g : Fingerprint}, (f == g) = true →
    (a.membership f).same (b.membership g) = true

/-! ### The respelling in upper case -/

namespace Respelling

/-- Everything in upper case. -/
def upper : Respelling := ⟨Fingerprint.upper, Fingerprint.ident_upper⟩

variable {a b : Fingerprint} {p q : Option Fingerprint}

theorem upper_spell_iff : upper.spell a = upper.spell b ↔ (a == b) = true :=
  Fingerprint.upper_eq_iff

theorem upper_parent_iff : upper.parent p = upper.parent q ↔ sameParent p q = true := by
  cases p <;> cases q <;> simp [sameParent, upper_spell_iff]

theorem rel_iff_sameParent :
    Option.Rel (fun f g => (f == g) = true) p q ↔ sameParent p q = true := by
  cases p <;> cases q <;> simp [sameParent]

theorem upper_key_iff {a b : Key} : upper.key a = upper.key b ↔ a.Alike b := by
  constructor
  · intro heq
    have hchain : upper.parent a.chainId = upper.parent b.chainId := congrArg Key.chainId heq
    refine ⟨upper_spell_iff.mp (congrArg Key.fingerprint heq),
      rel_iff_sameParent.mpr (upper_parent_iff.mp hchain), ?_⟩
    cases a
    cases b
    simp_all [Respelling.key]
  · rintro ⟨hfingerprint, hchain, hothers⟩
    have hspell := upper_spell_iff.mpr hfingerprint
    have hparent := upper_parent_iff.mpr (rel_iff_sameParent.mp hchain)
    simp only [parent] at hparent
    rw [hothers, Respelling.key, Respelling.key, hspell, hparent]

theorem upper_change {a b : Change} (h : upper.change a = upper.change b) : a.same b = true := by
  cases a <;> cases b <;>
    simp_all [Respelling.change, Change.same, upper_parent_iff]

theorem upper_index {a b : RowIndex} (h : upper.index a = upper.index b) : a.same b = true := by
  simp_all [Respelling.index, RowIndex.same, upper_parent_iff]

theorem upper_membership {a b : Membership} (h : upper.membership a = upper.membership b) :
    a.same b = true := by
  cases a <;> cases b <;> simp_all [Respelling.membership, Membership.same, upper_spell_iff]

/-- Lists are respelled alike if their elements are, one by one. -/
theorem map_eq_map_iff {α β : Type} {g : α → β} {xs ys : List α} :
    xs.map g = ys.map g ↔ List.Forall₂ (fun x y => g x = g y) xs ys := by
  rw [← List.forall₂_eq_eq_eq, List.forall₂_map_left_iff, List.forall₂_map_right_iff]

theorem upper_keys_iff {keys keys' : List Key} :
    keys.map upper.key = keys'.map upper.key ↔ List.Forall₂ Key.Alike keys keys' := by
  simp only [map_eq_map_iff, upper_key_iff]

end Respelling

theorem Fingerprint.Respelled.beq {f g : Fingerprint} (h : f.Respelled g) : (f == g) = true := by
  obtain ⟨hletters⟩ := h
  exact beq_ofText.mpr hletters

theorem Key.Respelled.alike {a b : Key} (h : a.Respelled b) : a.Alike b := by
  have hchain {p q : Option Fingerprint} (h : Option.Rel Fingerprint.Respelled p q) :
      Option.Rel (fun f g => (f == g) = true) p q := by
    cases h with
    | some h => exact .some h.beq
    | none => exact .none
  exact ⟨h.fingerprint.beq, hchain h.chainId, h.others⟩

namespace Respelling

theorem upper_operation {o o' : Operation} (h : o.Respelled o') :
    upper.operation o = upper.operation o' := by
  have hkeys {keys keys' : List Key} (h : List.Forall₂ Key.Respelled keys keys') :
      keys.map upper.key = keys'.map upper.key :=
    upper_keys_iff.mpr (h.imp fun _ _ => Key.Respelled.alike)
  cases h with
  | add h => exact congrArg Operation.add (hkeys h)
  | addOne h => exact congrArg Operation.addOne (upper_key_iff.mpr h.alike)
  | set h => exact congrArg Operation.set (hkeys h)
  | remove h => exact congrArg Operation.remove (upper_spell_iff.mpr h.beq)
  | clear => rfl

section Runs

variable {σ : Type} [KeyList σ] {g : σ → σ} (h : upper.Indifferent g)
include h

theorem Indifferent.alike_of_eq {a b : σ} (heq : g a = g b) : Listing.Alike a b where
  rows {p q} hparent := by
    rw [← upper_keys_iff, ← h.rows, ← h.rows, heq, upper_parent_iff.mpr hparent]
  stored := by rw [← upper_keys_iff, ← h.stored, ← h.stored, heq]

theorem Indifferent.journal_alike {first second : Journal σ}
    (heq : upper.journal g first = upper.journal g second) : first.Alike second where
  state := h.alike_of_eq (congrArg Journal.state heq)
  notices := by
    have hnotices := congrArg Journal.notices heq
    rw [notices_journal, notices_journal, map_eq_map_iff] at hnotices
    refine hnotices.imp fun a b hab => ?_
    obtain ⟨hchange, hseen⟩ := Prod.mk.inj hab
    exact ⟨upper_change hchange, h.alike_of_eq hseen⟩

theorem Indifferent.run_eq {first second : List Operation}
    (hruns : List.Forall₂ Operation.Respelled first second) :
    upper.journal g (Operation.run first) = upper.journal g (Operation.run second) := by
  rw [← h.run, ← h.run, map_eq_map_iff.mpr (hruns.imp fun _ _ => upper_operation)]

theorem Indifferent.answer_alike {first second : Journal σ}
    (heq : upper.journal g first = upper.journal g second) {o o' : Operation}
    (ho : o.Respelled o') : List.Forall₂ (fun i j => RowIndex.same i j = true)
      (o.answer first) (o'.answer second) := by
  have hanswer : (o.answer first).map upper.index = (o'.answer second).map upper.index := by
    rw [← h.answer, ← h.answer, heq, upper_operation ho]
  exact (map_eq_map_iff.mp hanswer).imp fun _ _ => upper_index

end Runs

theorem sameWaiting_of_eq {a b : Forest} (heq : upper.forest a = upper.forest b) :
    a.SameWaiting b where
  waiting := by
    have hwaiting := congrArg Forest.waiting heq
    rw [waiting_forest, waiting_forest, table, table, map_eq_map_iff] at hwaiting
    refine hwaiting.imp fun x y hxy => ?_
    obtain ⟨hissuer, hkeys⟩ := Prod.mk.inj hxy
    exact ⟨upper_spell_iff.mp hissuer, upper_keys_iff.mp hkeys⟩
  membership {f g} hfg := by
    refine upper_membership ?_
    rw [← membership_forest, ← membership_forest, heq, upper_spell_iff.mpr hfg]

end Respelling

/-! ### Runs in other spellings -/

/-- Two runs of the same operations in different spellings make the same of a flat list and of a
forest at every step: the same rows in the same order, the same keys waiting, the same changes told,
and the same answers. -/
theorem run_alike {first second : List Operation}
    (hruns : List.Forall₂ Operation.Respelled first second) (n : ℕ) :
    (Operation.run (first.take n) : Journal FlatList).Alike (Operation.run (second.take n)) ∧
      (Operation.run (first.take n) : Journal Forest).Alike (Operation.run (second.take n)) ∧
      (Operation.run (first.take n) : Journal Forest).state.SameWaiting
        (Operation.run (second.take n) : Journal Forest).state ∧
      ∀ o ∈ first[n]?, ∀ o' ∈ second[n]?,
        List.Forall₂ (fun i j => RowIndex.same i j = true)
          (o.answer (Operation.run (first.take n) : Journal FlatList))
          (o'.answer (Operation.run (second.take n) : Journal FlatList)) ∧
        List.Forall₂ (fun i j => RowIndex.same i j = true)
          (o.answer (Operation.run (first.take n) : Journal Forest))
          (o'.answer (Operation.run (second.take n) : Journal Forest)) := by
  have htake : List.Forall₂ Operation.Respelled (first.take n) (second.take n) :=
    List.forall₂_take n hruns
  have hflat := Respelling.indifferent_flatList Respelling.upper
  have hforest := Respelling.indifferent_forest Respelling.upper
  have hflatRun := hflat.run_eq htake
  have hforestRun := hforest.run_eq htake
  refine ⟨hflat.journal_alike hflatRun, hforest.journal_alike hforestRun,
    Respelling.sameWaiting_of_eq (congrArg Journal.state hforestRun), fun o ho o' ho' => ?_⟩
  have hnext : o.Respelled o' := by
    obtain ⟨hn, rfl⟩ := List.getElem?_eq_some_iff.mp ho
    obtain ⟨hn', rfl⟩ := List.getElem?_eq_some_iff.mp ho'
    exact hruns.get hn hn'
  exact ⟨hflat.answer_alike hflatRun hnext, hforest.answer_alike hforestRun hnext⟩

/-- A key that waits for its issuer waits for it in whatever spelling the two are given. -/
theorem run_alike_mixed_case :
    let leaf := (Key.ofFingerprint (.ofText "ab")).issuedBy (.ofText "Ca")
    let leaf' := (Key.ofFingerprint (.ofText " AB")).issuedBy (.ofText "cA\n")
    leaf ≠ leaf' ∧ (Operation.run [.addOne leaf] : Journal Forest).state.waiting ≠ [] ∧
      (Operation.run [.addOne leaf] : Journal Forest).state.SameWaiting
        (Operation.run [.addOne leaf'] : Journal Forest).state := by
  intro leaf leaf'
  have hleaf : leaf.Respelled leaf' := ⟨.read (by decide), .some (.read (by decide)), rfl⟩
  have hruns : List.Forall₂ Operation.Respelled [.addOne leaf, .remove (.ofText "AB")]
      [.addOne leaf', .remove (.ofText "Ab ")] :=
    .cons (.addOne hleaf) (.cons (.remove (.read (by decide))) .nil)
  obtain ⟨-, -, hwaiting, -⟩ := run_alike hruns 1
  exact ⟨by decide, by decide +kernel, hwaiting⟩

end KeyForest
