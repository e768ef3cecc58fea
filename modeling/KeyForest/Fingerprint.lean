import KeyForest.Text.Blank

/-!
# Fingerprints

A fingerprint names a certificate. Its spelling is kept for display, while equality (`==`), order
(`compare`) and the bytes fed to a hash (`hashBytes`) do not see the case of ASCII letters. The
order is that of the UTF-8 bytes with ASCII letters in upper case. An empty fingerprint names no
certificate.
-/
namespace KeyForest

/-- The UTF-8 bytes of a text. -/
def Text.bytes (s : String) : List UInt8 := s.toUTF8.data.toList

/-- The byte with an ASCII lower-case letter put in upper case. -/
def Text.upperByte (b : UInt8) : UInt8 := if 97 ≤ b ∧ b ≤ 122 then b - 32 else b

/-- The byte with an ASCII upper-case letter put in lower case. -/
def Text.lowerByte (b : UInt8) : UInt8 := if 65 ≤ b ∧ b ≤ 90 then b + 32 else b

/-- The order of two texts by their bytes, blind to the case of ASCII letters. -/
def Text.compareNoCase (a b : String) : Ordering :=
  compare ((Text.bytes a).map Text.upperByte) ((Text.bytes b).map Text.upperByte)

/-- Whether the first `n` bytes are the same up to the case of ASCII letters. The last of them are
looked at first, since names often begin alike. -/
def Text.agree (a b : ByteArray) : (n : Nat) → n ≤ a.size → n ≤ b.size → Bool
  | 0, _, _ => true
  | n + 1, ha, hb =>
    Text.lowerByte a[n] == Text.lowerByte b[n] &&
      Text.agree a b n (Nat.le_of_succ_le ha) (Nat.le_of_succ_le hb)

/-- Whether two texts have the same bytes up to the case of ASCII letters. -/
def Text.equalNoCase (a b : String) : Bool :=
  let x := a.toUTF8
  let y := b.toUTF8
  if h : x.size = y.size then Text.agree x y x.size (Nat.le_refl _) (Nat.le_of_eq h) else false

theorem Text.agree_iff {a b : ByteArray} {n : Nat} {ha : n ≤ a.size} {hb : n ≤ b.size} :
    Text.agree a b n ha hb = true ↔
      ∀ (i : Nat) (h : i < n), Text.lowerByte a[i] = Text.lowerByte b[i] := by
  induction n with
  | zero => simp [Text.agree]
  | succ n ih =>
    simp only [Text.agree, Bool.and_eq_true, beq_iff_eq, ih]
    constructor
    · rintro ⟨last, front⟩ i h
      rcases Nat.lt_or_eq_of_le (Nat.le_of_lt_succ h) with h | rfl
      · exact front i h
      · exact last
    · intro all
      exact ⟨all n (Nat.lt_succ_self n), fun i h => all i (Nat.lt_succ_of_lt h)⟩

/-- Texts are equal up to case if their bytes, with ASCII letters in lower case, are. -/
theorem Text.equalNoCase_iff {a b : String} :
    Text.equalNoCase a b = true ↔
      (Text.bytes a).map Text.lowerByte = (Text.bytes b).map Text.lowerByte := by
  simp only [Text.equalNoCase, Text.bytes]
  split
  · rename_i h
    rw [Text.agree_iff, List.ext_getElem_iff]
    simp only [List.length_map, Array.length_toList, List.getElem_map, Array.getElem_toList]
    constructor
    · intro all
      exact ⟨h, fun i hi _ => all i hi⟩
    · intro all i hi
      exact all.2 i hi (Nat.lt_of_lt_of_eq hi h)
  · rename_i h
    simp only [Bool.false_eq_true, false_iff]
    intro same
    exact h (by simpa using congrArg List.length same)

/-- The name of a certificate, without blanks at its ends. -/
structure Fingerprint where
  text : String
  isTrimmed : Text.trim text = text := by decide

namespace Fingerprint

@[ext] theorem ext {a b : Fingerprint} (h : a.text = b.text) : a = b := by
  cases a; cases b; cases h; rfl

instance : DecidableEq Fingerprint := fun a b =>
  decidable_of_iff (a.text = b.text) ⟨ext, fun h => h ▸ rfl⟩

/-- The fingerprint spelled by a text, blanks at its ends apart. -/
def ofText (s : String) : Fingerprint := ⟨Text.trim s, Text.trim_trim s⟩

@[simp] theorem text_ofText (s : String) : (ofText s).text = Text.trim s := rfl

/-- Reading a spelling back gives the fingerprint that has it. -/
@[simp] theorem ofText_text (f : Fingerprint) : ofText f.text = f := ext f.isTrimmed

instance : Inhabited Fingerprint := ⟨ofText ""⟩

/-- The fingerprint that names no certificate. -/
def isEmpty (f : Fingerprint) : Bool := f.text.isEmpty

/-- The bytes that stand for the fingerprint in a hash. -/
def hashBytes (f : Fingerprint) : List UInt8 := (Text.bytes f.text).map Text.upperByte

instance : Ord Fingerprint := ⟨fun a b => Text.compareNoCase a.text b.text⟩

instance : BEq Fingerprint := ⟨fun a b => Text.equalNoCase a.text b.text⟩

theorem compare_def (a b : Fingerprint) : compare a b = compare a.hashBytes b.hashBytes := rfl

instance : ToString Fingerprint := ⟨text⟩

end Fingerprint

end KeyForest
