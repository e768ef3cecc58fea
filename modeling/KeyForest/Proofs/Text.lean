import KeyForest.Fingerprint
import KeyForest.Text.Digits
import KeyForest.Validity
import Mathlib.Data.List.TakeWhile
import Mathlib.Data.String.Basic
import Mathlib.Tactic

/-!
# Digits, keywords and bytes of texts

A run of decimal digits is read as its number if this has at most 64 bits, however many digits there
are (`count?_eq_some`). A text has a word as its keyword if it spells the word, with any blanks around
it and in whatever letter case (`keyword_eq_iff`). Texts of ASCII characters are in the order of their
bytes (`bytes_lt_bytes`).
-/
namespace KeyForest.Text

/-! ### Decimal digits -/

variable {digits : List Char} {n : ℕ}

theorem isDigit_iff {c : Char} : c.isDigit = true ↔ 48 ≤ c.toNat ∧ c.toNat ≤ 57 :=
  Char.isDigit_iff_toNat

theorem digitsValue_eq_ofDigitChars (h : ∀ c ∈ digits, c.isDigit = true) :
    digitsValue 10 digits = Nat.ofDigitChars 10 digits 0 := by
  rw [digitsValue, Nat.ofDigitChars_eq_foldl]
  refine List.foldl_ext _ _ _ fun n c hc => ?_
  rw [hexValue?, if_pos (h c hc), Option.getD_some]

theorem digitsValue_lt (h : ∀ c ∈ digits, c.isDigit = true) :
    digitsValue 10 digits < 10 ^ digits.length := by
  induction digits using List.reverseRecOn with
  | nil => exact Nat.one_pos
  | append_singleton digits c ih =>
    obtain ⟨hdigits, hc⟩ := List.forall_mem_append.mp h
    have hdigit : c.isDigit = true := hc c List.mem_cons_self
    have hlast : c.toNat - '0'.toNat < 10 := by
      have hle := (isDigit_iff.mp hdigit).2
      have hzero : '0'.toNat = 48 := rfl
      omega
    have hfront := ih hdigits
    rw [digitsValue_concat, hexValue?, if_pos hdigit, Option.getD_some, List.length_append,
      List.length_singleton, pow_succ]
    omega

/-- A count is a number of 64 bits that is written in decimal digits. -/
theorem count?_eq_some : count? digits = some n ↔ digits ≠ [] ∧
    (∀ c ∈ digits, c.isDigit = true) ∧ Nat.ofDigitChars 10 digits 0 = n ∧ n < 2 ^ 64 := by
  rw [count?]
  split
  · rename_i hbad
    refine iff_of_false (fun hnone => nomatch hnone) fun ⟨hnonempty, hdigits, _⟩ => ?_
    rw [Bool.or_eq_true, List.isEmpty_iff, Bool.not_eq_true', ← Bool.not_eq_true,
      List.all_eq_true] at hbad
    exact hbad.elim hnonempty fun hnot => hnot hdigits
  · rename_i hgood
    rw [Bool.or_eq_true, not_or, List.isEmpty_iff, Bool.not_eq_true', Bool.not_eq_false,
      List.all_eq_true] at hgood
    obtain ⟨hnonempty, hdigits⟩ := hgood
    rw [and_iff_right hnonempty, and_iff_right hdigits, digitsValue_eq_ofDigitChars hdigits]
    have hbits : (0x10000000000000000 : ℕ) = 2 ^ 64 := by norm_num
    simp only [hbits]
    split
    · rename_i hlt
      rw [Option.some_inj]
      exact ⟨fun heq => ⟨heq, heq ▸ hlt⟩, And.left⟩
    · rename_i hlarge
      refine iff_of_false (fun hnone => nomatch hnone) fun ⟨heq, hlt⟩ => hlarge ?_
      rwa [heq]

/-! ### Keywords -/

variable {cs lead middle trail : List Char} {word : String}

/-- The text without the blanks around it, and those blanks. -/
theorem exists_trimList (cs : List Char) : ∃ lead trail, cs = lead ++ trimList cs ++ trail ∧
    (∀ c ∈ lead, isBlank c = true) ∧ ∀ c ∈ trail, isBlank c = true := by
  refine ⟨cs.takeWhile isBlank, ((trimLeft cs).reverse.takeWhile isBlank).reverse, ?_,
    fun c hc => List.mem_takeWhile_imp hc,
    fun c hc => List.mem_takeWhile_imp (List.mem_reverse.mp hc)⟩
  have htrail : trimList cs ++ ((trimLeft cs).reverse.takeWhile isBlank).reverse = trimLeft cs := by
    rw [trimList, ← List.reverse_append, trimLeft.eq_def (trimLeft cs).reverse,
      List.takeWhile_append_dropWhile, List.reverse_reverse]
  rw [List.append_assoc, htrail, trimLeft, List.takeWhile_append_dropWhile]

/-- Blanks on both sides of a text that neither begins nor ends with a blank are what is trimmed. -/
theorem trimList_append (hlead : ∀ c ∈ lead, isBlank c = true) (htrail : ∀ c ∈ trail, isBlank c = true)
    (hfirst : ∀ c ∈ middle.head?, isBlank c = false)
    (hlast : ∀ c ∈ middle.reverse.head?, isBlank c = false) :
    trimList (lead ++ middle ++ trail) = middle := by
  have hback : trimLeft (middle ++ trail).reverse = middle.reverse := by
    rw [List.reverse_append, trimLeft,
      List.dropWhile_append_of_pos fun c hc => htrail c (List.mem_reverse.mp hc)]
    exact trimLeft_of_head hlast
  have hfront : trimLeft (lead ++ middle ++ trail) = trimLeft (middle ++ trail) := by
    rw [List.append_assoc, trimLeft, List.dropWhile_append_of_pos hlead, trimLeft]
  rw [trimList, hfront]
  cases middle with
  | nil =>
    have hnone : trimLeft ([] ++ trail) = [] := List.dropWhile_eq_nil_iff.mpr htrail
    rw [hnone]
    rfl
  | cons c middle =>
    have hstay : trimLeft (c :: middle ++ trail) = c :: middle ++ trail := trimLeft_of_head hfirst
    rw [hstay, hback, List.reverse_reverse]

theorem toLower_of_isBlank {c : Char} (h : isBlank c = true) : c.toLower = c := by
  have hnot : ¬ (c.val ≥ 'A'.val ∧ c.val ≤ 'Z'.val) := by
    rintro ⟨hfirst, hlast⟩
    have hfirst : 65 ≤ c.toNat := hfirst
    have hlast : c.toNat ≤ 90 := hlast
    simp only [isBlank, Bool.or_eq_true, Bool.and_eq_true, decide_eq_true_iff, beq_iff_eq] at h
    omega
  exact dif_neg hnot

/-- Whether characters spell a word: blanks around it and the case of ASCII letters do not count. -/
def Spells (cs : List Char) (word : String) : Prop :=
  ∃ lead middle trail, cs = lead ++ middle ++ trail ∧ (∀ c ∈ lead, isBlank c = true) ∧
    (∀ c ∈ trail, isBlank c = true) ∧ middle.map Char.toLower = word.toList

theorem keyword_eq_iff {text : String} (hword : trim word = word) :
    keyword text = word ↔ Spells text.toList word := by
  have hkeyword : (keyword text).toList = (trimList text.toList).map Char.toLower := by
    rw [keyword, lowerAscii, String.toList_ofList, toList_trim]
  constructor
  · rintro rfl
    obtain ⟨lead, trail, htext, hlead, htrail⟩ := exists_trimList text.toList
    exact ⟨lead, trimList text.toList, trail, htext, hlead, htrail, hkeyword.symm⟩
  · rintro ⟨lead, middle, trail, htext, hlead, htrail, hmiddle⟩
    -- A blank has no other case, so a word without blanks at its ends comes from such a text.
    have hends {cs : List Char} (h : ∀ d ∈ (cs.map Char.toLower).head?, isBlank d = false) :
        ∀ c ∈ cs.head?, isBlank c = false := by
      refine fun c hc => Bool.eq_false_iff.mpr fun hblank => ?_
      have hlower := h c.toLower (List.head?_map ▸ Option.mem_map_of_mem Char.toLower hc)
      rw [toLower_of_isBlank hblank, hblank] at hlower
      exact Bool.noConfusion hlower
    have htrimmed : trimList word.toList = word.toList := by rw [← toList_trim, hword]
    have hmid : trimList text.toList = middle := by
      rw [htext]
      refine trimList_append hlead htrail (hends ?_) (hends ?_)
      · rw [hmiddle, ← htrimmed]
        exact head_trimList _
      · rw [List.map_reverse, hmiddle, ← htrimmed]
        exact head_reverse_trimList _
    rw [← String.toList_inj, hkeyword, hmid, hmiddle]

/-! ### Bytes -/

variable {s t : String} {cs ds : List Char}

theorem bytes_eq (s : String) : bytes s = s.toList.flatMap String.utf8EncodeChar := by
  have hencode := String.utf8Encode_toList (b := s)
  rw [bytes, String.toUTF8, ← hencode, List.utf8Encode]
  simp

theorem bytes_inj : bytes s = bytes t ↔ s = t := by
  rw [bytes, bytes, Array.toList_inj, ← ByteArray.ext_iff]
  exact String.toByteArray_inj

/-- Whether all characters are of ASCII, so that each of them is a single byte. -/
def IsAscii (cs : List Char) : Prop := ∀ c ∈ cs, c.val ≤ 127

theorem bytes_of_isAscii (h : IsAscii s.toList) :
    bytes s = s.toList.map fun c => c.val.toUInt8 := by
  rw [bytes_eq, List.map_eq_flatMap]
  refine List.flatMap_congr fun c hc => ?_
  exact String.utf8EncodeChar_eq_singleton (Char.utf8Size_eq_one_iff.mpr (h c hc))

theorem toUInt8_lt {c d : Char} (hd : d.val ≤ 127) (h : c < d) :
    c.val.toUInt8 < d.val.toUInt8 := by
  have hcd : c.val.toNat < d.val.toNat := h
  have hsmall : d.val.toNat ≤ 127 := hd
  rw [UInt8.lt_iff_toNat_lt, UInt32.toNat_toUInt8, UInt32.toNat_toUInt8]
  omega

theorem map_toUInt8_lt (hds : IsAscii ds) (h : cs < ds) :
    cs.map (fun c => c.val.toUInt8) < ds.map fun c => c.val.toUInt8 := by
  induction cs generalizing ds with
  | nil =>
    cases ds with
    | nil => exact absurd h (List.lt_irrefl _)
    | cons d ds => exact List.nil_lt_cons _ _
  | cons c cs ih =>
    cases ds with
    | nil => exact absurd h (List.not_lt_nil _)
    | cons d ds =>
      obtain ⟨hd, hrest⟩ := List.forall_mem_cons.mp hds
      rw [List.map_cons, List.map_cons, List.cons_lt_cons_iff]
      rcases List.cons_lt_cons_iff.mp h with hlt | ⟨rfl, hlt⟩
      · exact .inl (toUInt8_lt hd hlt)
      · exact .inr ⟨rfl, ih hrest hlt⟩

/-- Texts of ASCII characters are in the order of their bytes. -/
theorem bytes_lt_bytes (hs : IsAscii s.toList) (ht : IsAscii t.toList) (h : s < t) :
    bytes s < bytes t := by
  rw [bytes_of_isAscii hs, bytes_of_isAscii ht]
  exact map_toUInt8_lt ht (String.lt_iff_toList_lt.mp h)

end KeyForest.Text
