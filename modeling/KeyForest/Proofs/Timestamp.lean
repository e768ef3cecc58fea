import KeyForest.Proofs.Text
import KeyForest.Timestamp
import Mathlib.Data.List.TakeWhile
import Mathlib.Tactic

/-!
# Instants that are written and read again

The written form of an instant is read as the instant (`Timestamp.parse_toText`), and nothing but
instants is read (`Timestamp.isInstant_of_parse`). What stands after a number in the written form is
never a digit, so each number is read to its end (`readNumber_append`).
-/
namespace KeyForest

namespace Timestamp

variable {t : Timestamp} {n width low high : ℕ} {digits rest : List Char} {c : Char}

/-- The date exists, and the time is one of a day. Any minute may end with a leap second. -/
structure IsInstant (t : Timestamp) : Prop where
  isDate : isDate t.year t.month t.day = true
  hour_lt : t.hour < 24
  minute_lt : t.minute < 60
  second_le : t.second ≤ 60
  nano_lt : t.nano < 10 ^ 9

/-! ### Numbers -/

theorem toList_padded (width n : ℕ) : (padded width n).toList =
    List.replicate (width - (Nat.toDigits 10 n).length) '0' ++ Nat.toDigits 10 n := by
  rw [padded, String.toList_ofList]

theorem isDigit_of_mem_padded (h : c ∈ (padded width n).toList) : c.isDigit = true := by
  rw [toList_padded, List.mem_append] at h
  rcases h with hzero | hdigit
  · rw [List.eq_of_mem_replicate hzero]
    rfl
  · exact Nat.isDigit_of_mem_toDigits (by decide) (by decide) hdigit

theorem digitsValue_padded (width n : ℕ) : Text.digitsValue 10 (padded width n).toList = n := by
  rw [Text.digitsValue_eq_ofDigitChars fun _ => isDigit_of_mem_padded, toList_padded,
    Nat.ofDigitChars_append, Nat.ofDigitChars_replicate_zero, Nat.mul_zero,
    Nat.ofDigitChars_ten_toDigits]

theorem padded_ne_nil (width n : ℕ) : (padded width n).toList ≠ [] := by
  rw [toList_padded]
  simp

theorem length_padded (hwidth : 0 < width) (hn : n < 10 ^ width) :
    (padded width n).toList.length = width := by
  have hle := (Nat.length_toDigits_le_iff (b := 10) (by decide) hwidth).mpr hn
  rw [toList_padded, List.length_append, List.length_replicate]
  omega

/-- A number is read to its end, when its digits are not too many and no further one follows. -/
theorem readNumber_append (hdigits : ∀ c ∈ digits, c.isDigit = true) (hne : digits ≠ [])
    (hwidth : digits.length ≤ width) (hrest : ∀ c ∈ rest.head?, c.isDigit = false) :
    readNumber width (digits ++ rest) = some (Text.digitsValue 10 digits, rest) := by
  have hstop (n : ℕ) : (rest.take n).takeWhile Char.isDigit = [] := by
    cases n with
    | zero => rfl
    | succ n =>
      cases rest with
      | nil => rfl
      | cons c rest => simp [hrest c rfl]
  have hrun : ((digits ++ rest).take width).takeWhile Char.isDigit = digits := by
    rw [List.take_append, List.take_of_length_le hwidth, List.takeWhile_append_of_pos hdigits, hstop,
      List.append_nil]
  rw [readNumber, hrun, if_neg (by simpa using hne), List.drop_left]

theorem readNumber_padded (hn : (padded width n).toList.length ≤ high)
    (hrest : ∀ c ∈ rest.head?, c.isDigit = false) :
    readNumber high ((padded width n).toList ++ rest) = some (n, rest) := by
  rw [readNumber_append (fun _ => isDigit_of_mem_padded) (padded_ne_nil width n) hn hrest,
    digitsValue_padded]

theorem not_isBlank_of_isDigit (h : c.isDigit = true) : Text.isBlank c = false := by
  obtain ⟨hlow, hhigh⟩ := Text.isDigit_iff.mp h
  simp only [Text.isBlank, Bool.or_eq_false_iff, Bool.and_eq_false_iff, decide_eq_false_iff_not,
    beq_eq_false_iff_ne]
  omega

theorem isDigit_of_head_padded (h : c ∈ ((padded width n).toList ++ rest).head?) :
    c.isDigit = true := by
  rw [List.head?_append_of_ne_nil _ (padded_ne_nil width n)] at h
  exact isDigit_of_mem_padded (List.mem_of_mem_head? h)

theorem readField_padded (hlow : low ≤ n) (hhigh : n ≤ high) (hn : n < 100)
    (hrest : ∀ c ∈ rest.head?, c.isDigit = false) :
    readField low high ((padded 2 n).toList ++ rest) = some (n, rest) := by
  rw [readField, Text.trimLeft_of_head fun c hc => not_isBlank_of_isDigit (isDigit_of_head_padded hc),
    readNumber_padded (length_padded (by decide) hn).le hrest]
  exact if_pos ⟨hlow, hhigh⟩

theorem trimLeft_cons (hc : Text.isBlank c = false) (rest : List Char) :
    Text.trimLeft (c :: rest) = c :: rest := Text.trimLeft_of_head (by simpa using hc)

theorem readMark_cons (hc : Text.isBlank c = false) (rest : List Char) :
    readMark c (c :: rest) = some rest := by
  rw [readMark, trimLeft_cons hc]
  exact if_pos rfl

/-! ### Parts of the written form -/

theorem readYear_of_isDigit (h : ∀ c ∈ rest.head?, c.isDigit = true) :
    readYear rest = (readNumber 4 rest).map fun (n, left) => ((n : Int), left) := by
  rw [readYear, Text.trimLeft_of_head fun c hc => not_isBlank_of_isDigit (h c hc)]
  split
  · exact absurd (h _ rfl) (by decide)
  · exact absurd (h _ rfl) (by decide)
  · rfl

theorem readYear_minus (rest : List Char) : readYear ('-' :: rest) =
    (readNumber rest.length rest).map fun (n, left) => (-(n : Int), left) := by
  rw [readYear, trimLeft_cons (by decide)]
  rfl

theorem readYear_plus (rest : List Char) : readYear ('+' :: rest) =
    (readNumber rest.length rest).map fun (n, left) => ((n : Int), left) := by
  rw [readYear, trimLeft_cons (by decide)]
  rfl

theorem readYear_yearText (year : Int) (rest : List Char) :
    readYear ((yearText year).toList ++ '-' :: rest) = some (year, '-' :: rest) := by
  have hmark : ∀ c ∈ ('-' :: rest).head?, c.isDigit = false := by simp
  have hsigned := @readNumber_padded year.natAbs 4
    ((padded 4 year.natAbs).toList ++ '-' :: rest).length ('-' :: rest) (by simp) hmark
  rw [yearText]
  split
  · rename_i hyear
    have hlength := @length_padded year.toNat 4 (by decide) (by omega)
    rw [readYear_of_isDigit fun c hc => isDigit_of_head_padded hc,
      readNumber_padded hlength.le hmark]
    simp [hyear.1]
  · have hminus : "-".toList = ['-'] := rfl
    have hplus : "+".toList = ['+'] := rfl
    rw [String.toList_append, List.append_assoc]
    split
    · rw [hminus, List.singleton_append, readYear_minus, hsigned, Option.map_some]
      simp only [Option.some.injEq, Prod.mk.injEq, and_true]
      omega
    · rw [hplus, List.singleton_append, readYear_plus, hsigned, Option.map_some]
      simp only [Option.some.injEq, Prod.mk.injEq, and_true]
      omega

theorem readFraction_padded (hwidth : 0 < width) (hle : width ≤ 9) (hn : n < 10 ^ width) :
    readFraction ('.' :: (padded width n).toList ++ ['Z']) =
      some (n * 10 ^ (9 - width), ['Z']) := by
  have hdigits : ((padded width n).toList ++ ['Z']).takeWhile Char.isDigit =
      (padded width n).toList := by
    rw [List.takeWhile_append_of_pos fun _ => isDigit_of_mem_padded]
    simp
  have hlength := length_padded hwidth hn
  rw [List.cons_append, readFraction, hdigits, if_neg (by simpa using padded_ne_nil width n),
    List.take_of_length_le (by omega), digitsValue_padded, List.drop_left, hlength]
  rfl

/-- A fraction begins with its dot, or is not there at all. -/
theorem isDigit_of_head_fractionText (n : ℕ) :
    ∀ c ∈ ((fractionText n).toList ++ ['Z']).head?, c.isDigit = false := by
  unfold fractionText
  split_ifs <;> simp

theorem readFraction_fractionText (hn : n < 10 ^ 9) :
    readFraction ((fractionText n).toList ++ ['Z']) = some (n, ['Z']) := by
  have hdot {width m : ℕ} (hwidth : 0 < width) (hle : width ≤ 9) (hm : m < 10 ^ width) :
      readFraction (("." ++ padded width m).toList ++ ['Z']) =
        some (m * 10 ^ (9 - width), ['Z']) := by
    rw [String.toList_append]
    exact readFraction_padded hwidth hle hm
  unfold fractionText
  split
  · rename_i hzero
    rw [beq_iff_eq.mp hzero]
    rfl
  split
  · rename_i hmillis
    have hmillis := beq_iff_eq.mp hmillis
    rw [hdot (by decide) (by decide) (by omega)]
    simp only [Option.some.injEq, Prod.mk.injEq, and_true]
    omega
  split
  · rename_i hmicros
    have hmicros := beq_iff_eq.mp hmicros
    rw [hdot (by decide) (by decide) (by omega)]
    simp only [Option.some.injEq, Prod.mk.injEq, and_true]
    omega
  · rw [hdot (by decide) (by decide) hn]
    simp

theorem toUtc_zero (h : t.IsInstant) : t.toUtc 0 = some t := by
  have hhour := h.hour_lt
  have hminute := h.minute_lt
  unfold toUtc
  dsimp only
  rw [if_neg (by omega), if_pos (by omega), if_pos h.isDate]
  have hminutes : ((t.hour * 60 + t.minute : ℕ) - 0 : ℤ).toNat = t.hour * 60 + t.minute := by omega
  rw [hminutes, Nat.mul_comm, Nat.mul_add_div (by decide), Nat.mul_add_mod, Nat.div_eq_of_lt hminute,
    Nat.mod_eq_of_lt hminute, Nat.add_zero]

theorem IsInstant.month_bounds (h : t.IsInstant) : 1 ≤ t.month ∧ t.month ≤ 12 := by
  have hdate := h.isDate
  simp only [Timestamp.isDate, Bool.and_eq_true, decide_eq_true_eq] at hdate
  omega

theorem IsInstant.day_bounds (h : t.IsInstant) : 1 ≤ t.day ∧ t.day ≤ 31 := by
  have hdate := h.isDate
  have hlast : daysInMonth t.year t.month ≤ 31 := by
    unfold daysInMonth
    split_ifs <;> decide
  simp only [Timestamp.isDate, Bool.and_eq_true, decide_eq_true_eq] at hdate
  omega

theorem bind_of_some {α β : Type} {o : Option α} {a : α} (h : o = some a) (f : α → Option β) :
    (o >>= f) = f a := by
  rw [h, Option.bind_eq_bind, Option.bind_some]

theorem toList_toText (t : Timestamp) : t.toText.toList =
    (yearText t.year).toList ++ '-' :: ((padded 2 t.month).toList ++ '-' ::
      ((padded 2 t.day).toList ++ 'T' :: ((padded 2 t.hour).toList ++ ':' ::
        ((padded 2 t.minute).toList ++ ':' :: ((padded 2 t.second).toList ++
          ((fractionText t.nano).toList ++ ['Z'])))))) := by
  simp [toText]

/-- A written instant is read as the instant. -/
theorem parse_toText (h : t.IsInstant) : parse t.toText = some t := by
  obtain ⟨hmonth, hmonth'⟩ := h.month_bounds
  obtain ⟨hday, hday'⟩ := h.day_bounds
  have hhour := h.hour_lt
  have hminute := h.minute_lt
  have hsecond := h.second_le
  have hzone : readZone (Text.trimLeft ['Z']) = some (0, []) := by decide
  rw [parse, parseList, toList_toText, bind_of_some (readYear_yearText _ _)]
  dsimp only
  rw [bind_of_some (readMark_cons (by decide) _),
    bind_of_some (readField_padded hmonth hmonth' (by omega) (by simp))]
  dsimp only
  rw [bind_of_some (readMark_cons (by decide) _),
    bind_of_some (readField_padded hday hday' (by omega) (by simp))]
  dsimp only
  rw [if_pos (by decide), bind_of_some rfl,
    bind_of_some (readField_padded (by omega) (by omega) (by omega) (by simp))]
  dsimp only
  rw [bind_of_some (readMark_cons (by decide) _),
    bind_of_some (readField_padded (by omega) (by omega) (by omega) (by simp))]
  dsimp only
  rw [bind_of_some (readMark_cons (by decide) _), bind_of_some (readField_padded (by omega) hsecond
    (by omega) (isDigit_of_head_fractionText t.nano))]
  dsimp only
  rw [bind_of_some (readFraction_fractionText h.nano_lt), bind_of_some hzone]
  exact (if_pos ⟨rfl, h.isDate⟩).trans (toUtc_zero h)

/-! ### What is read -/

theorem bounds_of_readField {cs : List Char} (h : readField low high cs = some (n, rest)) :
    low ≤ n ∧ n ≤ high := by
  obtain ⟨⟨m, left⟩, -, h⟩ := Option.bind_eq_some_iff.mp h
  dsimp only at h
  split_ifs at h with hbounds
  cases h
  exact hbounds

theorem lt_of_readFraction {cs : List Char} (h : readFraction cs = some (n, rest)) :
    n < 10 ^ 9 := by
  unfold readFraction at h
  split at h
  · rename_i cs
    dsimp only at h
    split_ifs at h
    cases h
    have hdigits : ∀ c ∈ (cs.takeWhile Char.isDigit).take 9, c.isDigit = true :=
      fun c hc => List.mem_takeWhile_imp (List.mem_of_mem_take hc)
    have hlength := List.length_take_le 9 (cs.takeWhile Char.isDigit)
    generalize (cs.takeWhile Char.isDigit).take 9 = kept at *
    calc Text.digitsValue 10 kept * 10 ^ (9 - kept.length)
        < 10 ^ kept.length * 10 ^ (9 - kept.length) :=
          Nat.mul_lt_mul_of_pos_right (Text.digitsValue_lt hdigits) (by positivity)
      _ = 10 ^ 9 := by rw [← pow_add, Nat.add_sub_cancel' hlength]
  · cases h
    decide

/-- A zone is less than a day away. -/
theorem bounds_of_readZone {cs : List Char} {east : Int} (h : readZone cs = some (east, rest)) :
    -1440 < east ∧ east < 1440 := by
  have hamount {sign : Int} {cs : List Char} (hsign : sign = 1 ∨ sign = -1)
      (h : (readHoursMinutes cs).bind (fun amount =>
        if amount.1 < 1440 then some (sign * amount.1, amount.2) else none) = some (east, rest)) :
      -1440 < east ∧ east < 1440 := by
    obtain ⟨⟨minutes, left⟩, -, h⟩ := Option.bind_eq_some_iff.mp h
    dsimp only at h
    split_ifs at h
    cases h
    rcases hsign with rfl | rfl <;> omega
  have hzero {cs : List Char} (h : some ((0 : Int), cs) = some (east, rest)) :
      -1440 < east ∧ east < 1440 := by
    cases h
    decide
  unfold readZone at h
  dsimp only at h
  split_ifs at h
  · exact hzero h
  split at h
  · exact hzero h
  · exact hzero h
  · exact hamount (.inl rfl) h
  · exact hamount (.inr rfl) h
  · exact hamount (.inr rfl) h
  · contradiction

theorem isInstant_of_toUtc {east : Int} {u : Timestamp} (hhour : t.hour ≤ 23) (hminute : t.minute ≤ 59)
    (hsecond : t.second ≤ 60) (hnano : t.nano < 10 ^ 9) (heast : -1440 < east)
    (h : t.toUtc east = some u) : u.IsInstant := by
  unfold toUtc at h
  dsimp only at h
  split_ifs at h with hbefore hdate hsame hdate hdate
  all_goals
    cases h
    exact ⟨hdate, by dsimp only; omega, Nat.mod_lt _ (by decide), hsecond, hnano⟩

/-- Whatever is read is an instant. -/
theorem isInstant_of_parse {s : String} (h : parse s = some t) : t.IsInstant := by
  unfold parse parseList at h
  obtain ⟨⟨year, cs⟩, -, h⟩ := Option.bind_eq_some_iff.mp h
  obtain ⟨cs, -, h⟩ := Option.bind_eq_some_iff.mp h
  obtain ⟨⟨month, cs⟩, -, h⟩ := Option.bind_eq_some_iff.mp h
  obtain ⟨cs, -, h⟩ := Option.bind_eq_some_iff.mp h
  obtain ⟨⟨day, cs⟩, -, h⟩ := Option.bind_eq_some_iff.mp h
  dsimp only at h
  split at h
  · split at h
    · obtain ⟨cs, -, h⟩ := Option.bind_eq_some_iff.mp h
      obtain ⟨⟨hour, cs⟩, hhour, h⟩ := Option.bind_eq_some_iff.mp h
      obtain ⟨cs, -, h⟩ := Option.bind_eq_some_iff.mp h
      obtain ⟨⟨minute, cs⟩, hminute, h⟩ := Option.bind_eq_some_iff.mp h
      obtain ⟨cs, -, h⟩ := Option.bind_eq_some_iff.mp h
      obtain ⟨⟨second, cs⟩, hsecond, h⟩ := Option.bind_eq_some_iff.mp h
      obtain ⟨⟨nano, cs⟩, hnano, h⟩ := Option.bind_eq_some_iff.mp h
      obtain ⟨⟨east, cs⟩, hzone, h⟩ := Option.bind_eq_some_iff.mp h
      dsimp only at h
      split_ifs at h
      exact isInstant_of_toUtc (bounds_of_readField hhour).2 (bounds_of_readField hminute).2
        (bounds_of_readField hsecond).2 (lt_of_readFraction hnano) (bounds_of_readZone hzone).1 h
    · contradiction
  · contradiction

end Timestamp

end KeyForest
