import KeyForest.Key
import Mathlib.Data.List.Basic

/-!
# Identities of certificates

Two spellings name the same certificate when they agree up to the case of ASCII letters. The bytes
of a fingerprint with its letters in upper case, its identity, decide equality (`beq_iff`) and
order (`compare_eq_lt`). What is proved about key lists is proved about identities, where equality
is equality of values.
-/
namespace KeyForest

/-- The bytes that tell a certificate from all others. -/
abbrev Ident := List UInt8

namespace Ident

/-- The order in which certificates are listed. -/
def Below (x y : Ident) : Prop := compare x y = .lt

theorem Below.trans {x y z : Ident} (hxy : Below x y) (hyz : Below y z) : Below x z :=
  Std.TransCmp.lt_trans hxy hyz

theorem not_below_self (x : Ident) : ¬ Below x x := by simp [Below]

theorem Below.ne {x y : Ident} (h : Below x y) : x ≠ y := by
  rintro rfl
  exact not_below_self x h

theorem Below.asymm {x y : Ident} (h : Below x y) : ¬ Below y x := fun h' =>
  not_below_self x (h.trans h')

theorem below_or_eq_or_below (x y : Ident) : Below x y ∨ x = y ∨ Below y x := by
  unfold Below
  cases h : compare x y with
  | lt => exact .inl rfl
  | eq => exact .inr (.inl (Std.LawfulEqCmp.compare_eq_iff_eq.mp h))
  | gt => exact .inr (.inr (Std.OrientedCmp.gt_iff_lt.mp h))

end Ident

namespace Text

/-- Letters that agree in upper case agree in lower case, and the other way round. -/
theorem upperByte_inj_iff (a b : UInt8) : upperByte a = upperByte b ↔ lowerByte a = lowerByte b := by
  simp only [upperByte, lowerByte]
  grind

theorem map_upperByte_inj_iff (xs ys : List UInt8) :
    xs.map upperByte = ys.map upperByte ↔ xs.map lowerByte = ys.map lowerByte := by
  induction xs generalizing ys with
  | nil => simp
  | cons x xs ih =>
    cases ys with
    | nil => simp
    | cons y ys => simp [ih, upperByte_inj_iff]

end Text

namespace Fingerprint

/-- What the spellings of one certificate have in common. -/
def ident (f : Fingerprint) : Ident := f.hashBytes

theorem beq_iff {a b : Fingerprint} : (a == b) = true ↔ a.ident = b.ident := by
  rw [ident, ident, hashBytes, hashBytes, Text.map_upperByte_inj_iff]
  exact Text.equalNoCase_iff

theorem beq_false_iff {a b : Fingerprint} : (a == b) = false ↔ a.ident ≠ b.ident := by
  rw [Ne, ← beq_iff, Bool.not_eq_true]

@[simp] theorem beq_eq_decide (a b : Fingerprint) : (a == b) = decide (a.ident = b.ident) := by
  rw [Bool.eq_iff_iff, beq_iff, decide_eq_true_iff]

theorem compare_eq_lt {a b : Fingerprint} : compare a b = .lt ↔ Ident.Below a.ident b.ident :=
  Iff.rfl

theorem compare_eq_eq {a b : Fingerprint} : compare a b = .eq ↔ a.ident = b.ident := by
  rw [compare_def]
  exact Std.LawfulEqCmp.compare_eq_iff_eq

theorem compare_eq_gt {a b : Fingerprint} : compare a b = .gt ↔ Ident.Below b.ident a.ident := by
  rw [compare_def]
  exact Std.OrientedCmp.gt_iff_lt

/-- Only the empty fingerprint has the empty identity. -/
theorem isEmpty_iff {f : Fingerprint} : f.isEmpty = true ↔ f.ident = [] := by
  simp only [isEmpty, ident, hashBytes, Text.bytes, String.isEmpty_iff, List.map_eq_nil_iff,
    Array.toList_eq_nil_iff, ← String.toByteArray_inj, String.toByteArray_empty]
  exact ByteArray.ext_iff

end Fingerprint

namespace Key

abbrev ident (key : Key) : Ident := key.fingerprint.ident

/-- The identity of the issuer that decides where the key is placed. -/
def issuer (key : Key) : Option Ident := key.cleanIssuer.map Fingerprint.ident

theorem issuer_of_cleanIssuer {key : Key} {f : Fingerprint} (h : key.cleanIssuer = some f) :
    key.issuer = some f.ident := congrArg (Option.map Fingerprint.ident) h

theorem isNull_iff {key : Key} : key.isNull = true ↔ key.ident = [] := Fingerprint.isEmpty_iff

/-- The issuer of a key is another certificate, and not the one without a name. -/
theorem issuer_ne {key : Key} {x : Ident} (h : key.issuer = some x) : x ≠ key.ident ∧ x ≠ [] := by
  obtain ⟨issuer, hissuer, rfl⟩ := Option.map_eq_some_iff.mp h
  simp only [cleanIssuer] at hissuer
  split at hissuer
  · contradiction
  · obtain ⟨-, hclean⟩ := Option.filter_eq_some_iff.mp hissuer
    simp only [Bool.and_eq_true, Bool.not_eq_true'] at hclean
    refine ⟨Fingerprint.beq_false_iff.mp hclean.2, fun hempty => ?_⟩
    rw [Fingerprint.isEmpty_iff.mpr hempty] at hclean
    exact Bool.noConfusion hclean.1

end Key

end KeyForest
