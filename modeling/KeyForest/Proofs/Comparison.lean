import KeyForest.Proofs.LetterCase

/-!
# One equality in three computations

Fingerprints are ordered by comparing bytes in upper case, they are equal when their bytes in lower
case are, and they are hashed as bytes in upper case. The three go by one total order
(`Concordant`), on every text. Texts are equal in it exactly if they differ in the case of ASCII
letters only (`equalNoCase_iff_recased`), so that no change of letter case changes a comparison.
-/
namespace KeyForest

/-- An order, an equality and a hash that belong together: the order is total, and what it does not
tell apart is equal and has the same hash, and nothing else has. -/
structure Concordant {α : Type} (order : α → α → Ordering) (same : α → α → Bool)
    (hash : α → List UInt8) : Prop where
  reflexive : ∀ a, order a a = .eq
  oriented : ∀ a b, order b a = (order a b).swap
  total : ∀ a b, (order a b).isLE ∨ (order b a).isLE
  transitive : ∀ a b c, (order a b).isLE → (order b c).isLE → (order a c).isLE
  order_eq_iff : ∀ a b, order a b = .eq ↔ same a b = true
  same_iff : ∀ a b, same a b = true ↔ hash a = hash b

/-- An order that compares hashes goes with the equality of hashes. -/
theorem concordant_of_hash {α : Type} {order : α → α → Ordering} {same : α → α → Bool}
    {hash : α → List UInt8} (horder : ∀ a b, order a b = compare (hash a) (hash b))
    (hsame : ∀ a b, same a b = true ↔ hash a = hash b) : Concordant order same hash where
  reflexive a := by
    rw [horder]
    exact Std.ReflCmp.compare_self
  oriented a b := by
    rw [horder, horder]
    exact Std.OrientedCmp.eq_swap
  total a b := by
    have hswap : compare (hash b) (hash a) = (compare (hash a) (hash b)).swap :=
      Std.OrientedCmp.eq_swap
    rw [horder, horder, hswap]
    cases compare (hash a) (hash b) <;> simp
  transitive a b c hab hbc := by
    rw [horder] at hab hbc ⊢
    exact Std.TransCmp.isLE_trans hab hbc
  order_eq_iff a b := by
    rw [horder, hsame]
    exact Std.LawfulEqCmp.compare_eq_iff_eq
  same_iff := hsame

namespace Text

variable {s t : String}

/-- The bytes of a text with its ASCII letters in upper case. -/
def upperBytes (s : String) : List UInt8 := (bytes s).map upperByte

theorem equalNoCase_iff_upperBytes : equalNoCase s t = true ↔ upperBytes s = upperBytes t := by
  rw [equalNoCase_iff, upperBytes, upperBytes, map_upperByte_inj_iff]

/-- Whether two texts agree character by character, up to the case of ASCII letters. -/
def Recased (s t : String) : Prop :=
  List.Forall₂ (fun c d => c.toUpper = d.toUpper) s.toList t.toList

theorem upperBytes_eq_iff : upperBytes s = upperBytes t ↔ Recased s t := by
  rw [upperBytes, upperBytes, ← bytes_upperAscii, ← bytes_upperAscii, bytes_inj, upperAscii,
    upperAscii, String.ofList_inj, Respelling.map_eq_map_iff, Recased]

theorem equalNoCase_iff_recased : equalNoCase s t = true ↔ Recased s t :=
  equalNoCase_iff_upperBytes.trans upperBytes_eq_iff

/-- The order does not see letter case on either side. -/
theorem Recased.compareNoCase_eq {s' t' : String} (hs : Recased s s') (ht : Recased t t') :
    compareNoCase s t = compareNoCase s' t' :=
  congrArg₂ compare (upperBytes_eq_iff.mpr hs) (upperBytes_eq_iff.mpr ht)

end Text

open Text

/-- On all texts, and so on all fingerprints, equality, order and hash go by one total order.
Equal are exactly the texts that differ in the case of ASCII letters only; changing it on either
side changes no comparison. Reading the spelling of a fingerprint again changes nothing. -/
theorem comparison_concordant :
    Concordant compareNoCase equalNoCase upperBytes ∧
    Concordant (α := Fingerprint) compare (· == ·) Fingerprint.hashBytes ∧
    (∀ s t, equalNoCase s t = true ↔ Recased s t) ∧
    (∀ s s' t t', Recased s s' → Recased t t' → compareNoCase s t = compareNoCase s' t') ∧
    ∀ s, Fingerprint.ofText (Fingerprint.ofText s).text = Fingerprint.ofText s :=
  ⟨concordant_of_hash (fun _ _ => rfl) fun _ _ => equalNoCase_iff_upperBytes,
    concordant_of_hash Fingerprint.compare_def fun _ _ => Fingerprint.beq_iff,
    fun _ _ => equalNoCase_iff_recased, fun _ _ _ _ hs ht => hs.compareNoCase_eq ht,
    fun s => Fingerprint.ofText_text (Fingerprint.ofText s)⟩

/-- A text and its beginning, with letters beyond ASCII that keep their case. -/
theorem comparison_concordant_beginning :
    Recased "aé" "Aé" ∧ ¬ Recased "aé" "aÉ" ∧ Recased "aéb" "AéB" ∧
      compareNoCase "aé" "aéb" = .lt ∧ compareNoCase "Aé" "AéB" = .lt := by
  have hstart : Recased "aé" "Aé" := .cons (by decide) (.cons (by decide) .nil)
  have hwhole : Recased "aéb" "AéB" := .cons (by decide) (.cons (by decide) (.cons (by decide) .nil))
  have hbefore : compareNoCase "aé" "aéb" = .lt := by decide +kernel
  have hsame := comparison_concordant.2.2.2.1 _ _ _ _ hstart hwhole
  refine ⟨hstart, fun h => ?_, hwhole, hbefore, hsame ▸ hbefore⟩
  have heq := (comparison_concordant.2.2.1 "aé" "aÉ").mpr h
  revert heq
  decide +kernel

end KeyForest
