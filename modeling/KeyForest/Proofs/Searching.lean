import KeyForest.Proofs.Lowering
import KeyForest.Proofs.Projection

/-!
# Searching for a part of a text

The text that is typed is put in lower case on its own, and a sigma at its end becomes a final one.
So a key is found by a part of its fingerprint or of a user ID if the sigmas of the part have, in
lower case, the forms they have in the whole text; and only parts whose sigmas keep their forms in
whatever text they stand find all keys with such a text (`run_finds`).
-/
namespace KeyForest

namespace Wish

/-- A text that is not blank is looked for without the blanks around it. -/
theorem accepts_typed_iff {typed : String} {key : Key} :
    Wish.accepts { query := queryOf (some typed) } key = true ↔
      Text.trim typed = "" ∨ ∃ text ∈ key.texts,
        Text.lowerAfter [] (Text.trimList typed.toList) <:+: Text.lowerAfter [] text.toList := by
  rw [accepts_iff]
  simp [Text.lower]

end Wish

namespace Projection

open Listing

/-- Whether a projection shows a key and all keys above it, and their rows. -/
structure Reveals {σ : Type} [Listing σ] (projection : Projection σ) (state : σ) (key : Key) :
    Prop where
  keys : ∀ above ∈ stored state, ∀ n, Within state above n key → above ∈ projection.visibleKeys
  rows : ∀ above ∈ stored state, ∀ n, Within state above n key →
    ∀ index, keyAt state index = some above → index ∈ projection.visibleRows index.parent

theorem ShowsExactly.reveals {σ : Type} [Listing σ] {projection : Projection σ} {state : σ}
    {wish : Wish} {key : Key} (h : projection.ShowsExactly state wish)
    (haccepts : wish.accepts key = true) : projection.Reveals state key := by
  classical
  have hshown : ∀ above, ∀ n, Within state above n key → Shown state wish above :=
    fun above n hwithin => ⟨n, key, hwithin, haccepts⟩
  refine ⟨fun above habove n hwithin => (h.mem_keys above).mpr ⟨habove, hshown above n hwithin⟩,
    fun above habove n hwithin index hindex => ?_⟩
  rw [h.rows_eq, List.mem_filter, decide_eq_true_iff]
  refine ⟨List.mem_map.mpr ⟨index.row, List.mem_range.mpr ?_, rfl⟩, above, hindex,
    hshown above n hwithin⟩
  exact (List.getElem?_eq_some_iff.mp hindex).1

/-- Whether a key is found by a typed text: it is accepted, and where it is in a key list, its row
and all rows above it are shown. -/
structure Found (typed : String) (key : Key) : Prop where
  accepted : Wish.accepts { query := Wish.queryOf (some typed) } key = true
  inForest : ∀ operations, ((ofState (Operation.run operations : Journal Forest).state).withQuery
    (some typed)).Reveals (Operation.run operations : Journal Forest).state key
  inList : ∀ operations, ((ofState (Operation.run operations : Journal FlatList).state).withQuery
    (some typed)).Reveals (Operation.run operations : Journal FlatList).state key

theorem found_iff {typed : String} {key : Key} : Found typed key ↔
    Wish.accepts { query := Wish.queryOf (some typed) } key = true :=
  ⟨Found.accepted, fun h => ⟨h, fun operations => (forest_showsExactly operations _).reveals h,
    fun operations => (list_showsExactly operations _).reveals h⟩⟩

theorem found_of_keepsSigmas {typed text : String} {key : Key} (htext : text ∈ key.texts)
    {front back : List Char} (hsplit : text.toList = front ++ typed.toList ++ back)
    (hkeeps : Text.KeepsSigmas front typed.toList back) : Found typed key :=
  found_iff.mpr (Wish.accepts_typed_iff.mpr (.inr ⟨text, htext, hsplit ▸ hkeeps.isInfix⟩))

/-- Whether a typed text finds every named key that has a text it is part of. -/
def FindsAll (typed : String) : Prop :=
  ∀ key : Key, key.isNull = false → ∀ text ∈ key.texts, typed.toList <:+: text.toList →
    Found typed key

/-- A text with sigmas that finds all keys is found, in lower case, in every text it is part of. -/
theorem FindsAll.isInfix {typed : String} (h : FindsAll typed) (hsigma : 'Σ' ∈ typed.toList)
    (front back : List Char) : Text.lowerAfter [] (Text.trimList typed.toList) <:+:
      Text.lowerAfter [] (front ++ typed.toList ++ back) := by
  let whole := String.ofList (front ++ typed.toList ++ back)
  let key : Key := { fingerprint := .ofText "0", userIds := [{ id := whole }] }
  have hnamed : (Fingerprint.ofText "0").isEmpty = false := by decide +kernel
  have hpart : typed.toList <:+: whole.toList := by
    rw [String.toList_ofList]
    exact List.infix_append _ _ _
  have hfound := h key hnamed whole (by simp [Key.texts, key]) hpart
  rw [found_iff, Wish.accepts_typed_iff] at hfound
  have htrim := Text.sigma_mem_trimList hsigma
  rcases hfound with hblank | ⟨text, htext, hmatch⟩
  · rw [← Text.toList_trim, hblank] at htrim
    simp at htrim
  · simp only [Key.texts, key, List.map_cons, List.map_nil, List.mem_cons, List.not_mem_nil,
      or_false] at htext
    rcases htext with rfl | rfl
    · -- The fingerprint has no sigma, and so is not what the text was found in.
      have hzero : Text.lowerAfter [] (Fingerprint.ofText "0").text.toList = ['0'] := by
        decide +kernel
      have hsmall := Text.sigma_mem_lowerIn [] [] htrim
      rw [Text.lowerIn_nil] at hsmall
      rw [hzero] at hmatch
      rcases hsmall with hmem | hmem <;>
        exact absurd (List.mem_singleton.mp (hmatch.subset hmem)) (by decide)
    · rwa [String.toList_ofList] at hmatch

/-- A key is found by a part of one of its texts in which the sigmas have the forms that they have
in the whole text. Exactly the texts whose sigmas keep their forms wherever they stand find all keys
with a text that they are part of. -/
theorem run_finds (typed : String) :
    (∀ key : Key, ∀ text ∈ key.texts, ∀ front back,
      text.toList = front ++ typed.toList ++ back → Text.KeepsSigmas front typed.toList back →
        Found typed key) ∧
      (FindsAll typed ↔ ∀ front back, Text.KeepsSigmas front typed.toList back) := by
  refine ⟨fun key text htext front back => found_of_keepsSigmas htext, fun h front back => ?_,
    fun h key _ text htext hpart => ?_⟩
  · by_cases hsigma : 'Σ' ∈ typed.toList
    · exact Text.keepsSigmas_of_isInfix (h.isInfix hsigma) front back
    · exact Text.keepsSigmas_of_not_mem hsigma front back
  · obtain ⟨front, back, hsplit⟩ := hpart
    exact found_of_keepsSigmas htext hsplit.symm (h front back)

/-- The end of a name, where the last sigma is the last letter of the name as well. -/
theorem run_finds_ending :
    let key := (Key.ofFingerprint (.ofText "A")).withUserId "ΟΔΥΣΣΕΥΣ <o@example.org>" .full
    "ΟΔΥΣΣΕΥΣ <o@example.org>" ∈ key.texts ∧ Found "ΣΕΥΣ" key := by
  intro key
  have htext : "ΟΔΥΣΣΕΥΣ <o@example.org>" ∈ key.texts := by decide +kernel
  refine ⟨htext, (run_finds "ΣΕΥΣ").1 key _ htext "ΟΔΥΣ".toList " <o@example.org>".toList ?_ ?_⟩
  · decide +kernel
  · decide +kernel

/-- A name is not found by its beginning if this ends in a sigma, which is a final one there but not
in the name. -/
theorem not_findsAll_beginning :
    let key := (Key.ofFingerprint (.ofText "A")).withUserId "ΟΔΥΣΣΕΥΣ <o@example.org>" .full
    (key.isNull = false ∧ "ΟΔΥΣΣΕΥΣ <o@example.org>" ∈ key.texts ∧
      "ΟΔΥΣ".toList <:+: "ΟΔΥΣΣΕΥΣ <o@example.org>".toList) ∧
      Wish.accepts { query := Wish.queryOf (some "ΟΔΥΣ") } key = false ∧ ¬ FindsAll "ΟΔΥΣ" := by
  intro key
  have hpart : key.isNull = false ∧ "ΟΔΥΣΣΕΥΣ <o@example.org>" ∈ key.texts ∧
      "ΟΔΥΣ".toList <:+: "ΟΔΥΣΣΕΥΣ <o@example.org>".toList := by decide +kernel
  have hrefused : Wish.accepts { query := Wish.queryOf (some "ΟΔΥΣ") } key = false := by
    decide +kernel
  refine ⟨hpart, hrefused, fun h => ?_⟩
  obtain ⟨hnamed, htext, hbeginning⟩ := hpart
  have haccepted := (h key hnamed _ htext hbeginning).accepted
  rw [hrefused] at haccepted
  contradiction

end Projection

end KeyForest
