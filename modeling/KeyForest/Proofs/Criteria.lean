import KeyForest.Filter.Criteria
import KeyForest.Proofs.Text

/-!
# What criteria mean

A key has a property by what it says itself, or by what its user IDs or subkeys say
(`Property.IsOf`), and it meets criteria exactly if it has every property that they demand and has
none that they exclude (`Criteria.holds_iff`). A level is as demanded by its place and that of the
demanded level in the ascending order (`LevelCriterion.accepts_iff`).
-/
namespace KeyForest

/-! ### Properties -/

/-- Whether a key has a property. -/
def Property.IsOf : Property → Key → Prop
  | .revoked, key => key.revoked = true
  | .expired, key => key.expired = true
  | .invalid, key => key.invalid = true
  | .disabled, key => key.disabled = true
  | .root, key => key.isRoot = true
  | .canEncrypt, key => key.canEncrypt = true
  | .canSign, key => key.canSign = true
  | .canCertify, key => key.canCertify = true
  | .canAuthenticate, key => key.canAuthenticate = true
  | .qualified, key => key.isQualified = true
  | .cardKey, key => key.isCardKey = true
  | .hasSecret, key => key.hasSecret = true
  | .openPgp, key => key.protocol = .openPgp
  | .wasValidated, key => key.ownerTrust ≠ .unknown ∨ ∃ uid ∈ key.userIds, uid.validity ≠ .unknown
  | .deVs, key =>
    ∀ sub ∈ key.subkeys, sub.expired = false → sub.revoked = false → sub.deVs = true

/-- The validity of the first user ID; it is unknown if there is none. -/
def firstValidity : List UserId → Validity
  | [] => .unknown
  | uid :: _ => uid.validity

namespace Key

variable {key : Key}

theorem wasValidated_iff : key.wasValidated = true ↔ Property.wasValidated.IsOf key := by
  rw [wasValidated, Bool.or_eq_true, bne_iff_ne, List.any_eq_true]
  simp only [bne_iff_ne, Property.IsOf]

theorem isDeVs_iff : key.isDeVs = true ↔ Property.deVs.IsOf key := by
  simp [isDeVs, Property.IsOf, or_iff_not_imp_left]

theorem validity_eq (key : Key) : key.validity = firstValidity key.userIds := by
  rw [validity]
  cases key.userIds <;> rfl

/-- All user IDs are fully valid if each of them is as valid as can be, or nearly so. -/
theorem hasFullValidity_iff : key.hasFullValidity = true ↔
    ∀ uid ∈ key.userIds, uid.validity = .full ∨ uid.validity = .ultimate := by
  rw [hasFullValidity, List.all_eq_true]
  refine forall₂_congr fun uid _ => ?_
  cases uid.validity <;> decide

end Key

/-! ### Levels -/

/-- The levels in ascending order, each with the word for it. -/
def ascendingLevels : List (Validity × String) :=
  [(.unknown, "unknown"), (.undefined, "undefined"), (.never, "never"), (.marginal, "marginal"),
    (.full, "full"), (.ultimate, "ultimate")]

/-- What the word for an operator says of the place of a level and the place of a demanded one. -/
def Compares (operator : String) (place demanded : ℕ) : Prop :=
  operator = "is" ∧ place = demanded ∨ operator = "is-not" ∧ place ≠ demanded ∨
    operator = "is-at-least" ∧ demanded ≤ place ∨ operator = "is-at-most" ∧ place ≤ demanded

theorem Compares.exists_operator {word : String} {place demanded : ℕ}
    (h : Compares word place demanded) : ∃ operator : LevelOperator, word = operator.keyword := by
  rcases h with ⟨rfl, -⟩ | ⟨rfl, -⟩ | ⟨rfl, -⟩ | ⟨rfl, -⟩
  · exact ⟨.is, rfl⟩
  · exact ⟨.isNot, rfl⟩
  · exact ⟨.isAtLeast, rfl⟩
  · exact ⟨.isAtMost, rfl⟩

/-- Whether a level is as a text demands: the word for an operator, a colon and the word for a
level. -/
def MeetsText (text : String) (actual : Validity) : Prop :=
  ∃ before after operator word own level place demanded,
    text.toList = before ++ ':' :: after ∧ ':' ∉ before ∧
      Text.Spells before operator ∧ Text.Spells after word ∧
      ascendingLevels[place]? = some (actual, own) ∧
      ascendingLevels[demanded]? = some (level, word) ∧ Compares operator place demanded

theorem Validity.getElem?_ascendingLevels {place : ℕ} {level : Validity} {word : String} :
    ascendingLevels[place]? = some (level, word) ↔ place = level.rank ∧ word = level.name := by
  constructor
  · intro h
    obtain ⟨hlt, -⟩ := List.getElem?_eq_some_iff.mp h
    have hlt : place < 6 := hlt
    interval_cases place <;> (cases h; exact ⟨rfl, rfl⟩)
  · rintro ⟨rfl, rfl⟩
    cases level <;> rfl

theorem Validity.eq_iff_rank {a b : Validity} : a = b ↔ a.rank = b.rank := by
  cases a <;> cases b <;> decide

theorem Validity.le_iff_rank {a b : Validity} : a ≤ b ↔ a.rank ≤ b.rank := Iff.rfl

theorem LevelCriterion.accepts_iff {criterion : LevelCriterion} {actual : Validity} :
    criterion.accepts actual = true ↔
      Compares criterion.operator.keyword actual.rank criterion.level.rank := by
  obtain ⟨operator, level⟩ := criterion
  cases operator
  case is => simp [accepts, Compares, LevelOperator.keyword, Validity.eq_iff_rank]
  case isNot => simp [accepts, Compares, LevelOperator.keyword, Validity.eq_iff_rank]
  case isAtLeast => simp [accepts, Compares, LevelOperator.keyword, Validity.le_iff_rank]
  case isAtMost => simp [accepts, Compares, LevelOperator.keyword, Validity.le_iff_rank]

/-- Whether a text puts a criterion into words. -/
def LevelCriterion.IsReadFrom (criterion : LevelCriterion) (text : String) : Prop :=
  ∃ before after, text.toList = before ++ ':' :: after ∧ ':' ∉ before ∧
    Text.Spells before criterion.operator.keyword ∧ Text.Spells after criterion.level.name

theorem meetsText_iff {text : String} {actual : Validity} : MeetsText text actual ↔
    ∃ criterion : LevelCriterion, criterion.IsReadFrom text ∧ criterion.accepts actual = true := by
  constructor
  · rintro ⟨before, after, operator, word, own, level, place, demanded, htext, hcolon, hbefore,
      hafter, hplace, hdemanded, hcompares⟩
    obtain ⟨operator, rfl⟩ := hcompares.exists_operator
    obtain ⟨rfl, rfl⟩ := Validity.getElem?_ascendingLevels.mp hplace
    obtain ⟨rfl, rfl⟩ := Validity.getElem?_ascendingLevels.mp hdemanded
    exact ⟨⟨operator, level⟩, ⟨before, after, htext, hcolon, hbefore, hafter⟩,
      LevelCriterion.accepts_iff.mpr hcompares⟩
  · rintro ⟨criterion, ⟨before, after, htext, hcolon, hbefore, hafter⟩, haccepts⟩
    exact ⟨before, after, _, _, _, _, _, _, htext, hcolon, hbefore, hafter,
      Validity.getElem?_ascendingLevels.mpr ⟨rfl, rfl⟩,
      Validity.getElem?_ascendingLevels.mpr ⟨rfl, rfl⟩, LevelCriterion.accepts_iff.mp haccepts⟩

/-! ### Criteria -/

/-- Whether it is as demanded that something holds, or that it does not. -/
def Demand.Met : Demand → Prop → Prop
  | .doesNotMatter, _ => True
  | .set, p => p
  | .notSet, p => ¬ p

theorem Demand.accepts_iff {demand : Demand} {value : Bool} {p : Prop} (h : value = true ↔ p) :
    demand.accepts value = true ↔ demand.Met p := by
  cases demand <;> simp [accepts, Met, ← h]

/-- What is looked at only where it matters is as demanded all the same. -/
theorem Demand.accepts_of_matters {demand : Demand} {value : Bool} :
    (demand != .doesNotMatter && !demand.accepts value) = false ↔ demand.accepts value = true := by
  cases demand <;> simp [accepts]

/-- The properties that a key says outright. -/
def Property.outright : List Property :=
  [revoked, expired, invalid, disabled, root, canEncrypt, canSign, canCertify, canAuthenticate,
    qualified, cardKey, hasSecret, openPgp]

theorem Property.forall_iff {P : Property → Prop} : (∀ property, P property) ↔
    (∀ property ∈ outright, P property) ∧ P .wasValidated ∧ P .deVs := by
  refine ⟨fun h => ⟨fun _ _ => h _, h _, h _⟩, fun ⟨hflags, hvalidated, hdeVs⟩ property => ?_⟩
  cases property
  case wasValidated => exact hvalidated
  case deVs => exact hdeVs
  all_goals exact hflags _ (by decide)

/-- What a key says outright is as demanded. -/
theorem Criteria.flags_all_iff {criteria : Criteria} {key : Key} :
    ((criteria.flags key).all fun (demand, value) => demand.accepts value) = true ↔
      ∀ property ∈ Property.outright, (criteria.demandOn property).Met (property.IsOf key) := by
  have hopenPgp : (key.protocol == .openPgp) = true ↔ Property.openPgp.IsOf key := beq_iff_eq
  simp only [flags, Property.outright, List.all_cons, List.all_nil, Bool.and_eq_true, Bool.and_true,
    List.forall_mem_cons, List.not_mem_nil, false_imp_iff, implies_true, and_true,
    Demand.accepts_iff hopenPgp, Demand.accepts_iff Iff.rfl]
  rfl

/-- A key meets criteria exactly if it meets each of them. -/
theorem Criteria.holds_iff {criteria : Criteria} {key : Key} : criteria.holds key = true ↔
    (∀ property, (criteria.demandOn property).Met (property.IsOf key)) ∧
      (∀ criterion ∈ criteria.validity, criterion.accepts (firstValidity key.userIds) = true) ∧
      ∀ criterion ∈ criteria.ownerTrust, criterion.accepts key.ownerTrust = true := by
  have hunless {refused met : Bool} :
      (if refused = true then false else met) = true ↔ refused = false ∧ met = true := by
    cases refused <;> simp
  have hlevel {demand : Option LevelCriterion} {actual : Validity} :
      (demand.any fun criterion => !criterion.accepts actual) = false ↔
        ∀ criterion ∈ demand, criterion.accepts actual = true := by
    cases demand <;> simp
  rw [Property.forall_iff, ← flags_all_iff, ← Demand.accepts_iff Key.wasValidated_iff,
    ← Demand.accepts_iff Key.isDeVs_iff, ← Key.validity_eq]
  simp only [holds, hunless, hlevel, Demand.accepts_of_matters, Bool.not_eq_false', and_true,
    and_assoc, demandOn]

end KeyForest
