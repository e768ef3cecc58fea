import KeyForest.Key

/-!
# Criteria on keys

`Criteria` demands of properties of a key that they are there or that they are not, and it demands
levels of validity. A key meets criteria when it meets each of them; a property on which nothing is
demanded does not matter.
-/
namespace KeyForest

/-- What is demanded of a property that is there or not. -/
inductive Demand where
  | doesNotMatter
  | set
  | notSet
deriving DecidableEq, Repr

namespace Demand

/-- The demand that a property is there, or that it is not. -/
def ofBool (required : Bool) : Demand := if required then set else notSet

/-- The demand that an entry makes; without an entry there is none. -/
def ofEntry (required : Option Bool) : Demand := (required.map ofBool).getD doesNotMatter

/-- What is required, if anything is. -/
def required? : Demand → Option Bool
  | doesNotMatter => none
  | set => some true
  | notSet => some false

def accepts : Demand → Bool → Bool
  | doesNotMatter, _ => true
  | set, value => value
  | notSet, value => !value

end Demand

/-- A property of keys that is there or not. -/
inductive Property where
  | revoked
  | expired
  | invalid
  | disabled
  | root
  | canEncrypt
  | canSign
  | canCertify
  | canAuthenticate
  | qualified
  | cardKey
  | hasSecret
  | openPgp
  | wasValidated
  | deVs
deriving DecidableEq, Repr

namespace Property

def all : List Property :=
  [revoked, expired, invalid, disabled, root, canEncrypt, canSign, canCertify, canAuthenticate,
   qualified, cardKey, hasSecret, openPgp, wasValidated, deVs]

/-- The name by which a report lists the property. -/
def name : Property → String
  | revoked => "revoked"
  | expired => "expired"
  | invalid => "invalid"
  | disabled => "disabled"
  | root => "root"
  | canEncrypt => "can_encrypt"
  | canSign => "can_sign"
  | canCertify => "can_certify"
  | canAuthenticate => "can_authenticate"
  | qualified => "qualified"
  | cardKey => "card_key"
  | hasSecret => "has_secret"
  | openPgp => "is_openpgp"
  | wasValidated => "was_validated"
  | deVs => "is_de_vs"

end Property

/-- How a level compares with the level of a criterion. -/
inductive LevelOperator where
  | is
  | isNot
  | isAtLeast
  | isAtMost
deriving DecidableEq, Repr

namespace LevelOperator

def all : List LevelOperator := [is, isNot, isAtLeast, isAtMost]

/-- The operator as a person writes it. -/
def keyword : LevelOperator → String
  | is => "is"
  | isNot => "is-not"
  | isAtLeast => "is-at-least"
  | isAtMost => "is-at-most"

/-- The operator as a report lists it. -/
def name : LevelOperator → String
  | is => "Is"
  | isNot => "IsNot"
  | isAtLeast => "IsAtLeast"
  | isAtMost => "IsAtMost"

end LevelOperator

/-- A demand on a level. -/
structure LevelCriterion where
  operator : LevelOperator
  level : Validity
deriving DecidableEq, Repr

namespace LevelCriterion

def accepts (criterion : LevelCriterion) (actual : Validity) : Bool :=
  match criterion.operator with
  | .is => actual == criterion.level
  | .isNot => actual != criterion.level
  | .isAtLeast => decide (criterion.level ≤ actual)
  | .isAtMost => decide (actual ≤ criterion.level)

/-- Reads an operator and a level with a colon between them. -/
def parse (s : String) : Except NameError LevelCriterion :=
  match s.toList.span (· != ':') with
  | (_, []) => .error (.levelForm s)
  | (operator, _ :: level) =>
    let word := Text.keyword (String.ofList operator)
    match LevelOperator.all.find? (·.keyword == word) with
    | none => .error (.levelOperator word)
    | some operator => (Validity.parse (String.ofList level)).map fun level => ⟨operator, level⟩

end LevelCriterion

/-- Demands on a key. -/
structure Criteria where
  revoked : Demand := .doesNotMatter
  expired : Demand := .doesNotMatter
  invalid : Demand := .doesNotMatter
  disabled : Demand := .doesNotMatter
  root : Demand := .doesNotMatter
  canEncrypt : Demand := .doesNotMatter
  canSign : Demand := .doesNotMatter
  canCertify : Demand := .doesNotMatter
  canAuthenticate : Demand := .doesNotMatter
  qualified : Demand := .doesNotMatter
  cardKey : Demand := .doesNotMatter
  hasSecret : Demand := .doesNotMatter
  openPgp : Demand := .doesNotMatter
  wasValidated : Demand := .doesNotMatter
  deVs : Demand := .doesNotMatter
  validity : Option LevelCriterion := none
  ownerTrust : Option LevelCriterion := none
deriving DecidableEq

namespace Criteria

/-- The demand on a property. -/
def demandOn (criteria : Criteria) : Property → Demand
  | .revoked => criteria.revoked
  | .expired => criteria.expired
  | .invalid => criteria.invalid
  | .disabled => criteria.disabled
  | .root => criteria.root
  | .canEncrypt => criteria.canEncrypt
  | .canSign => criteria.canSign
  | .canCertify => criteria.canCertify
  | .canAuthenticate => criteria.canAuthenticate
  | .qualified => criteria.qualified
  | .cardKey => criteria.cardKey
  | .hasSecret => criteria.hasSecret
  | .openPgp => criteria.openPgp
  | .wasValidated => criteria.wasValidated
  | .deVs => criteria.deVs

/-- The properties on which something is demanded: that they are there, or that they are not. -/
def properties (criteria : Criteria) : List (Property × Bool) :=
  Property.all.filterMap fun property =>
    (criteria.demandOn property).required?.map fun required => (property, required)

/-- The demands on what a key says outright, each with what the key says. -/
def flags (criteria : Criteria) (key : Key) : List (Demand × Bool) :=
  [(criteria.revoked, key.revoked), (criteria.expired, key.expired),
   (criteria.invalid, key.invalid), (criteria.disabled, key.disabled),
   (criteria.root, key.isRoot), (criteria.canEncrypt, key.canEncrypt),
   (criteria.canSign, key.canSign), (criteria.canCertify, key.canCertify),
   (criteria.canAuthenticate, key.canAuthenticate), (criteria.qualified, key.isQualified),
   (criteria.cardKey, key.isCardKey), (criteria.hasSecret, key.hasSecret),
   (criteria.openPgp, key.protocol == .openPgp)]

/-- Whether a key meets the criteria. What takes a walk through user IDs or subkeys is looked at last,
and only where it matters. -/
def holds (criteria : Criteria) (key : Key) : Bool :=
  if !(criteria.flags key).all fun (demand, value) => demand.accepts value then false
  else if criteria.wasValidated != .doesNotMatter &&
      !criteria.wasValidated.accepts key.wasValidated then false
  else if criteria.deVs != .doesNotMatter && !criteria.deVs.accepts key.isDeVs then false
  else if criteria.validity.any fun criterion => !criterion.accepts key.validity then false
  else if criteria.ownerTrust.any fun criterion => !criterion.accepts key.ownerTrust then false
  else true

end Criteria

end KeyForest
