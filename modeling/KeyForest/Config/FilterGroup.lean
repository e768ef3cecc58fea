import KeyForest.Config.Decode
import KeyForest.Filter.KeyFilter

/-!
# Filters from configuration

A filter group is a table of the configuration that describes one filter. It is built on its own, so
that a group that cannot be used takes nothing else down with it. The entries are looked at in the
order of their names; entries of unknown names do not matter. Only when all of them have values of
the right kind are the texts read that name contexts and levels.
-/
namespace KeyForest.Config

structure FilterGroup where
  name : String
  entries : Toml.Table

/-- Why a group cannot be used. -/
inductive GroupError where
  | decode (error : DecodeError)
  | missingId
  | name (error : NameError)

def GroupError.message : GroupError → String
  | decode error => error.message
  | missingId => "missing 'id'"
  | name error => error.message

/-- What the entry of a name has to hold. -/
inductive EntryKind where
  | text
  | boolean
  | natural32
  | color
  | contexts
deriving DecidableEq, Repr

/-- The entries that are known, with what they have to hold. -/
def knownEntries : List (String × EntryKind) :=
  [("id", .text), ("name", .text), ("icon", .text), ("specificity", .natural32),
   ("match-contexts", .contexts), ("foreground-color", .color), ("background-color", .color),
   ("font", .text), ("font-bold", .boolean), ("font-italic", .boolean),
   ("font-strikeout", .boolean), ("is-revoked", .boolean), ("is-expired", .boolean),
   ("is-invalid", .boolean), ("is-disabled", .boolean), ("is-root-certificate", .boolean),
   ("can-encrypt", .boolean), ("can-sign", .boolean), ("can-certify", .boolean),
   ("can-authenticate", .boolean), ("is-qualified", .boolean), ("is-cardkey", .boolean),
   ("has-secret-key", .boolean), ("is-openpgp-key", .boolean), ("was-validated", .boolean),
   ("is-de-vs", .boolean), ("validity", .text), ("ownertrust", .text)]

/-- The kind of the entry of this name, if the name is known. -/
def kindOf? (name : String) : Option EntryKind := (knownEntries.find? (·.1 == name)).map (·.2)

def decodeColor (value : Toml.Value) : Except GroupError Color :=
  match decodeText value with
  | .error error => .error (.decode error)
  | .ok text => (Color.parse text).mapError .name

/-- Checks that a value is of a kind. -/
def EntryKind.check (value : Toml.Value) : EntryKind → Except GroupError Unit
  | text => ((decodeText value).map fun _ => ()).mapError .decode
  | boolean => ((decodeBoolean value).map fun _ => ()).mapError .decode
  | natural32 => ((decodeNatural32 value).map fun _ => ()).mapError .decode
  | color => (decodeColor value).map fun _ => ()
  | contexts => ((decodeTexts value).map fun _ => ()).mapError .decode

/-- The values of the known entries of a group. -/
structure FilterEntries where
  id : Option String
  name : Option String
  icon : Option String
  specificity : Option Nat
  matchContexts : Option (String ⊕ List String)
  foregroundColor : Option Color
  backgroundColor : Option Color
  font : Option String
  fontBold : Option Bool
  fontItalic : Option Bool
  fontStrikeout : Option Bool
  isRevoked : Option Bool
  isExpired : Option Bool
  isInvalid : Option Bool
  isDisabled : Option Bool
  isRootCertificate : Option Bool
  canEncrypt : Option Bool
  canSign : Option Bool
  canCertify : Option Bool
  canAuthenticate : Option Bool
  isQualified : Option Bool
  isCardKey : Option Bool
  hasSecretKey : Option Bool
  isOpenPgpKey : Option Bool
  wasValidated : Option Bool
  isDeVs : Option Bool
  validity : Option String
  ownerTrust : Option String

namespace FilterEntries

/-- The occasions that an entry names; all if there is none. -/
def contexts (entry : Option (String ⊕ List String)) : Except NameError Contexts :=
  match entry with
  | none => .ok .any
  | some (.inl text) => Contexts.parse text
  | some (.inr texts) => Contexts.parseList texts

/-- The demand on a level that an entry puts into words. -/
def level (entry : Option String) : Except NameError (Option LevelCriterion) :=
  match entry with
  | none => .ok none
  | some text => (LevelCriterion.parse text).map some

def styledFont (entries : FilterEntries) : Font where
  bold := entries.fontBold.getD false
  italic := entries.fontItalic.getD false
  strikeout := entries.fontStrikeout.getD false
  family := entries.font

/-- The criteria that the entries name, with the demands on levels that have been read. -/
def criteria (entries : FilterEntries) (validity ownerTrust : Option LevelCriterion) :
    Criteria where
  revoked := .ofEntry entries.isRevoked
  expired := .ofEntry entries.isExpired
  invalid := .ofEntry entries.isInvalid
  disabled := .ofEntry entries.isDisabled
  root := .ofEntry entries.isRootCertificate
  canEncrypt := .ofEntry entries.canEncrypt
  canSign := .ofEntry entries.canSign
  canCertify := .ofEntry entries.canCertify
  canAuthenticate := .ofEntry entries.canAuthenticate
  qualified := .ofEntry entries.isQualified
  cardKey := .ofEntry entries.isCardKey
  hasSecret := .ofEntry entries.hasSecretKey
  openPgp := .ofEntry entries.isOpenPgpKey
  wasValidated := .ofEntry entries.wasValidated
  deVs := .ofEntry entries.isDeVs
  validity
  ownerTrust

end FilterEntries

namespace FilterGroup

/-- Checks the kind of every known entry, in their order. -/
def check (group : FilterGroup) : Except GroupError Unit :=
  group.entries.forM fun (name, value) =>
    match kindOf? name with
    | some kind => kind.check value
    | none => .ok ()

/-- The decoded value of an entry, if there is such an entry and it can be decoded. -/
def value? {ε α : Type} (group : FilterGroup) (name : String) (decode : Toml.Value → Except ε α) :
    Option α :=
  (group.entries.get? name).bind fun value => (decode value).toOption

/-- The values of the known entries, where they can be decoded. -/
def values (group : FilterGroup) : FilterEntries where
  id := group.value? "id" decodeText
  name := group.value? "name" decodeText
  icon := group.value? "icon" decodeText
  specificity := group.value? "specificity" decodeNatural32
  matchContexts := group.value? "match-contexts" decodeTexts
  foregroundColor := group.value? "foreground-color" decodeColor
  backgroundColor := group.value? "background-color" decodeColor
  font := group.value? "font" decodeText
  fontBold := group.value? "font-bold" decodeBoolean
  fontItalic := group.value? "font-italic" decodeBoolean
  fontStrikeout := group.value? "font-strikeout" decodeBoolean
  isRevoked := group.value? "is-revoked" decodeBoolean
  isExpired := group.value? "is-expired" decodeBoolean
  isInvalid := group.value? "is-invalid" decodeBoolean
  isDisabled := group.value? "is-disabled" decodeBoolean
  isRootCertificate := group.value? "is-root-certificate" decodeBoolean
  canEncrypt := group.value? "can-encrypt" decodeBoolean
  canSign := group.value? "can-sign" decodeBoolean
  canCertify := group.value? "can-certify" decodeBoolean
  canAuthenticate := group.value? "can-authenticate" decodeBoolean
  isQualified := group.value? "is-qualified" decodeBoolean
  isCardKey := group.value? "is-cardkey" decodeBoolean
  hasSecretKey := group.value? "has-secret-key" decodeBoolean
  isOpenPgpKey := group.value? "is-openpgp-key" decodeBoolean
  wasValidated := group.value? "was-validated" decodeBoolean
  isDeVs := group.value? "is-de-vs" decodeBoolean
  validity := group.value? "validity" decodeText
  ownerTrust := group.value? "ownertrust" decodeText

/-- The values of the known entries; entries of unknown names do not matter. -/
def decode (group : FilterGroup) : Except GroupError FilterEntries :=
  group.check.map fun _ => group.values

/-- The filter that the group describes. -/
def build (group : FilterGroup) : Except GroupError KeyFilter := do
  let entries ← group.decode
  let id := Text.trim (entries.id.getD "")
  if id.isEmpty then throw .missingId
  let contexts ← (FilterEntries.contexts entries.matchContexts).mapError .name
  let validity ← (FilterEntries.level entries.validity).mapError .name
  let ownerTrust ← (FilterEntries.level entries.ownerTrust).mapError .name
  return {
    id
    name := entries.name.getD id
    icon := entries.icon
    specificity := entries.specificity.getD 0
    contexts
    font := entries.styledFont
    foreground := entries.foregroundColor
    background := entries.backgroundColor
    rule := .criteria (entries.criteria validity ownerTrust) }

end FilterGroup

end KeyForest.Config
