import KeyForest.Fingerprint
import KeyForest.Timestamp
import KeyForest.Validity

/-!
# Keys

A key is a certificate as its source delivers it, with all flags computed already. `cleanIssuer` is
the issuer by which a key is placed in a forest; a root has none, nor has a key that names itself.
Two keys stand for the same certificate (`same`) when their fingerprints are equal.
-/
namespace KeyForest

inductive Protocol where
  | openPgp
  | cms
deriving DecidableEq, Repr, Inhabited

namespace Protocol

def name : Protocol → String
  | openPgp => "openpgp"
  | cms => "cms"

/-- The protocol with exactly this name. -/
def ofName? (s : String) : Option Protocol := [openPgp, cms].find? (·.name == s)

@[simp] theorem ofName?_name (p : Protocol) : ofName? p.name = some p := by cases p <;> decide

end Protocol

structure UserId where
  id : String := ""
  validity : Validity := .unknown
  revoked : Bool := false
deriving DecidableEq, Inhabited

structure Subkey where
  revoked : Bool := false
  expired : Bool := false
  /-- The algorithms of the subkey are approved for VS-NfD use. -/
  deVs : Bool := false
deriving DecidableEq, Inhabited

structure Key where
  fingerprint : Fingerprint := .ofText ""
  /-- The fingerprint of the issuing certificate, if one is given. -/
  chainId : Option Fingerprint := none
  isRoot : Bool := false
  protocol : Protocol := .openPgp
  hasSecret : Bool := false
  revoked : Bool := false
  expired : Bool := false
  disabled : Bool := false
  invalid : Bool := false
  canEncrypt : Bool := false
  canSign : Bool := false
  canCertify : Bool := false
  canAuthenticate : Bool := false
  isQualified : Bool := false
  isCardKey : Bool := false
  ownerTrust : Validity := .unknown
  userIds : List UserId := []
  subkeys : List Subkey := []
  created : Option Timestamp := none
  expires : Option Timestamp := none
deriving DecidableEq, Inhabited

namespace Key

/-- Whether two keys stand for the same certificate, whatever else they say. -/
def same (a b : Key) : Bool := a.fingerprint == b.fingerprint

/-- The key with this fingerprint and nothing else set. -/
def ofFingerprint (fingerprint : Fingerprint) : Key := { fingerprint }

/-! ### Building a key -/

def issuedBy (key : Key) (issuer : Fingerprint) : Key :=
  { key with chainId := some issuer, isRoot := false }

def asRoot (key : Key) : Key := { key with isRoot := true }

def withSecret (key : Key) : Key := { key with hasSecret := true }

def withUserId (key : Key) (id : String) (validity : Validity) : Key :=
  { key with userIds := key.userIds ++ [{ id, validity }] }

/-! ### What a key says -/

/-- A key without a fingerprint stands for no certificate. -/
def isNull (key : Key) : Bool := key.fingerprint.isEmpty

/-- The issuer that decides where the key is placed. -/
def cleanIssuer (key : Key) : Option Fingerprint :=
  if key.isRoot then none
  else key.chainId.filter fun issuer => !issuer.isEmpty && !(issuer == key.fingerprint)

/-- The validity of the primary user ID. -/
def validity (key : Key) : Validity := (key.userIds.head?.map (·.validity)).getD .unknown

/-- Whether every user ID is fully valid. -/
def hasFullValidity (key : Key) : Bool := key.userIds.all fun uid => decide (.full ≤ uid.validity)

/-- Whether every subkey in use is approved for VS-NfD. -/
def isDeVs (key : Key) : Bool :=
  (key.subkeys.filter fun sub => !sub.expired && !sub.revoked).all (·.deVs)

def wasValidated (key : Key) : Bool :=
  key.ownerTrust != .unknown || key.userIds.any fun uid => uid.validity != .unknown

def primaryUserId (key : Key) : Option String := key.userIds.head?.map (·.id)

/-- The key as shown in short: its fingerprint and its primary user ID. -/
def shown (key : Key) : String :=
  match key.primaryUserId with
  | some uid => s!"{key.fingerprint.text} ({uid})"
  | none => key.fingerprint.text

end Key

end KeyForest
