import KeyForest.Json.Record
import KeyForest.Key

/-!
# Keys in JSON

How keys, user IDs and subkeys stand in a keyring file. Every field may be left out.
-/
namespace KeyForest

namespace Fingerprint

def ofJson? (value : Json) : Option Fingerprint := value.text?.map ofText

def toJson (fingerprint : Fingerprint) : Json := .text fingerprint.text

end Fingerprint

namespace Validity

def ofJson? : Json → Option Validity := Json.readName ofName?

def toJson (validity : Validity) : Json := .text validity.name

end Validity

namespace Protocol

def ofJson? : Json → Option Protocol := Json.readName ofName?

def toJson (protocol : Protocol) : Json := .text protocol.name

end Protocol

namespace Timestamp

def ofJson? (value : Json) : Option Timestamp := value.text?.bind parse

def toJson (time : Timestamp) : Json := .text time.toText

end Timestamp

namespace Json

/-- A field that holds true or false. -/
def flag {α : Type} (name : String) (get : α → Bool) (set : Bool → α → α) : Field α :=
  .of name boolean? .boolean get set

end Json

namespace UserId

def fields : List (Json.Field UserId) :=
  [.of "id" Json.text? .text (·.id) fun v r => { r with id := v },
   .of "validity" Validity.ofJson? Validity.toJson (·.validity) fun v r => { r with validity := v },
   Json.flag "revoked" (·.revoked) fun v r => { r with revoked := v }]

def ofJson? : Json → Option UserId := Json.readRecord fields {}

def toJson : UserId → Json := Json.writeRecord fields

end UserId

namespace Subkey

def fields : List (Json.Field Subkey) :=
  [Json.flag "revoked" (·.revoked) fun v r => { r with revoked := v },
   Json.flag "expired" (·.expired) fun v r => { r with expired := v },
   Json.flag "de_vs" (·.deVs) fun v r => { r with deVs := v }]

def ofJson? : Json → Option Subkey := Json.readRecord fields {}

def toJson : Subkey → Json := Json.writeRecord fields

end Subkey

namespace Key

def fields : List (Json.Field Key) :=
  [.of "fingerprint" Fingerprint.ofJson? Fingerprint.toJson (·.fingerprint)
     fun v r => { r with fingerprint := v },
   .of "chain_id" (Json.readOptional Fingerprint.ofJson?) (Json.ofOption Fingerprint.toJson)
     (·.chainId) fun v r => { r with chainId := v },
   Json.flag "is_root" (·.isRoot) fun v r => { r with isRoot := v },
   .of "protocol" Protocol.ofJson? Protocol.toJson (·.protocol) fun v r => { r with protocol := v },
   Json.flag "has_secret" (·.hasSecret) fun v r => { r with hasSecret := v },
   Json.flag "revoked" (·.revoked) fun v r => { r with revoked := v },
   Json.flag "expired" (·.expired) fun v r => { r with expired := v },
   Json.flag "disabled" (·.disabled) fun v r => { r with disabled := v },
   Json.flag "invalid" (·.invalid) fun v r => { r with invalid := v },
   Json.flag "can_encrypt" (·.canEncrypt) fun v r => { r with canEncrypt := v },
   Json.flag "can_sign" (·.canSign) fun v r => { r with canSign := v },
   Json.flag "can_certify" (·.canCertify) fun v r => { r with canCertify := v },
   Json.flag "can_authenticate" (·.canAuthenticate) fun v r => { r with canAuthenticate := v },
   Json.flag "is_qualified" (·.isQualified) fun v r => { r with isQualified := v },
   Json.flag "is_card_key" (·.isCardKey) fun v r => { r with isCardKey := v },
   .of "owner_trust" Validity.ofJson? Validity.toJson (·.ownerTrust)
     fun v r => { r with ownerTrust := v },
   .of "user_ids" (Json.readList UserId.ofJson?) (Json.ofList UserId.toJson) (·.userIds)
     fun v r => { r with userIds := v },
   .of "subkeys" (Json.readList Subkey.ofJson?) (Json.ofList Subkey.toJson) (·.subkeys)
     fun v r => { r with subkeys := v },
   .of "created" (Json.readOptional Timestamp.ofJson?) (Json.ofOption Timestamp.toJson) (·.created)
     fun v r => { r with created := v },
   .of "expires" (Json.readOptional Timestamp.ofJson?) (Json.ofOption Timestamp.toJson) (·.expires)
     fun v r => { r with expires := v }]

def ofJson? : Json → Option Key := Json.readRecord fields {}

def toJson : Key → Json := Json.writeRecord fields

end Key

end KeyForest
