import KeyForest.Text.Quoted
import KeyForest.Toml.Value

/-!
# Values of configuration entries

What a configuration entry has to be, and what is said when it is something else. A date or time is
taken as its text.
-/
namespace KeyForest.Config

/-- What an entry should have been. -/
inductive Wanted where
  | text
  | boolean
  | natural32
  | generalSection
deriving DecidableEq, Repr

def Wanted.name : Wanted → String
  | text => "a string"
  | boolean => "a boolean"
  | natural32 => "u32"
  | generalSection => "struct GeneralSection"

/-- Why the value of an entry cannot be used. -/
inductive DecodeError where
  | wrongType (found : Toml.Value) (wanted : Wanted)
  /-- A number outside of the 32 bits that there are for it. -/
  | outOfRange (found : Int)
  | notContexts
  /-- A list of no or of several elements where the one element of the section should be. -/
  | sectionLength (found : Nat)

/-- The value in the words of an error message. -/
def describe : Toml.Value → String
  | .string value => "string " ++ Text.quoted value
  | .moment text => "string " ++ Text.quoted text
  | .integer value => "integer `" ++ toString value ++ "`"
  | .float value => "floating point `" ++ value.toText ++ "`"
  | .boolean value => if value then "boolean `true`" else "boolean `false`"
  | .array _ => "sequence"
  | .table _ => "map"

def DecodeError.message : DecodeError → String
  | wrongType found wanted => s!"invalid type: {describe found}, expected {wanted.name}"
  | outOfRange found => "invalid value: integer `" ++ toString found ++ "`, expected u32"
  | notContexts => "data did not match any variant of untagged enum ContextsEntry"
  | sectionLength found =>
    if found = 0 then "invalid length 0, expected struct GeneralSection with 1 element"
    else s!"invalid length {found}, expected fewer elements in array"

/-- The text of a value that is a text. -/
def text? : Toml.Value → Option String
  | .string value => some value
  | .moment text => some text
  | _ => none

def boolean? : Toml.Value → Option Bool
  | .boolean value => some value
  | _ => none

def decodeText (value : Toml.Value) : Except DecodeError String :=
  match text? value with
  | some text => .ok text
  | none => .error (.wrongType value .text)

def decodeBoolean (value : Toml.Value) : Except DecodeError Bool :=
  match boolean? value with
  | some flag => .ok flag
  | none => .error (.wrongType value .boolean)

/-- A natural number of 32 bits. -/
def decodeNatural32 : Toml.Value → Except DecodeError Nat
  | .integer n => if 0 ≤ n ∧ n < 0x100000000 then .ok n.toNat else .error (.outOfRange n)
  | value => .error (.wrongType value .natural32)

/-- One text, or a list of texts. -/
def decodeTexts : Toml.Value → Except DecodeError (String ⊕ List String)
  | .array items =>
    match items.mapM text? with
    | some texts => .ok (.inr texts)
    | none => .error .notContexts
  | value =>
    match text? value with
    | some text => .ok (.inl text)
    | none => .error .notContexts

end KeyForest.Config
