import KeyForest.Filter.KeyFilter

/-!
# Built-in filters

The built-in filters stand at the very top of the range of specificities, so that a configured
filter outranks one of them only by asking for it.
-/
namespace KeyForest.KeyFilter

/-- The highest specificity that there is. -/
def maxSpecificity : Nat := 4294967295

/-- A filter so many places below the top. -/
def builtin (place : Nat) (id name : String) (contexts : Contexts) (rule : Rule) : KeyFilter :=
  { id, name, specificity := maxSpecificity - place, contexts, rule }

def myCertificates : KeyFilter :=
  { builtin 0 "my-certificates" "My Certificates" .any
      (.criteria { hasSecret := .set }) with
    font := { bold := true } }

def foreignCertificates : KeyFilter :=
  builtin 1 "foreign-certificates" "Foreign Certificates" .any
    (.criteria { hasSecret := .notSet })

def trustedCertificates : KeyFilter :=
  builtin 2 "trusted-certificates" "Trusted Certificates" .filteringOnly
    (.criteria { revoked := .notSet, validity := some ⟨.isAtLeast, .marginal⟩ })

def fullCertificates : KeyFilter :=
  builtin 3 "full-certificates" "Fully Trusted Certificates" .filteringOnly
    (.criteria { revoked := .notSet, validity := some ⟨.isAtLeast, .full⟩ })

def otherCertificates : KeyFilter :=
  builtin 4 "other-certificates" "Other Certificates" .filteringOnly
    (.criteria { hasSecret := .notSet, validity := some ⟨.isAtMost, .never⟩ })

def notValidatedCertificates : KeyFilter :=
  builtin 5 "not-validated-certificates" "Not validated Certificates" .filteringOnly .notFullyValid

def compliantCertificates : KeyFilter :=
  builtin 6 "vs-compliant-certificates" "VS-NfD-compliant Certificates" .filteringOnly .deVs

def allCertificates : KeyFilter :=
  builtin 7 "all-certificates" "All Certificates" .filteringOnly (.criteria {})

/-- The built-in filters that classify keys, most specific first. -/
def builtins (compliance : Compliance) : List KeyFilter :=
  [myCertificates, foreignCertificates, trustedCertificates, fullCertificates, otherCertificates,
    notValidatedCertificates] ++
  (if compliance.isDeVs then [compliantCertificates] else []) ++ [allCertificates]

/-- The background of keys that may be used under VS-NfD. -/
def positiveBackground : Color := ⟨0xD5, 0xFA, 0xE2⟩

/-- The background of keys that may not be used under VS-NfD. -/
def negativeBackground : Color := ⟨0xFA, 0xE9, 0xEB⟩

def deVsValidAppearance : KeyFilter :=
  { builtin 0 "de-vs-valid-appearance" "VS-NfD valid" .appearanceOnly .deVsValid with
    background := some positiveBackground }

def deVsNotValidAppearance : KeyFilter :=
  { builtin 1 "de-vs-not-valid-appearance" "VS-NfD not valid" .appearanceOnly .notDeVsValid with
    background := some negativeBackground }

/-- The built-in filters that only style rows; they are asked before all others. -/
def appearanceBuiltins (compliance : Compliance) : List KeyFilter :=
  if compliance.isDeVs then [deVsValidAppearance, deVsNotValidAppearance] else []

end KeyForest.KeyFilter
