import KeyForest.Validity

/-!
# Occasions for asking a filter

A filter is consulted to style rows (`appearance`) or to narrow a key list down (`filtering`).
`Contexts` is a set of these occasions.
-/
namespace KeyForest

structure Contexts where
  appearance : Bool
  filtering : Bool
deriving DecidableEq, Repr

namespace Contexts

def none : Contexts := ⟨false, false⟩

def appearanceOnly : Contexts := ⟨true, false⟩

def filteringOnly : Contexts := ⟨false, true⟩

def any : Contexts := ⟨true, true⟩

def union (a b : Contexts) : Contexts := ⟨a.appearance || b.appearance, a.filtering || b.filtering⟩

def inter (a b : Contexts) : Contexts := ⟨a.appearance && b.appearance, a.filtering && b.filtering⟩

def isEmpty (a : Contexts) : Bool := a == none

/-- Whether the sets have an occasion in common. -/
def intersects (a b : Contexts) : Bool := !(a.inter b).isEmpty

/-- Whether every occasion of `b` is in `a`. -/
def includes (a b : Contexts) : Bool := a.inter b == b

def name (a : Contexts) : String :=
  if a = none then "none"
  else if a = appearanceOnly then "appearance"
  else if a = filteringOnly then "filtering"
  else "any"

/-- The set that a person names. -/
def parse (s : String) : Except NameError Contexts :=
  let word := Text.keyword s
  if word = "appearance" then .ok appearanceOnly
  else if word = "filtering" then .ok filteringOnly
  else if word = "any" || word = "any-match-context" then .ok any
  else .error (.context word)

/-- The union of the sets that a list of texts names. -/
def parseList (names : List String) : Except NameError Contexts :=
  names.foldlM (fun contexts name => (parse name).map contexts.union) none

end Contexts

/-- The rules that a key list is kept by. Only VS-NfD has rules of its own here. -/
inductive Compliance where
  | standard
  | deVs
  /-- Rules of this name, of which nothing else is known. -/
  | other (name : String)
deriving DecidableEq, Repr

namespace Compliance

def isDeVs : Compliance → Bool
  | deVs => true
  | _ => false

def name : Compliance → String
  | standard => "gnupg"
  | deVs => "de-vs"
  | other name => name

/-- The rules that a person names; every text names some. -/
def parse (s : String) : Compliance :=
  let word := Text.keyword s
  if word = "" || word = "gnupg" then standard else if word = "de-vs" then deVs else other word

end Compliance

end KeyForest
