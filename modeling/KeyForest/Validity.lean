import KeyForest.Text.Blank
import KeyForest.Text.LetterCase

/-!
# Levels of validity

The levels that a user ID or an owner can have, in ascending order of trust, with the names by
which files and criteria call them.
-/
namespace KeyForest

inductive Validity where
  | unknown
  | undefined
  | never
  | marginal
  | full
  | ultimate
deriving DecidableEq, Repr, Inhabited

namespace Validity

/-- All levels, in ascending order. -/
def all : List Validity := [unknown, undefined, never, marginal, full, ultimate]

/-- The place of a level in the ascending order. -/
def rank : Validity → Nat
  | unknown => 0
  | undefined => 1
  | never => 2
  | marginal => 3
  | full => 4
  | ultimate => 5

instance : LE Validity := ⟨fun a b => a.rank ≤ b.rank⟩

instance (a b : Validity) : Decidable (a ≤ b) := inferInstanceAs (Decidable (a.rank ≤ b.rank))

/-- The name of a level, in lower case. -/
def name : Validity → String
  | unknown => "unknown"
  | undefined => "undefined"
  | never => "never"
  | marginal => "marginal"
  | full => "full"
  | ultimate => "ultimate"

/-- The level with exactly this name. -/
def ofName? (s : String) : Option Validity := all.find? (·.name == s)

@[simp] theorem ofName?_name (v : Validity) : ofName? v.name = some v := by cases v <;> decide

end Validity

/-- What is wrong with a text that should name something. -/
inductive NameError where
  | validity (given : String)
  | context (given : String)
  | levelForm (given : String)
  | levelOperator (given : String)
  | color (given : String)
deriving DecidableEq, Repr

/-- The message for a person. -/
def NameError.message : NameError → String
  | .validity given => s!"unknown validity level '{given}'"
  | .context given => s!"unknown match context '{given}'"
  | .levelForm given => s!"'{given}' is not of the form <op>:<level>"
  | .levelOperator given => s!"unknown level operator '{given}'"
  | .color given => s!"'{given}' is not a #RRGGBB color"

/-- A keyword as written by a person: blanks around it and letter case do not count. -/
def Text.keyword (s : String) : String := Text.lowerAscii (Text.trim s)

/-- The level that a person names. -/
def Validity.parse (s : String) : Except NameError Validity :=
  match Validity.ofName? (Text.keyword s) with
  | some v => .ok v
  | none => .error (.validity (Text.keyword s))

end KeyForest
