import KeyForest.Config.FilterGroup
import KeyForest.LogEvent
import KeyForest.Toml.Document

/-!
# Configuration documents

A configuration has a section `general` and any number of filter groups, which are the tables named
`Key Filter #` and a number. The groups are ordered by that number, groups of equal number by their
names. Everything else in the document is passed over.
-/
namespace KeyForest.Config

structure Settings where
  /-- The name of the compliance mode, if one is given. -/
  compliance : Option String := none
  groups : List FilterGroup := []

/-- Why a document is no configuration. -/
inductive SettingsError where
  | malformed (detail : String)
  | general (error : DecodeError)

def SettingsError.message : SettingsError → String
  | malformed detail => s!"Failed to parse configuration: {detail}"
  | general error => s!"Invalid [general] section: {error.message}"

namespace Settings

def complianceMode (settings : Settings) : Compliance :=
  (settings.compliance.map Compliance.parse).getD .standard

/-- The compliance mode that the general section names. The section may also be written as an array
of its one entry. -/
def decodeGeneral : Toml.Value → Except DecodeError (Option String)
  | .table entries =>
    match Toml.Table.get? entries "compliance" with
    | none => .ok none
    | some value => (decodeText value).map some
  | .array [] => .error (.sectionLength 0)
  | .array (value :: rest) => do
    let compliance ← decodeText value
    if rest.isEmpty then return some compliance else throw (.sectionLength (rest.length + 1))
  | value => .error (.wrongType value .generalSection)

/-- The words before the number in the name of a filter group. -/
def groupTitle : String := "Key Filter #"

/-- The number of the filter group with this name. A number of more than 64 bits makes no group. -/
def groupNumber? (name : String) : Option Nat :=
  let title := groupTitle.toList
  let digits := name.toList.drop title.length
  if title.isPrefixOf name.toList then Text.count? digits else none

/-- What a table of the document contributes: a numbered group, or only an event for the log. -/
def readGroup (name : String) (value : Toml.Value) : (Nat × FilterGroup) ⊕ LogEvent :=
  match groupNumber? name, value with
  | some number, .table entries => .inl (number, ⟨name, entries⟩)
  | some _, _ => .inr (.groupNotTable name)
  | none, _ => .inr (.unknownTable name)

/-- The configuration that the top table of a document holds. -/
def ofTable (table : Toml.Table) : Except DecodeError (Settings × List LogEvent) := do
  let compliance ← match table.get? "general" with
    | some value => decodeGeneral value
    | none => .ok none
  let found := (table.filter (·.1 != "general")).map fun (name, value) => readGroup name value
  let numbered := found.filterMap Sum.getLeft?
  let groups := (numbered.mergeSort fun a b => decide (a.1 ≤ b.1)).map (·.2)
  return ({ compliance, groups }, found.filterMap Sum.getRight?)

/-- The configuration that a document holds. -/
def parse (document : String) : Except SettingsError (Settings × List LogEvent) :=
  match Toml.parse document with
  | none => .error (.malformed "the document is not valid TOML")
  | some table => (ofTable table).mapError .general

end Settings

end KeyForest.Config
