import KeyForest.Config.Settings

/-!
# Errors of the program

Only reading files, finding a filter by name and the command line can fail; everything that is done
to key lists is total.
-/
namespace KeyForest

inductive ProgramError where
  | fileNotFound (path : String)
  | keyring (path detail : String)
  /-- A document that is no configuration, with the path of its file if it was in one. -/
  | configuration (path : Option String) (error : Config.SettingsError)
  | unknownFilter (id : String)
  /-- A file that is there but cannot be read. -/
  | unreadable (reason : String)

def ProgramError.message : ProgramError → String
  | fileNotFound path =>
    s!"File not found: {path}\n\n  Check that the path is correct and the file exists."
  | keyring path detail =>
    s!"Could not read keyring {path}: {detail}\n\n" ++
      "  Expected a JSON array of key objects, each with at least a \"fingerprint\".\n" ++
      "  Example: [\x7b\"fingerprint\": \"AAAA\", \"is_root\": true\x7d]"
  | configuration path error =>
    let place := (path.map (· ++ ": ")).getD ""
    s!"Invalid configuration: {place}{error.message}\n\n" ++
      "  Filter groups live in tables named [\"Key Filter #N\"] and need an `id`.\n" ++
      "  The compliance mode is set in [general] compliance = \"de-vs\"."
  | unknownFilter id =>
    s!"Unknown key filter: {id}\n\n  Run 'certlist filters' to list the available filter ids."
  | unreadable reason => reason

/-- What is found at a path. -/
inductive FileContent where
  | missing
  /-- Something that cannot be read as text, and why. -/
  | unreadable (reason : String)
  | text (content : String)
deriving DecidableEq

namespace FileContent

/-- A file of these bytes, which are text if they are UTF-8. -/
def ofBytes (bytes : List UInt8) : FileContent :=
  match String.fromUTF8? ⟨bytes.toArray⟩ with
  | some content => .text content
  | none => .unreadable "stream did not contain valid UTF-8"

def directory : FileContent := .unreadable "Is a directory (os error 21)"

/-- The text of a file. -/
def read (path : String) : FileContent → Except ProgramError String
  | missing => .error (.fileNotFound path)
  | unreadable reason => .error (.unreadable reason)
  | text content => .ok content

end FileContent

end KeyForest
