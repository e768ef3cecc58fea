import KeyForest.Json.Reader
import KeyForest.Key.Encoding
import KeyForest.ProgramError

/-!
# Keyring files

A keyring is a JSON list of keys.
-/
namespace KeyForest.Keyring

/-- The keys of a keyring document. -/
def parse (document : String) : Option (List Key) :=
  (Json.parse document).bind (Json.readList Key.ofJson?)

/-- The keys in a keyring file, with the event that tells of them. -/
def load (path : String) (file : FileContent) : Except ProgramError (List Key × LogEvent) := do
  let document ← file.read path
  match parse document with
  | some keys => return (keys, .keyringRead keys.length)
  | none => throw (.keyring path "the document is not a list of keys")

end KeyForest.Keyring
