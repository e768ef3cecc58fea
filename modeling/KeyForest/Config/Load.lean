import KeyForest.Filter.Ranking
import KeyForest.ProgramError

/-!
# Configuration files

A configuration file that is named must be there; the file at the default place may be missing.
-/
namespace KeyForest.Config.Settings

/-- The configuration in a document that is in no file. -/
def ofDocument (document : String) : Except ProgramError (Settings × List LogEvent) :=
  (parse document).mapError (.configuration none)

/-- The configuration in a file. -/
def load (path : String) (file : FileContent) : Except ProgramError (Settings × List LogEvent) := do
  let document ← file.read path
  let (settings, events) ← (parse document).mapError (.configuration (some path))
  return (settings, events ++ [.configurationLoaded settings.groups.length])

/-- The configuration in the file at the default place, if there is one. -/
def loadDefault (path : String) (file : FileContent) :
    Except ProgramError (Settings × List LogEvent) :=
  if file = .missing then .ok ({}, []) else load path file

/-- The ranking of the configured filters. -/
def ranking (settings : Settings) : Ranking × List LogEvent :=
  let (builtin, events) := Ranking.ofCompliance settings.complianceMode
  let (ranking, more) := builtin.reload settings.groups
  (ranking, events ++ more)

end KeyForest.Config.Settings
