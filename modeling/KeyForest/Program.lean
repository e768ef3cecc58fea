import KeyForest.CommandLine
import KeyForest.Config.Load
import KeyForest.Keyring
import KeyForest.Report

/-!
# The program

`Program.run` answers a command line: it reads the configuration, looks up the filter that was asked
for, reads the keyring and prints a report, in this order, so that the first of these that fails
decides the error. Nothing is printed before all of them have succeeded.
-/
namespace KeyForest

/-- What is around the program. -/
structure Surroundings where
  /-- The environment variables. -/
  environment : String → Option String
  /-- What is found at a path. -/
  file : String → FileContent
  /-- Whether the output goes to a terminal. -/
  isTerminal : Bool

namespace Surroundings

/-- The environment variables that are asked for. -/
def environmentNames : List String :=
  ["CERTLIST_CONFIG", "XDG_CONFIG_HOME", "HOME", "CLICOLOR_FORCE", "NO_COLOR", "CLICOLOR",
   "COLORTERM"]

/-- What the output can show. Styles may be forced or forbidden; else they are for terminals. -/
def terminal (around : Surroundings) : Terminal where
  isStyled :=
    if (around.environment "CLICOLOR_FORCE").any (· != "0") then true
    else if (around.environment "NO_COLOR").isSome then false
    else around.isTerminal && (around.environment "CLICOLOR").all (· != "0")
  isFullColor := (around.environment "COLORTERM").any fun colors =>
    colors == "truecolor" || colors == "24bit"

/-- A path under a directory. -/
def within (directory name : String) : String :=
  if directory.endsWith "/" then directory ++ name else directory ++ "/" ++ name

/-- The directory of configurations, which is in the home directory unless another is set. -/
def configurationHome? (around : Surroundings) : Option String :=
  match (around.environment "XDG_CONFIG_HOME").filter (·.startsWith "/") with
  | some directory => some directory
  | none =>
    ((around.environment "HOME").filter (!·.isEmpty)).map fun home => within home ".config"

/-- The place of the configuration file if none is named. -/
def defaultConfiguration? (around : Surroundings) : Option String :=
  around.configurationHome?.map fun home => within (within home "certlist") "certlist.toml"

/-- The configuration file that is named, on the command line or else in the environment. -/
def namedConfiguration? (around : Surroundings) (invocation : Invocation) : Option String :=
  invocation.configuration <|> around.environment "CERTLIST_CONFIG"

end Surroundings

/-- Work that writes to the log and may fail. -/
abbrev Task (α : Type) := ExceptT ProgramError (StateM (List LogEvent)) α

namespace Program

def log (events : List LogEvent) : Task Unit := modify (· ++ events)

/-- The result of work that tells its events with it. -/
def telling {α : Type} : Except ProgramError (α × List LogEvent) → Task α
  | .ok (value, events) => do
    log events
    return value
  | .error error => throw error

/-- The configuration that applies. -/
def settings (around : Surroundings) (invocation : Invocation) : Task Config.Settings :=
  match around.namedConfiguration? invocation, around.defaultConfiguration? with
  | some path, _ => telling (Config.Settings.load path (around.file path))
  | none, some path => telling (Config.Settings.loadDefault path (around.file path))
  | none, none => pure {}

/-- The filter with this name. -/
def filterNamed (ranking : Ranking) (id : String) : Task KeyFilter :=
  match ranking.byId? id with
  | some filter => pure filter
  | none => throw (.unknownFilter id)

def keyring (around : Surroundings) (path : String) : Task (List Key) :=
  telling ((Keyring.load path (around.file path)).map fun (keys, event) => (keys, [event]))

/-- Runs of `size + 1` keys, the last of which may be shorter. -/
def batches (size : Nat) : List Key → List (List Key)
  | [] => []
  | key :: keys => (key :: keys.take size) :: batches size (keys.drop size)
termination_by keys => keys.length
decreasing_by simp only [List.length_drop, List.length_cons]; omega

/-- The batches are the keys, in their order. -/
@[simp] theorem flatten_batches (size : Nat) (keys : List Key) :
    (batches size keys).flatten = keys := by
  fun_induction batches size keys with
  | case1 => rfl
  | case2 key keys ih => simp [ih]

theorem length_le_of_mem_batches {size : Nat} {keys batch : List Key}
    (h : batch ∈ batches size keys) : batch.length ≤ size + 1 := by
  fun_induction batches size keys with
  | case1 => simp at h
  | case2 key keys ih =>
    rcases List.mem_cons.1 h with rfl | h
    · simp only [List.length_cons, List.length_take]
      omega
    · exact ih h

/-- A key list made of batches. -/
def built (σ : Type) [KeyList σ] (label : String) (batches : List (List Key)) : Task σ := do
  let journal := batches.foldl (fun journal keys => (KeyList.add journal keys).1)
    (KeyList.fresh : Journal σ)
  log (journal.fullLog label)
  return journal.state

/-- What a command prints. -/
def output (around : Surroundings) (report : Report) (configuration : Option String) :
    Command → Task String
  | .tree path size id text => do
    let filter ← id.mapM (filterNamed report.ranking)
    let keys ← keyring around path
    let forest ← built Forest "tree" (batches ((size.getD keys.length) - 1) keys)
    let whole := Projection.ofState forest
    let filtered := whole.withFilter filter
    let projection := filtered.withQuery text
    log [whole.event, filtered.event, projection.event]
    return report.forest keys.length projection
  | .list path => do
    let keys ← keyring around path
    return report.flatList (← built FlatList "list" [keys])
  | .classify path all => do
    let keys ← keyring around path
    return report.classification all (Bucket.ofBatch keys)
  | .filters => return report.filters configuration

/-- What an invocation prints. -/
def answer (around : Surroundings) (invocation : Invocation) : Task String := do
  let settings ← settings around invocation
  let (ranking, events) := settings.ranking
  log events
  let report : Report := ⟨around.terminal, ranking⟩
  output around report (around.namedConfiguration? invocation) invocation.command

/-- How the program ends. -/
inductive Outcome where
  | done (output : String)
  | failed (error : ProgramError)
  | misused (error : CommandLine.UsageError)

namespace Outcome

def exitCode : Outcome → UInt32
  | done _ => 0
  | failed _ => 1
  | misused _ => 2

/-- The text for the standard output. -/
def output : Outcome → String
  | done output => output
  | _ => ""

/-- The text that tells of an error. -/
def complaint (terminal : Terminal) : Outcome → String
  | done _ => ""
  | failed error =>
    let message := error.message
    Report.ofLines [Report.marked terminal .red "✗" s!"Error: {message}"]
  | misused error => Report.ofLines ["certlist: " ++ error.message, "Try 'certlist --help'."]

end Outcome

def version : String := "certlist 0.3.0\n"

def help : String := Report.ofLines
  ["Organize certificate key lists by fingerprint, issuer and filter.",
   "",
   "Usage: certlist [OPTIONS] <COMMAND>",
   "",
   "Commands:",
   "  tree <KEYRING>      Show certificates as a tree of issuer chains",
   "    --batch-size <N>    Feed the keyring to the tree in batches of this size",
   "    --filter <ID>       Only show certificates matching this filter",
   "    --search <TEXT>     Only show certificates whose fingerprint or user ID contains this text",
   "  list <KEYRING>      Show certificates as a flat list ordered by fingerprint",
   "  classify <KEYRING>  Show which filter classifies each certificate",
   "    --all               List every matching filter, not just the most specific one",
   "  filters             List the available key filters in priority order",
   "  help                Show this text",
   "",
   "Options:",
   "      --config <PATH>  Path to alternative config file",
   "  -v, --verbose        Verbose output (debug logging on stderr)",
   "  -h, --help           Show this text",
   "  -V, --version        Show the version"]

/-- The paths of the files that an invocation may read. -/
def paths (around : Surroundings) (invocation : Invocation) : List String :=
  let keyring := match invocation.command with
    | .tree path .. | .list path | .classify path _ => [path]
    | .filters => []
  ((around.namedConfiguration? invocation) <|> around.defaultConfiguration?).toList ++ keyring

/-- Whether an event is written to the log. -/
def isLogged (verbose : Bool) (event : LogEvent) : Bool :=
  match event.severity with
  | .warn => true
  | .debug => verbose
  | .trace => false

/-- How the program ends for a command line, and what it writes to its log. -/
def run (around : Surroundings) (arguments : List String) : Outcome × List LogEvent :=
  match CommandLine.parse arguments with
  | .error .help => (.done help, [])
  | .error .version => (.done version, [])
  | .error (.mistake error) => (.misused error, [])
  | .ok invocation =>
    let (result, events) := (answer around invocation).run.run []
    let outcome := match result with
      | .ok output => .done output
      | .error error => .failed error
    (outcome, events.filter (isLogged invocation.verbose))

end Program

end KeyForest
