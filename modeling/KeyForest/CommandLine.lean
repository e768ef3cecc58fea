import KeyForest.Text.Digits

/-!
# The command line

A command line is read from left to right, first the part before the name of the command and then
the part after it. The first mistake, or the first wish for help or for the version, ends the
reading.
-/
namespace KeyForest

/-- What the program is asked to do. -/
inductive Command where
  /-- Show the forest of a keyring, which is merged in batches if their size is given. -/
  | tree (keyring : String) (batchSize : Option Nat) (filter search : Option String)
  | list (keyring : String)
  /-- Show the filters that accept each key: all of them, or the most specific one. -/
  | classify (keyring : String) (all : Bool)
  | filters
deriving DecidableEq, Repr

/-- A command line that can be carried out. -/
structure Invocation where
  command : Command
  verbose : Bool
  /-- The path of the configuration file, if the command line names one. -/
  configuration : Option String
deriving DecidableEq, Repr

namespace CommandLine

inductive UsageError where
  | unknownCommand (name : String)
  | missingCommand
  | unexpected (argument : String)
  | missingKeyring
  | missingValue (option : String)
  | needlessValue (option : String)
  | repeated (option : String)
  | invalidNumber (text : String)
deriving DecidableEq, Repr

def UsageError.message : UsageError → String
  | unknownCommand name => s!"there is no command '{name}'"
  | missingCommand => "a command is missing"
  | unexpected argument => s!"'{argument}' is not expected here"
  | missingKeyring => "the keyring to read is missing"
  | missingValue option => s!"'--{option}' needs a value"
  | needlessValue option => s!"'--{option}' takes no value"
  | repeated option => s!"'--{option}' is given twice"
  | invalidNumber text => s!"'{text}' is not a number of keys"

/-- What ends the reading of a command line before its end. -/
inductive Halt where
  | help
  | version
  | mistake (error : UsageError)
deriving DecidableEq, Repr

/-- An option without a value. -/
inductive Switch where
  | help
  | version
  | verbose
  | all
deriving DecidableEq, Repr

/-- An option with a value. -/
inductive Setting where
  | config
  | batchSize
  | filter
  | search
deriving DecidableEq, Repr

def Switch.name : Switch → String
  | help => "help"
  | version => "version"
  | verbose => "verbose"
  | all => "all"

/-- The letter that stands for a switch after a single dash. -/
def Switch.letter? : Switch → Option Char
  | help => some 'h'
  | version => some 'V'
  | verbose => some 'v'
  | all => none

def Setting.name : Setting → String
  | config => "config"
  | batchSize => "batch-size"
  | filter => "filter"
  | search => "search"

/-- A number of at most 64 bits, with or without a plus sign. -/
def readCount (text : String) : Option Nat :=
  match text.toList with
  | '+' :: digits => Text.count? digits
  | digits => Text.count? digits

/-- What a part of the command line can hold. -/
structure Part where
  switches : List Switch
  settings : List Setting
  /-- Whether words are taken; otherwise the first one ends the part. -/
  takesWord : Bool

/-- What is before the command. -/
def Part.general : Part := ⟨[.help, .version, .verbose], [.config], false⟩

/-- What is after a command, with the options of its own. -/
def Part.ofCommand (switches : List Switch) (settings : List Setting) (takesWord : Bool) : Part :=
  ⟨[.help, .verbose] ++ switches, .config :: settings, takesWord⟩

/-- What has been read of a part. -/
structure Given where
  switches : List Switch := []
  settings : List (Setting × String) := []
  word : Option String := none

namespace Given

/-- Takes a switch, which may be the wish for help or for the version. -/
def turnOn (given : Given) (switch : Switch) : Except Halt Given :=
  match switch with
  | .help => .error .help
  | .version => .error .version
  | _ =>
    if given.switches.contains switch then .error (.mistake (.repeated switch.name))
    else .ok { given with switches := switch :: given.switches }

def value? (given : Given) (setting : Setting) : Option String := given.settings.lookup setting

/-- Takes a setting; a batch size has to be a number. -/
def assign (given : Given) (setting : Setting) (value : String) : Except Halt Given :=
  if setting = .batchSize ∧ (readCount value).isNone then .error (.mistake (.invalidNumber value))
  else if (given.value? setting).isSome then .error (.mistake (.repeated setting.name))
  else .ok { given with settings := (setting, value) :: given.settings }

def putWord (given : Given) (word : String) : Except Halt Given :=
  if given.word.isSome then .error (.mistake (.unexpected word))
  else .ok { given with word := some word }

end Given

/-- What an argument is taken for. -/
inductive Piece where
  | word
  /-- Two dashes, after which there are words only. -/
  | divider
  /-- Letters after a single dash. -/
  | letters (letters : List Char)
  | long (name : String) (value : Option String)

/-- What an argument is taken for by its dashes; a dash alone is a word. -/
def Piece.ofArgument (argument : String) : Piece :=
  match argument.toList with
  | ['-', '-'] => .divider
  | '-' :: '-' :: rest =>
    let value := rest.dropWhile (· != '=')
    .long (String.ofList (rest.takeWhile (· != '=')))
      (if value.isEmpty then none else some (String.ofList (value.drop 1)))
  | ['-'] => .word
  | '-' :: rest => .letters rest
  | _ => .word

def Piece.isWord : Piece → Bool
  | word => true
  | _ => false

namespace Part

/-- Takes a letter for the switch that it stands for. -/
def turnOnLetter (part : Part) (given : Given) (letter : Char) : Except Halt Given :=
  match part.switches.find? (·.letter? == some letter) with
  | some switch => given.turnOn switch
  | none => .error (.mistake (.unexpected (String.ofList ['-', letter])))

/-- Reads a part and answers what it holds and what is left. -/
def read (part : Part) (given : Given) : List String → Except Halt (Given × List String)
  | [] => .ok (given, [])
  | argument :: rest =>
    match Piece.ofArgument argument with
    | .word =>
      if part.takesWord then do
        let given ← given.putWord argument
        part.read given rest
      else .ok (given, argument :: rest)
    | .divider =>
      match part.takesWord, rest with
      | false, extra :: _ => .error (.mistake (.unexpected extra))
      | _, words => do
        let given ← words.foldlM Given.putWord given
        return (given, [])
    | .letters letters => do
      let given ← letters.foldlM part.turnOnLetter given
      part.read given rest
    | .long name value =>
      match part.switches.find? (·.name == name), part.settings.find? (·.name == name), value with
      | some _, _, some _ => .error (.mistake (.needlessValue name))
      | some switch, _, none => do
        let given ← given.turnOn switch
        part.read given rest
      | none, some setting, some value => do
        let given ← given.assign setting value
        part.read given rest
      | none, some setting, none =>
        match rest with
        | value :: rest =>
          if (Piece.ofArgument value).isWord then do
            let given ← given.assign setting value
            part.read given rest
          else .error (.mistake (.missingValue name))
        | [] => .error (.mistake (.missingValue name))
      | none, none, _ => .error (.mistake (.unexpected argument))

end Part

/-- The names of the commands. -/
def commandNames : List String := ["tree", "list", "classify", "filters", "help"]

/-- The part that follows the name of a command. -/
def partOf? : String → Option Part
  | "tree" => some (.ofCommand [] [.batchSize, .filter, .search] true)
  | "list" => some (.ofCommand [] [] true)
  | "classify" => some (.ofCommand [.all] [] true)
  | "filters" => some (.ofCommand [] [] false)
  | _ => none

/-- The command of this name with what is given for it. -/
def commandOf (name : String) (given : Given) : Except Halt Command :=
  if name = "filters" then .ok .filters
  else
    match given.word with
    | none => .error (.mistake .missingKeyring)
    | some keyring =>
      if name = "list" then .ok (.list keyring)
      else if name = "classify" then .ok (.classify keyring (given.switches.contains .all))
      else .ok (.tree keyring ((given.value? .batchSize).bind readCount) (given.value? .filter)
        (given.value? .search))

/-- Reads the rest of a command line after the word `help`. -/
def readHelp : List String → Halt
  | [] => .help
  | [name] => if commandNames.contains name then .help else .mistake (.unknownCommand name)
  | name :: next :: _ =>
    .mistake (if commandNames.contains name then .unexpected next else .unknownCommand name)

/-- Reads a command line. What is given after the command goes before what is given ahead of it. -/
def parse (arguments : List String) : Except Halt Invocation := do
  let (general, rest) ← Part.general.read {} arguments
  match rest with
  | [] => throw (.mistake .missingCommand)
  | name :: rest =>
    if name = "help" then throw (readHelp rest)
    let some part := partOf? name | throw (.mistake (.unknownCommand name))
    let (given, rest) ← part.read {} rest
    if let extra :: _ := rest then throw (.mistake (.unexpected extra))
    let command ← commandOf name given
    return {
      command
      verbose := general.switches.contains .verbose || given.switches.contains .verbose
      configuration := given.value? .config <|> general.value? .config }

end CommandLine

end KeyForest
