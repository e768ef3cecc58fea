import KeyForest.FlatList
import KeyForest.Filter.Ranking
import KeyForest.Forest.Update
import KeyForest.Projection
import KeyForest.Terminal

/-!
# Reports

What the commands print: a title after an empty line, and a line for each key or filter.
-/
namespace KeyForest

/-- What the look of a report depends on. -/
structure Report where
  terminal : Terminal
  ranking : Ranking

namespace Report

/-- The text of lines, each with its end. -/
def ofLines (lines : List String) : String := String.join (lines.map (· ++ "\n"))

def paint (report : Report) (style : Style) (text : String) : String :=
  style.paint report.terminal text

/-- A mark in a color before a text. -/
def marked (terminal : Terminal) (color : NamedColor) (mark text : String) : String :=
  "  " ++ (Style.colored color).paint terminal mark ++ " " ++ text

def title (report : Report) (text : String) : List String :=
  ["", report.paint { bold := true } text]

/-- Fills a text up with blanks behind it. -/
def fillRight (width : Nat) (text : String) : String :=
  String.ofList (text.toList.rightpad width ' ')

/-- Fills a text up with blanks in front of it. -/
def fillLeft (width : Nat) (text : String) : String :=
  String.ofList (text.toList.leftpad width ' ')

/-- A key with its primary user ID, in its appearance, and the name of its most specific filter. -/
def keyLine (report : Report) (key : Key) : String :=
  let ranking := report.ranking
  let icon := ((ranking.icon key).map (· ++ " ")).getD ""
  let label := key.fingerprint.text ++ ((key.primaryUserId.map ("  " ++ ·)).getD "")
  let style :=
    Style.ofAppearance (ranking.font key) (ranking.foreground key) (ranking.background key)
  let filter := (ranking.firstMatching key .any).map fun filter => "  [" ++ filter.name ++ "]"
  icon ++ report.paint style label ++ report.paint { dimmed := true } (filter.getD "")

def certificates (report : Report) (count : Nat) : List String :=
  report.title s!"Certificates ({count})"

/-- A row of a forest, indented by its depth and marked if its issuer is missing. -/
def forestLine (report : Report) (forest : Forest) (depth : Nat) (key : Key) : String :=
  let mark := match forest.membership key.fingerprint with
    | .waitingFor _ => report.paint (.colored .yellow) " (issuer missing)"
    | _ => ""
  String.ofList (List.replicate (2 * (depth + 1)) ' ') ++ report.keyLine key ++ mark

/-- The visible rows of a forest, which was made of `read` keys of a keyring. -/
def forest (report : Report) (read : Nat) (projection : Projection Forest) : String :=
  let stored := Listing.size projection.state
  let shown := projection.visibleCount
  let lines := projection.visibleTree.map fun (depth, key) =>
    report.forestLine projection.state depth key
  let hidden := if shown < stored then ["", s!"  {shown} of {stored} certificates shown"] else []
  let ignored := read - stored
  let notice := if ignored = 0 then [] else
    [marked report.terminal .yellow "⚠" s!"{ignored} duplicate or empty entries ignored"]
  ofLines (report.certificates stored ++ lines ++ hidden ++ notice)

/-- The keys of a flat list. -/
def flatList (report : Report) (list : FlatList) : String :=
  ofLines (report.certificates (Listing.size list) ++ list.keys.map ("  " ++ report.keyLine ·))

/-- The filters that accept a key: all of them, or the most specific one. -/
def classification (report : Report) (all : Bool) (keys : Bucket) : String :=
  let line (key : Key) : String :=
    let filters := if all then report.ranking.allMatching key .any
      else (report.ranking.firstMatching key .any).toList
    let found := if filters.isEmpty then report.paint { dimmed := true } "(unclassified)"
      else report.paint (.colored .cyan) (", ".intercalate (filters.map (·.id)))
    "  " ++ key.fingerprint.text ++ "  " ++ found
  ofLines (report.title "Classification" ++ keys.map line)

/-- The filters by their rank, and the path of the configuration file that was named. -/
def filters (report : Report) (configuration : Option String) : String :=
  let ranking := report.ranking
  let count := ranking.filters.length
  let mode := ranking.compliance.name
  let line (entry : KeyFilter × Nat) : String :=
    let (filter, row) := entry
    "  " ++ fillLeft 2 (toString (row + 1)) ++ ". "
      ++ report.paint (.colored .cyan) (fillRight 28 filter.id) ++ " "
      ++ fillRight 32 filter.name ++ " " ++ fillLeft 10 (toString filter.specificity) ++ "  "
      ++ report.paint { dimmed := true } filter.contexts.name
  let source := configuration.toList.map fun path =>
    marked report.terminal .green "✓" s!"Configuration: {path}"
  ofLines (report.title s!"Key filters ({count}, compliance: {mode})"
    ++ ranking.filters.zipIdx.map line ++ source)

end Report

end KeyForest
