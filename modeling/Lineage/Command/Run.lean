import Lineage.Analysis.Document
import Lineage.Command.Documents
import Lineage.Command.Help
import Lineage.Files.Glob
import Lineage.Report.Message
import Lineage.Report.Table
import Lineage.Settings.Store
import Lineage.Stateful

/-! # Running a command

`run` gives all effects of a command line: what is printed, which files change, and the exit code.
-/

namespace Lineage.Command

/-- Why a command failed: a message and the reasons below it, nearest first. -/
structure Failure where
  message : String
  causes : List String
deriving DecidableEq, Repr

namespace Failure

/-- A failure without further reasons. -/
def plain (message : String) : Failure :=
  ⟨message, []⟩

/-- The text with blanks before each line after the first. -/
def hang (blanks : String) (text : String) : String :=
  ("\n" ++ blanks).intercalate (text.splitOn "\n")

/-- Reasons, each with its number. -/
def numbered : Nat → List String → List String
  | _, [] => []
  | number, cause :: rest =>
    ("".pushn ' ' (5 - (toString number).length) ++ s!"{number}: " ++ hang "       " cause) ::
      numbered (number + 1) rest

/-- The failure as printed. A single reason has no number. -/
def text (failure : Failure) : String :=
  let causes := match failure.causes with
    | [] => []
    | [cause] => ["", "Caused by:", "    " ++ hang "    " cause]
    | causes => ["", "Caused by:"] ++ numbered 0 causes
  "\n".intercalate (("Error: " ++ failure.message) :: causes) ++ "\n"

end Failure

/-- A piece of output. How long the analysis took is filled in when it is printed. -/
inductive Piece where
  | text (text : String)
  | closing (analyzed failed : Nat)
deriving DecidableEq, Repr

/-- What a command has done so far. -/
structure Console where
  files : Files
  output : List Piece
  errors : String

/-- A command that is carried out. -/
abbrev Program (α : Type) : Type :=
  Stateful Console Failure α

namespace Program

/-- Prints lines. -/
def say (lines : List String) : Program Unit :=
  .change fun console =>
    { console with output := console.output ++ lines.map fun line => Piece.text (line ++ "\n") }

/-- Prints the closing line about several units. -/
def close (analyzed failed : Nat) : Program Unit :=
  .change fun console => { console with output := console.output ++ [.closing analyzed failed] }

/-- Prints a line where errors go. -/
def complain (line : String) : Program Unit :=
  .change fun console => { console with errors := console.errors ++ line ++ "\n" }

/-- The schema to use. Without one, tables are made up as they are named. -/
def schema (theme : Report.Theme) (path : String) : Program Schema := do
  match loadSchema (← .read Console.files) path with
  | .error error => .fail ⟨s!"loading schema {path}", error.chain⟩
  | .ok (some schema) => return schema
  | .ok none =>
    complain
      (Report.warning theme s!"No schema at {path}; tables resolve to placeholder structures")
    return .empty

/-- The files that one of several patterns matches. -/
def matching (theme : Report.Theme) (pattern : String) : Program (List String) := do
  match (← .read Console.files).glob pattern with
  | .error fault => .fail ⟨s!"bad pattern `{pattern}`", [fault.message]⟩
  | .ok paths =>
    if paths.isEmpty then complain (Report.warning theme s!"Nothing matches {pattern}")
    return paths

/-- The files that the patterns match, in the order of their paths, each path once as it
    is first given. -/
def inputs (theme : Report.Theme) (patterns : List String) : Program (List String) := do
  let paths ← patterns.mapM (matching theme)
  let ordered := paths.flatten.mergeSort fun a b => !decide (Files.rank b < Files.rank a)
  return ordered.eraseDupsBy fun a b => Files.steps a == Files.steps b

/-- Prints the result for one unit. -/
def sayUnit (theme : Report.Theme) (edges : Bool) (path : String) :
    Except LoadError Analysis → Program Unit
  | .ok analysis => do
    say (Report.sectionLines theme path)
    say [Report.row theme "Roots" (toString analysis.roots.length), Report.kindTable analysis]
    let table := Report.edgeTable analysis
    if edges && !table.isEmpty then say [table]
  | .error error => complain (Report.failure theme s!"{path}: {error.message}")

/-- Prints the analyses of all units in one JSON document, and why units failed. -/
def sayDocuments (theme : Report.Theme) (results : List (String × Except LoadError Analysis)) :
    Program Unit := do
  for (path, result) in results do
    if let .error error := result then
      complain (Report.failure theme s!"{path}: {error.message}")
  let units := results.filterMap fun (path, result) =>
    result.toOption.map fun analysis => (path, analysis.toJson.sorted)
  let ordered := units.mergeSort fun a b => a.1 ≤ b.1
  say [(Json.object (ordered.map fun (path, unit) => (Json.encode path, unit))).pretty]

/-- Analyzes several units. -/
def analyze (theme : Report.Theme) (grammar : Grammar) (schemaPath format : String)
    (patterns : List String) (edges : Bool) : Program Unit := do
  if format != "text" && format != "json" then
    .fail (.plain s!"unknown format `{format}` (expected text or json)")
  let schema ← schema theme schemaPath
  let paths ← inputs theme patterns
  if paths.isEmpty then .fail (.plain "no input documents matched")
  let results := analyzeFiles (← .read Console.files) grammar.dialect schema paths
  let failed := results.countP fun (_, result) => !result.toOption.isSome
  if format == "json" then sayDocuments theme results
  else
    say
      [Report.header theme s!"Analyzing {paths.length} unit(s)",
       Report.info theme "Dialect" grammar.name,
       Report.info theme "Relations" (toString schema.size)]
    close (paths.length - failed) failed
    for (path, result) in results do
      sayUnit theme edges path result
  if failed > 0 then .fail (.plain s!"{failed} of {paths.length} unit(s) failed")

/-- Shows what flows into and out of one binding. -/
def lineage (theme : Report.Theme) (grammar : Grammar) (schemaPath input path : String) :
    Program Unit := do
  let schema ← schema theme schemaPath
  match analyzeFile (← .read Console.files) grammar.dialect schema input with
  | .error error => .fail ⟨s!"analyzing {input}", error.chain⟩
  | .ok analysis =>
    match analysis.find? path with
    | none => .fail (.plain s!"no binding at `{path}` in {input}")
    | some id => say (Report.lineage theme analysis id)

/-- Writes settings with the defaults. -/
def init (theme : Report.Theme) (path : String) (force : Bool) : Program Unit := do
  match Settings.defaults.store (← .read Console.files) path force with
  | .error fault => .fail (.plain fault.message)
  | .ok files =>
    .change fun console => { console with files }
    say [Report.success theme s!"Wrote {path}"]

/-- Carries out a request under the settings in effect. -/
def perform (theme : Report.Theme) (request : Request) : Program Unit := do
  let path := request.config.getD Settings.defaultPath
  match Settings.load (← .read Console.files) path with
  | .error fault => .fail (.plain fault.message)
  | .ok loaded =>
    let settings := loaded.getD .unset
    match request.action with
    | .analyze patterns grammar schema format edges =>
      analyze theme (settings.effectiveGrammar grammar) (settings.schemaPath schema)
        (settings.effectiveFormat format) patterns edges
    | .lineage input path grammar schema =>
      lineage theme (settings.effectiveGrammar grammar) (settings.schemaPath schema) input path
    | .init force => init theme path force

end Program

/-- The effects of a command line. -/
structure Outcome where
  code : Nat
  output : List Piece
  errors : String
  files : Files

/-- What is printed, given how long the analysis took. -/
def Outcome.outputText (outcome : Outcome) (theme : Report.Theme) (elapsed : String) : String :=
  String.join (outcome.output.map fun piece =>
    match piece with
    | .text text => text
    | .closing analyzed failed => Report.closing theme elapsed analyzed failed ++ "\n")

/-- What is printed about a command line that cannot be understood. -/
def usageText : String :=
  "error: invalid arguments\n\nUsage: seqeline [OPTIONS] <COMMAND>\n\n" ++
    "For more information, try '--help'.\n"

/-- Runs a command line in a working directory. -/
def run (theme : Report.Theme) (files : Files) (args : List String) : Outcome :=
  match Request.ofArguments args with
  | .error .usage => ⟨2, [], usageText, files⟩
  | .error .version => ⟨0, [.text (versionLine ++ "\n")], "", files⟩
  | .error (.help topic brief) =>
    ⟨0, (helpLines topic brief).map fun line => .text (line ++ "\n"), "", files⟩
  | .ok request =>
    match Program.perform theme request ⟨files, [], ""⟩ with
    | (.ok (), console) => ⟨0, console.output, console.errors, console.files⟩
    | (.error failure, console) =>
      ⟨1, console.output, console.errors ++ failure.text, console.files⟩

end Lineage.Command
