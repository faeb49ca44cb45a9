import Lineage.Analyze
import Lineage.Command.Pool
import Lineage.Files.Basic
import Lineage.Schema.Document
import Lineage.Tree.Node

/-! # Loading documents -/

namespace Lineage.Command

/-- Why a document could not be loaded or analyzed. -/
inductive LoadError where
  | file (fault : Files.Fault)
  /-- The document is no JSON text, or one of another shape. -/
  | malformed
  | analysis (error : Error)
deriving DecidableEq, Repr

namespace LoadError

/-- The reason why a document is malformed. -/
def malformedDetail : String := "malformed document"

def message : LoadError → String
  | file fault => s!"IO error: {fault.message}"
  | malformed => s!"JSON error: {malformedDetail}"
  | analysis error => error.message

/-- The message and the reasons below it. -/
def chain : LoadError → List String
  | file fault => [message (file fault), fault.message]
  | malformed => [message malformed, malformedDetail]
  | analysis error => [error.message]

end LoadError

/-- The schema in a file, if there is one. -/
def loadSchema (files : Files) (path : String) : Except LoadError (Option Schema) :=
  if files.holds path then
    match files.read path with
    | .error fault => .error (.file fault)
    | .ok text =>
      match Schema.parse? text with
      | none => .error .malformed
      | some schema => .ok (some schema)
  else .ok none

/-- The analysis of the tree in a file. -/
def analyzeFile (files : Files) (dialect : Dialect) (schema : Schema) (path : String) :
    Except LoadError Analysis :=
  match files.read path with
  | .error fault => .error (.file fault)
  | .ok text =>
    match Document.parse? text with
    | none => .error (.analysis (.unreadable s!"{path}: {LoadError.malformed.message}"))
    | some document =>
      match analyze (.ofDocument document) dialect schema with
      | .error error => .error (.analysis error)
      | .ok analysis => .ok analysis

/-- What stands for the analysis of a file that no worker has sent. -/
def lostFile (path : String) : Except LoadError Analysis :=
  .error (.analysis (.unreadable s!"{path}: worker panicked"))

/-- The analyses of all files, in their order. -/
def analyzeFiles (files : Files) (dialect : Dialect) (schema : Schema) (paths : List String) :
    List (String × Except LoadError Analysis) :=
  workAll (analyzeFile files dialect schema) lostFile paths

end Lineage.Command
