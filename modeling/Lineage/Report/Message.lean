import Lineage.Analysis.Closure
import Lineage.Report.Style

/-! # Messages

The lines of a report, apart from its tables. -/

namespace Lineage.Report

/-- A mark and a text. -/
def statusLine (mark text : String) (style : Style) : String :=
  mark ++ " " ++ style.apply text

def header (theme : Theme) (text : String) : String :=
  statusLine "🚀" text theme.header

def success (theme : Theme) (text : String) : String :=
  statusLine "✅" text theme.success

def failure (theme : Theme) (text : String) : String :=
  statusLine "❌" text theme.error

def warning (theme : Theme) (text : String) : String :=
  statusLine "⚠️" text theme.warn

/-- A named value. -/
def info (theme : Theme) (label value : String) : String :=
  statusLine (theme.info.apply "ℹ️") label theme.dim ++ ": " ++ value

/-- The title of a section, with an empty line before it. -/
def sectionLines (theme : Theme) (title : String) : List String :=
  ["", "━" ++ theme.header.apply title ++ "━"]

/-- A named value inside a section. -/
def row (theme : Theme) (label value : String) : String :=
  "  " ++ theme.dim.apply label ++ " " ++ value

/-- The closing line about several units. -/
def closing (theme : Theme) (elapsed : String) (analyzed failed : Nat) : String :=
  let style := if failed == 0 then theme.success else theme.warn
  style.apply "✅" ++ " " ++ style.apply ("Complete in " ++ elapsed) ++ "  " ++
  theme.info.apply "📄" ++
    s!" {analyzed} ok, {failed} failed"

/-- A section that lists bindings. -/
def listing (theme : Theme) (analysis : Analysis) (title : String) (ids : List BindingId) :
    List String :=
  sectionLines theme s!"{title} ({ids.length})" ++
    (if ids.isEmpty then ["  " ++ theme.dim.apply "none"] else []) ++
    ids.map fun id =>
      "  " ++ theme.kind.apply (analysis.graph.get id).kind.name ++ " " ++ analysis.path id

/-- All that flows into a binding and all that it flows into. -/
def lineage (theme : Theme) (analysis : Analysis) (id : BindingId) : List String :=
  header theme (analysis.path id) ::
    (listing theme analysis "⬆️ Upstream" (analysis.inflow id) ++
      listing theme analysis "⬇️ Downstream" (analysis.outflow id))

end Lineage.Report
