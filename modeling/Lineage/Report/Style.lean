/-! # Styles

How parts of a report are set off on a terminal that shows colors. -/

namespace Lineage.Report

/-- The codes that a terminal is sent before a text; without any the text is plain. -/
structure Style where
  codes : List Nat
deriving DecidableEq, Repr

namespace Style

def plain : Style := ⟨[]⟩

/-- The text between the codes that switch the style on and off. -/
def apply (style : Style) (text : String) : String :=
  if style.codes.isEmpty then text
  else "\x1b[" ++ ";".intercalate (style.codes.map toString) ++ "m" ++ text ++ "\x1b[0m"

end Style

/-- The styles of a report. -/
structure Theme where
  header : Style
  success : Style
  error : Style
  warn : Style
  info : Style
  dim : Style
  kind : Style

namespace Theme

/-- A theme without colors. -/
def plain : Theme :=
  ⟨.plain, .plain, .plain, .plain, .plain, .plain, .plain⟩

/-- The theme for a terminal that shows colors. -/
def colored : Theme :=
  ⟨⟨[36, 1]⟩, ⟨[32, 1]⟩, ⟨[31, 1]⟩, ⟨[33, 1]⟩, ⟨[35]⟩, ⟨[37, 2]⟩, ⟨[90]⟩⟩

/-- The theme for a terminal, or for output that goes elsewhere. -/
def forTerminal (showsColors : Bool) : Theme :=
  if showsColors then colored else plain

/-- All styles, in the order of the fields. -/
def styles (theme : Theme) : List Style :=
  [theme.header, theme.success, theme.error, theme.warn, theme.info, theme.dim, theme.kind]

end Theme

end Lineage.Report
