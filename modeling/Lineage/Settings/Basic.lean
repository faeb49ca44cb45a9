import Lineage.Dialect.Grammar
import Lineage.Toml.Parser
import Lineage.Toml.Quoted
import Lineage.Toml.Table

/-! # Settings

What a user can set once for all runs. On the command line every setting can be given anew; a
setting given nowhere has a default. -/

namespace Lineage

structure Settings where
  schema : Option String
  grammar : Option Grammar
  format : Option String
deriving DecidableEq, Repr

namespace Settings

/-- Settings with nothing set. -/
def unset : Settings :=
  ⟨none, none, none⟩

/-- Where settings are kept unless said otherwise. -/
def defaultPath : String := "seqeline.toml"

/-- Where the schema is looked for unless said otherwise. -/
def defaultSchema : String := "schema.json"

/-- The settings that a new file is given: the defaults, written out. -/
def defaults : Settings :=
  ⟨some defaultSchema, some .plsql, some "text"⟩

/-- The path of the schema: that of the flag, else that of the settings, else the default. -/
def schemaPath (settings : Settings) (flag : Option String) : String :=
  (flag.or settings.schema).getD defaultSchema

/-- The grammar: that of the flag, else that of the settings, else the default. -/
def effectiveGrammar (settings : Settings) (flag : Option Grammar) : Grammar :=
  (flag.or settings.grammar).getD .plsql

/-- The format: that of the flag, else that of the settings, else the default. -/
def effectiveFormat (settings : Settings) (flag : Option String) : String :=
  (flag.or settings.format).getD "text"

/-- The grammar that an item names: by a text, or by the only key of a table, which
    stands for nothing. -/
def grammarOf? : Toml.Item → Option Grammar
  | .text word => Grammar.ofWord? word
  | .table _ [(word, item)] => if item.isHollow then Grammar.ofWord? word else none
  | _ => none

/-- The settings in a document. Keys that are no settings are ignored; the dialect must be named
    exactly, and the other settings are texts. -/
def parse? (text : String) : Option Settings := do
  let entries ← Toml.define? (← Toml.parse? text)
  let schema ← Toml.textAt? entries "schema"
  let format ← Toml.textAt? entries "format"
  match entries.lookup "dialect" with
  | none => return ⟨schema, none, format⟩
  | some item => return ⟨schema, some (← grammarOf? item), format⟩

/-- One line for a setting that is set. -/
def line (key : String) : Option String → String
  | some value => key ++ " = " ++ Toml.quote value ++ "\n"
  | none => ""

/-- The document with the settings. -/
def render (settings : Settings) : String :=
  line "schema" settings.schema ++ line "dialect" (settings.grammar.map Grammar.name) ++
    line "format" settings.format

end Settings

end Lineage
