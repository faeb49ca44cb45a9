import Lineage.Command.Arguments

/-! # Help texts -/

namespace Lineage.Command

/-- The name and version of the program. -/
def versionLine : String := "seqeline 0.0.1"

def overviewCommands : List String :=
  ["Usage: seqeline [OPTIONS] <COMMAND>",
   "",
   "Commands:",
   "  analyze  Analyze one or more syntax tree documents",
   "  lineage  Show what flows into and out of one binding",
   "  init     Write a default config file",
   "  help     Print this message or the help of the given subcommand(s)",
   "",
   "Options:"]

/-- The lines of the help about a topic; the overview has a brief form. -/
def helpLines : Topic → (brief : Bool) → List String
  | .overview, true =>
    ["Data lineage for procedural SQL", ""] ++ overviewCommands ++
      ["  -v, --verbose          Enable verbose logging",
       "  -c, --config <CONFIG>  Path to the config file",
       "  -h, --help             Print help (see more with '--help')",
       "  -V, --version          Print version"]
  | .overview, false =>
    ["Seqeline reads PL/SQL syntax trees (JSON documents produced by an ANTLR or",
     "PMD parser) and builds a binding graph:",
     "  • Packages, routines, cursors and variables with their members",
     "  • Name references resolved through nested scopes",
     "  • Value flow between variables, arguments and table columns",
     "",
     "Example usage:",
     "  seqeline analyze 'trees/**/*.json' --schema schema.json",
     "  seqeline lineage trees/billing.json billing.charge.amount",
     "",
     ""] ++ overviewCommands ++
      ["  -v, --verbose",
       "          Enable verbose logging",
       "",
       "  -c, --config <CONFIG>",
       "          Path to the config file",
       "",
       "  -h, --help",
       "          Print help (see a summary with '-h')",
       "",
       "  -V, --version",
       "          Print version"]
  | .analyze, _ =>
    ["Analyze one or more syntax tree documents",
     "",
     "Usage: seqeline analyze [OPTIONS] <INPUTS>...",
     "",
     "Arguments:",
     "  <INPUTS>...  Tree documents or glob patterns",
     "",
     "Options:",
     "  -d, --dialect <DIALECT>  Grammar the trees come from (plsql, pmd)",
     "  -v, --verbose            Enable verbose logging",
     "  -c, --config <CONFIG>    Path to the config file",
     "  -s, --schema <SCHEMA>    Relation metadata document",
     "  -f, --format <FORMAT>    Output format (text, json)",
     "  -e, --edges              Also list every lineage edge",
     "  -h, --help               Print help"]
  | .lineage, _ =>
    ["Show what flows into and out of one binding",
     "",
     "Usage: seqeline lineage [OPTIONS] <INPUT> <PATH>",
     "",
     "Arguments:",
     "  <INPUT>  Tree document",
     "  <PATH>   Dotted binding path, e.g. pkg.proc.var",
     "",
     "Options:",
     "  -d, --dialect <DIALECT>  Grammar the tree comes from (plsql, pmd)",
     "  -v, --verbose            Enable verbose logging",
     "  -c, --config <CONFIG>    Path to the config file",
     "  -s, --schema <SCHEMA>    Relation metadata document",
     "  -h, --help               Print help"]
  | .init, _ =>
    ["Write a default config file",
     "",
     "Usage: seqeline init [OPTIONS]",
     "",
     "Options:",
     "      --force            Overwrite an existing config",
     "  -v, --verbose          Enable verbose logging",
     "  -c, --config <CONFIG>  Path to the config file",
     "  -h, --help             Print help"]
  | .help, _ =>
    ["Print this message or the help of the given subcommand(s)",
     "",
     "Usage: seqeline help [COMMAND]...",
     "",
     "Arguments:",
     "  [COMMAND]...  Print help for the subcommand(s)"]

end Lineage.Command
