import Lineage.Dialect.Grammar

/-! # Command line arguments

What a user asks for. An option is given as `--name value`, `--name=value`, `-n value`, `-nvalue` or
`-n=value`, a flag as `--name` or `-n`, and several short ones may share a dash. Options stand
anywhere after the command, those for all commands also before it; after `--` every argument is
plain. -/

namespace Lineage.Command

/-- What to do. -/
inductive Action where
  | analyze (inputs : List String) (grammar : Option Grammar) (schema format : Option String)
      (edges : Bool)
  | lineage (input path : String) (grammar : Option Grammar) (schema : Option String)
  | init (force : Bool)
deriving DecidableEq, Repr

/-- What the command line asks for. -/
structure Request where
  config : Option String
  action : Action
deriving DecidableEq, Repr

/-- What a help text is about. -/
inductive Topic where
  | overview
  | analyze
  | lineage
  | init
  | help
deriving DecidableEq, Repr

/-- Why a command line asks for nothing to be done. -/
inductive Stop where
  | usage
  | version
  | help (topic : Topic) (brief : Bool)
deriving DecidableEq, Repr

/-- What an option does. -/
inductive Effect where
  /-- It is on or off. -/
  | flag
  /-- It has a value, of the kind described by the predicate. -/
  | setting (accepts : String → Bool)
  | help
  | version

structure Switch where
  long : String
  short : Option Char
  effect : Effect

/-- A path is not empty. -/
def isPath (value : String) : Bool :=
  !value.isEmpty

/-- The value names a grammar. -/
def isGrammar (value : String) : Bool :=
  (Grammar.ofName value).toOption.isSome

/-- The options of every command. -/
def commonSwitches : List Switch :=
  [⟨"verbose", some 'v', .flag⟩, ⟨"config", some 'c', .setting isPath⟩, ⟨"help", some 'h', .help⟩]

/-- The options before a command. -/
def leadingSwitches : List Switch :=
  commonSwitches ++ [⟨"version", some 'V', .version⟩]

/-- The options of a command that reads trees. -/
def readingSwitches : List Switch :=
  commonSwitches ++
    [⟨"dialect", some 'd', .setting isGrammar⟩, ⟨"schema", some 's', .setting isPath⟩]

/-- The options of `analyze`. -/
def analyzeSwitches : List Switch :=
  readingSwitches ++ [⟨"format", some 'f', .setting fun _ => true⟩, ⟨"edges", some 'e', .flag⟩]

/-- The options of `init`. -/
def initSwitches : List Switch :=
  commonSwitches ++ [⟨"force", none, .flag⟩]

/-- What was given so far: options by name, flags without a value, and plain
    arguments, last first. -/
structure Given where
  options : List (String × String)
  words : List String

namespace Given

def empty : Given :=
  ⟨[], []⟩

def has (given : Given) (name : String) : Bool :=
  (given.options.lookup name).isSome

def value? (given : Given) (name : String) : Option String :=
  given.options.lookup name

/-- The grammar that was given. -/
def grammar? (given : Given) : Option Grammar :=
  (given.value? "dialect").bind fun name => (Grammar.ofName name).toOption

/-- Takes an option. None is given twice, and its value is of the right kind. -/
def add (given : Given) (name value : String) (accepts : String → Bool) : Except Stop Given :=
  if given.has name || !accepts value then .error .usage
  else .ok { given with options := (name, value) :: given.options }

end Given

/-- What an argument leaves to be done. -/
inductive Pending where
  | nothing
  /-- An option still needs its value. -/
  | value (name : String) (accepts : String → Bool)
  /-- The value of an option still has to be checked. -/
  | check (name value : String) (accepts : String → Bool)

/-- Does what is left to be done when something else follows. -/
def Given.settle (given : Given) : Pending → Except Stop Given
  | .nothing => .ok given
  | .value _ _ => .error .usage
  | .check name value accepts => given.add name value accepts

/-- Takes the letters after a single dash. -/
def addLetters (switches : List Switch) (topic : Topic) (given : Given) :
    List Char → Except Stop (Given × Pending)
  | [] => .ok (given, .nothing)
  | letter :: rest =>
    match switches.find? (·.short == some letter) with
    | none => .error .usage
    | some switch =>
      match switch.effect with
      | .help => .error (.help topic true)
      | .version => .error .version
      | .flag =>
        match given.add switch.long "" fun _ => true with
        | .error stop => .error stop
        | .ok given => addLetters switches topic given rest
      | .setting accepts =>
        match rest with
        | [] => .ok (given, .value switch.long accepts)
        | '=' :: value => (given.add switch.long (String.ofList value) accepts).map (·, .nothing)
        | value => (given.add switch.long (String.ofList value) accepts).map (·, .nothing)

/-- Takes the name after two dashes, and a value that follows it after an equals sign. -/
def addLong (switches : List Switch) (topic : Topic) (given : Given) (text : List Char) :
    Except Stop (Given × Pending) :=
  let (name, rest) := text.span (· != '=')
  match switches.find? (·.long == String.ofList name) with
  | none => .error .usage
  | some switch =>
    match switch.effect, rest with
    | .setting accepts, [] => .ok (given, .value switch.long accepts)
    | .setting accepts, _ :: value =>
      (given.add switch.long (String.ofList value) accepts).map (·, .nothing)
    | .flag, [] => (given.add switch.long "" fun _ => true).map (·, .nothing)
    | .help, [] => .error (.help topic false)
    | .version, [] => .error .version
    | _, _ :: _ => .error .usage

/-- The plain arguments that a command takes. -/
structure Operands where
  /-- Of what kind the first ones are, each described by a predicate. -/
  first : List (String → Bool)
  /-- Any others may follow. -/
  more : Bool

/-- Takes a plain argument. -/
def addWord (operands : Operands) (given : Given) (word : String) : Except Stop Given :=
  if ((operands.first[given.words.length]?).map (· word)).getD operands.more then
    .ok { given with words := word :: given.words }
  else .error .usage

/-- Takes an argument that starts with a dash. -/
def addOption (switches : List Switch) (topic : Topic) (given : Given) :
    List Char → Except Stop (Given × Pending)
  | '-' :: text => addLong switches topic given text
  | letters => addLetters switches topic given letters

/-- Takes arguments up to the end. While `plain`, no argument is an option. -/
def scan (switches : List Switch) (topic : Topic) (operands : Operands) :
    (plain : Bool) → Pending → Given → List String → Except Stop Given
  | _, pending, given, [] => given.settle pending
  | plain, .value name accepts, given, arg :: rest =>
    if arg.startsWith "-" && arg != "-" then .error .usage
    else scan switches topic operands plain (.check name arg accepts) given rest
  | plain, pending, given, arg :: rest =>
    match plain, arg.toList with
    | false, ['-', '-'] => scan switches topic operands true pending given rest
    | false, '-' :: letter :: letters =>
      match given.settle pending with
      | .error stop => .error stop
      | .ok given =>
        match addOption switches topic given (letter :: letters) with
        | .error stop => .error stop
        | .ok (given, pending) => scan switches topic operands plain pending given rest
    | _, _ =>
      match given.settle pending with
      | .error stop => .error stop
      | .ok given =>
        match addWord operands given arg with
        | .error stop => .error stop
        | .ok given => scan switches topic operands plain .nothing given rest

/-- The arguments of a command. -/
def scanCommand (switches : List Switch) (topic : Topic) (operands : Operands)
    (args : List String) : Except Stop Given :=
  scan switches topic operands false .nothing .empty args

/-- Takes the options before a command; gives also what they leave to be done, and the arguments
    from the command on. -/
def scanLeading : Pending → Given → List String → Except Stop (Given × Pending × List String)
  | pending, given, [] => .ok (given, pending, [])
  | .value name accepts, given, arg :: rest =>
    if arg.startsWith "-" && arg != "-" then .error .usage
    else scanLeading (.check name arg accepts) given rest
  | pending, given, arg :: rest =>
    match arg.toList with
    | '-' :: letter :: letters =>
      match given.settle pending with
      | .error stop => .error stop
      | .ok given =>
        match addOption leadingSwitches .overview given (letter :: letters) with
        | .error stop => .error stop
        | .ok (given, pending) => scanLeading pending given rest
    | _ => .ok (given, pending, arg :: rest)

/-- What the topics of a help request mean. -/
def helpTopic : List String → Except Stop Topic
  | [] => .ok .overview
  | ["analyze"] => .ok .analyze
  | ["lineage"] => .ok .lineage
  | ["init"] => .ok .init
  | ["help"] => .ok .help
  | _ => .error .usage

/-- What a command and its arguments ask for, and the settings file that they name. -/
def scanAction (command : String) (args : List String) : Except Stop (Action × Option String) :=
  match command with
  | "analyze" => do
    let given ← scanCommand analyzeSwitches .analyze ⟨[], true⟩ args
    if given.words.isEmpty then .error .usage
    return (.analyze given.words.reverse given.grammar? (given.value? "schema")
      (given.value? "format") (given.has "edges"), given.value? "config")
  | "lineage" => do
    let given ← scanCommand readingSwitches .lineage ⟨[isPath, fun _ => true], false⟩ args
    match given.words.reverse with
    | [input, path] =>
      return (.lineage input path given.grammar? (given.value? "schema"), given.value? "config")
    | _ => .error .usage
  | "init" => do
    let given ← scanCommand initSwitches .init ⟨[], false⟩ args
    return (.init (given.has "force"), given.value? "config")
  | "help" => do
    .error (.help (← helpTopic args) false)
  | _ => .error .usage

/-- What the arguments ask for. The last value before the command is checked after all
    that follows it. -/
def Request.ofArguments (args : List String) : Except Stop Request :=
  match scanLeading .nothing .empty args with
  | .error stop => .error stop
  | .ok (_, _, []) => .error .usage
  | .ok (leading, pending, command :: rest) => do
    let (action, config) ← scanAction command rest
    let leading ← leading.settle pending
    return ⟨config.or (leading.value? "config"), action⟩

end Lineage.Command
