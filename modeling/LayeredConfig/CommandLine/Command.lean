import LayeredConfig.CommandLine.Options
import LayeredConfig.Display.Markup
import LayeredConfig.Display.View
import LayeredConfig.Json.Writer
import LayeredConfig.Store.Load
import LayeredConfig.Text.Terminal

/-!
# The commands

`get` writes one resolved value and `show` writes the definition beside the
resolved tree.  Both load files, picked variables of the environment and single
values that are set, in this order.  A run ends with 0 if all went well, with 1
if a key or a file is missing, and with 2 if the arguments or the configuration
are at fault.
-/

namespace LayeredConfig.CommandLine

/-- What a run is given. -/
structure Invocation where
  /-- The arguments. -/
  args : List String
  /-- The variables of the environment. -/
  environ : List (String × String)
  /-- The files. -/
  files : FileReader

/-- Functions of a configuration that has none. -/
def noFunctions : Host Unit Empty :=
  ⟨fun _ _ memory => (memory, .ok (.atom .null)), fun _ memory => memory⟩

/-- A store without functions. -/
abbrev PlainStore := Store Unit Empty

/-- An error that no command expects. -/
inductive Crash where
  /-- A layer cannot be loaded. -/
  | load (e : LoadError Empty)
  /-- A segment of the key is no position. -/
  | index (e : NumeralError)
  /-- The value cannot be written. -/
  | unwritable (e : Unwritable)
  /-- The trees cannot be shown. -/
  | view (e : ViewError)
  /-- A message ends a style that it has not started. -/
  | markup (e : Display.Markup.MarkupError)

/-- The error in words. -/
def Crash.message : Crash → String
  | load (.file e) => e.message
  | load (.store e) => e.message nofun
  | index e => e.message
  | unwritable e => e.message
  | view e => e.message
  | markup e => e.message

/-- How a run ends. -/
inductive Outcome where
  /-- With a text on how the command is used. -/
  | usage (exit : Nat)
  /-- With what is written to the output and to the error output. -/
  | finished (exit : Nat) (out err : String)
  /-- With an error that is not expected. -/
  | crashed (e : Crash)

/-- The options of the commands. -/
inductive Choice where
  /-- Ask how a command is used. -/
  | help
  /-- Ask for the version. -/
  | version
  /-- What is written for a missing key. -/
  | fallback
  /-- Dotted keys. -/
  | flat
  /-- Sorted keys. -/
  | sort
  /-- Only what is unresolved. -/
  | debug
  /-- The environment is a namespace. -/
  | env
  /-- A variable of the environment is merged. -/
  | envPick
  /-- A value is set. -/
  | set
  /-- Modules of assignments may be read. -/
  | allowCode
  /-- Placeholders that go in circles are an error. -/
  | strict
  /-- The level of the log. -/
  | logLevel
deriving DecidableEq

/-- The option that asks how a command is used. -/
def helpSwitch : Switch Choice := ⟨.help, "help", none, false⟩

/-- The options in front of the name of a command. -/
def mainSwitches : List (Switch Choice) :=
  [⟨.version, "version", some 'v', false⟩, helpSwitch]

/-- The options of both commands. -/
def commonSwitches : List (Switch Choice) :=
  [⟨.env, "env", none, false⟩, ⟨.envPick, "env-pick", none, true⟩, ⟨.set, "set", some 's', true⟩,
    ⟨.allowCode, "allow-code", none, false⟩, ⟨.strict, "strict", none, false⟩,
    ⟨.logLevel, "log-level", none, true⟩, helpSwitch]

/-- The options of `get`. -/
def getSwitches : List (Switch Choice) :=
  ⟨.fallback, "default", none, true⟩ :: commonSwitches

/-- The options of `show`. -/
def showSwitches : List (Switch Choice) :=
  [⟨.flat, "flat", none, false⟩, ⟨.sort, "sort", none, false⟩, ⟨.debug, "debug", none, false⟩] ++
    commonSwitches

/-! ## Output -/

/-- The width of the page for messages. -/
def messageWidth : Nat := 80

/-- The end of a run with a marked up message. -/
def say (exit : Nat) (message : String) : Outcome :=
  match Display.Markup.onPage messageWidth message with
  | .ok text => .finished exit "" text
  | .error e => .crashed (.markup e)

/-- The end of a run with a line of output. -/
def echo (line : String) : Outcome :=
  .finished 0 (Text.dropCommands (line ++ "\n")) ""

/-- The end of a run with an error message. -/
def fail (exit : Nat) (message : String) : Outcome :=
  say exit ("[red]Error:[/red] " ++ message)

/-- The end of a run whose layers cannot be loaded. -/
def failLoad (e : LoadError Empty) : Outcome :=
  match e.report?, e with
  | some r, _ => fail 2 r.text
  | none, .file (.notFound p) => fail 1 (Source.FileError.message (.notFound p))
  | none, e => .crashed (.load e)

/-! ## Loading -/

/-- The environment as a namespace. -/
def environEntries (environ : List (String × String)) : List (Key × Value) :=
  Entries.ofList (environ.map fun v => (.str v.1, .str v.2))

/-- The layers that arguments and environment describe. -/
def layersOf (i : Invocation) (a : Arguments Choice) (files : List String) : Layers :=
  let picked := a.values .envPick
  let environ := environEntries i.environ
  ⟨files.map fun f => (FilePath.ofText f).text, if picked.isEmpty then none else some environ,
    if picked.isEmpty then none else some picked, none, none, Source.defaultDelimiter,
    a.has .allowCode⟩

/-- The greatest number of passes over a text. -/
def defaultDepth : Int := 10

/-- The store of a run (`build_store`). -/
def loadStore (i : Invocation) (a : Arguments Choice) (files : List String) :
    Except (LoadError Empty) PlainStore :=
  let namespaces : Value :=
    if a.has .env then .map () [(.str "env", .map () (environEntries i.environ))] else .atom .null
  let (s, r) := Store.load noFunctions () defaultDepth (a.has .strict) namespaces i.files
    (layersOf i a files)
  match r with
  | .error e => .error e
  | .ok () =>
    let settings := a.values .set
    if settings.isEmpty then .ok s
    else
      let (s, r) := s.mergeLayer (Source.arguments settings none Source.defaultDelimiter).unmarked
      r.map fun () => s

/-! ## Commands -/

/-- The value as it is written: texts as they are, all else in JSON. -/
def written (v : Shared) : Except Unwritable String :=
  match v with
  | .atom (.str s) => .ok s
  | v => Json.text? v.erase

/-- Writes the value of a key (`get`). -/
def runGet (i : Invocation) (a : Arguments Choice) (key : String) (files : List String) : Outcome :=
  match loadStore i a files with
  | .error e => failLoad e
  | .ok s =>
    match s.get key (.atom .missing) with
    | .error e => .crashed (.index e)
    | .ok (.atom .missing) =>
      match a.value? .fallback with
      | some text => echo text
      | none => say 1 ("[yellow]Key not found: " ++ key ++ "[/yellow]")
    | .ok v =>
      match written v with
      | .ok line => echo line
      | .error e => .crashed (.unwritable e)

/-- Writes the definition beside the resolved tree (`show`). -/
def runShow (i : Invocation) (a : Arguments Choice) (files : List String) : Outcome :=
  match loadStore i a files with
  | .error e => failLoad e
  | .ok s =>
    match s.render ⟨a.has .flat, a.has .sort, a.has .debug⟩ with
    | .ok text => .finished 0 (text ++ "\n") ""
    | .error e => .crashed (.view e)

/-- Runs a command with its arguments. -/
def runCommand (i : Invocation) (name : String) (args : List String) : Except UsageError Outcome :=
  match name with
  | "get" => do
    let a ← Arguments.read getSwitches true args
    if a.has .help then return .usage 0
    match a.operands with
    | [] => throw (.noOperand "KEY")
    | key :: files => return runGet i a key files
  | "show" => do
    let a ← Arguments.read showSwitches true args
    if a.has .help then return .usage 0
    return runShow i a a.operands
  | name => .error (.noCommand name)

/-- The file operands of a command with its arguments. -/
def fileOperands (name : String) (args : List String) : Except UsageError (List String) :=
  match name with
  | "get" => (Arguments.read getSwitches true args).map fun a => a.operands.drop 1
  | "show" => (Arguments.read showSwitches true args).map fun a => a.operands
  | name => .error (.noCommand name)

/-- The paths of the files that a run may read. -/
def filesOf (args : List String) : List FilePath :=
  let operands : Except UsageError (List String) := do
    match (← Arguments.read mainSwitches false args).operands with
    | [] => return []
    | name :: rest => fileOperands name rest
  match operands with
  | .ok files => files.map FilePath.ofText
  | .error _ => []

/-- The line that names the version. -/
def versionLine : String := "stratum version 0.1.0"

/-- What the first option that ends a run at once asks for. -/
def runAtOnce? (a : Arguments Choice) : Option Outcome :=
  a.options.findSome? fun o =>
    match o.1 with
    | .help => some (.usage 0)
    | .version => some (echo versionLine)
    | _ => none

/-- Runs the program (`entrypoint`). -/
def runMain (i : Invocation) : Except UsageError Outcome := do
  let a ← Arguments.read mainSwitches false i.args
  match runAtOnce? a, a.operands with
  | some outcome, _ => return outcome
  | none, [] => return .usage 0
  | none, name :: args => runCommand i name args

/-- How the program is used. -/
def usageText : String :=
  "usage: stratum [--version] COMMAND [ARGUMENTS]\n" ++
    "  get KEY [FILES]   write the resolved value of a key\n" ++
    "  show [FILES]      write the definition beside the resolved tree\n"

/-- How a run ends. -/
def run (i : Invocation) : Outcome :=
  match runMain i with
  | .ok outcome => outcome
  | .error _ => .usage 2

end LayeredConfig.CommandLine
