import LayeredConfig.Failure.Kind
import LayeredConfig.Text.Percent

/-!
# Reports of failures

A report says what failed in words and in detail.  Each kind of failure asks for
facts of its own and words the report by itself; only a report of the general
kinds is worded by whoever makes it.
-/

namespace LayeredConfig

/-- What is said about a failure. -/
structure Report where
  /-- The kind of the failure. -/
  kind : FailureKind
  /-- The failure in words. -/
  message : Value
  /-- The facts of the failure, as a mapping if there are any. -/
  details : Value
  /-- The facts that reports of this kind are asked for. -/
  facts : List (String × Value)
deriving Inhabited

namespace Report

/-- The words of a report as plain text. -/
def text (r : Report) : String :=
  r.message.plain

/-- Facts as a mapping. -/
def mapping (facts : List (String × Value)) : Value :=
  .map () (facts.map fun f => (.str f.1, f.2))

/-- A report with the words and details given, where no details at all means none. -/
def worded (kind : FailureKind) (message details : Value) : Report :=
  ⟨kind, message, if details.truthy then details else .map () [], []⟩

/-- A source cannot be loaded. -/
def configuration (message : String) (details : List (String × Value)) : Report :=
  worded .configuration (.str message) (mapping details)

/-- No reader handles a file; without words of its own the report names the file. -/
def unsupportedFormat (path message : Value) : Report :=
  let message := if message.truthy then message else .str ("Unsupported file type " ++ path.plain)
  ⟨.unsupportedFormat, message, mapping [("path", path)], [("path", path)]⟩

/-- A reserved namespace is to be registered. -/
def reservedNamespace (name : Value) : Report :=
  ⟨.reservedNamespace, .str ("Cannot use reserved key \"" ++ name.plain ++ "\""),
    mapping [("namespace", name)], [("namespace", name)]⟩

/-- A text needs more passes than are allowed. -/
def resolutionDepth (value maxDepth : Value) : Report :=
  let facts := [("value", value), ("max_depth", maxDepth)]
  ⟨.resolutionDepth,
    .str ("Placeholder depth exceeded " ++ maxDepth.plain ++ " while resolving: " ++ value.plain),
    mapping facts, facts⟩

/-- Everything that a report holds by name. -/
def fields (r : Report) : List (String × Value) :=
  [("message", r.message), ("details", r.details)] ++ r.facts

/-! ## Reports made from a row of arguments -/

/-- What is wrong with the arguments for a report. -/
inductive ArgumentError where
  /-- There is no argument of this name. -/
  | unexpected (owner name : String)
  /-- There are too many arguments, one of them perhaps by name. -/
  | tooMany (owner : String) (least most given : Nat) (named : Bool)
  /-- Arguments are missing. -/
  | missing (owner : String) (names : List String)
  /-- An argument that goes into the words holds a number with too many digits. -/
  | tooLarge
deriving DecidableEq

/-- Names in a row, the last one after "and". -/
def joinNames : List String → String
  | [] => ""
  | [a] => a
  | [a, b] => a ++ " and " ++ b
  | names => ", ".intercalate names.dropLast ++ ", and " ++ names.getLastD ""

/-- The ending of a word for several things. -/
def plural (n : Nat) : String :=
  if n = 1 then "" else "s"

/-- The error in words.  The report itself counts as its first argument. -/
def ArgumentError.message : ArgumentError → String
  | unexpected owner name =>
    owner ++ ".__init__() got an unexpected keyword argument '" ++ name ++ "'"
  | tooMany owner least most given named =>
    let takes :=
      if least = most then toString (most + 1) ++ " positional argument" ++ plural (most + 1)
      else "from " ++ toString (least + 1) ++ " to " ++ toString (most + 1) ++
        " positional arguments"
    let but :=
      toString (given + 1) ++
        (if named then
          " positional argument" ++ plural (given + 1) ++ " (and 1 keyword-only argument) were"
        else if given = 0 then " was" else " were")
    owner ++ ".__init__() takes " ++ takes ++ " but " ++ but ++ " given"
  | missing owner names =>
    owner ++ ".__init__() missing " ++ toString names.length ++ " required positional argument" ++
      plural names.length ++ ": " ++ joinNames (names.map fun n => "'" ++ n ++ "'")
  | tooLarge => NumeralError.tooLarge.message

/-- The arguments that a kind of report needs, and how many more it takes. -/
def arity : FailureKind → List String × Nat
  | .general => (["message"], 0)
  | .configuration => (["message"], 0)
  | .unsupportedFormat => (["path"], 1)
  | .reservedNamespace => (["namespace"], 0)
  | .resolutionDepth => (["value", "max_depth"], 0)

/-- The kind whose rule for arguments a kind follows. -/
def owner : FailureKind → FailureKind
  | .configuration => .general
  | k => k

/-- Only reports that are worded by whoever makes them take details. -/
def takesDetails (k : FailureKind) : Bool :=
  decide (owner k = .general)

/-- A report that is worded with arguments, if all of them have a written form. -/
def wordedWith (args : List Value) (r : Report) : Except ArgumentError Report :=
  if Tree.areWritable args then .ok r else .error .tooLarge

/-- The report of a kind from arguments in order and, perhaps, details. -/
def ofArguments (kind : FailureKind) (args : List Value) (details : Option Value) :
    Except ArgumentError Report :=
  let who := (owner kind).name
  let (needed, extra) := arity kind
  if details.isSome && !takesDetails kind then .error (.unexpected who "details")
  else if needed.length + extra < args.length then
    .error (.tooMany who needed.length (needed.length + extra) args.length details.isSome)
  else
    match kind, args with
    | .general, [message] => .ok (worded kind message (details.getD (.atom .null)))
    | .configuration, [message] => .ok (worded kind message (details.getD (.atom .null)))
    | .unsupportedFormat, [path] => wordedWith [path] (unsupportedFormat path (.atom .null))
    | .unsupportedFormat, [path, message] => .ok (unsupportedFormat path message)
    | .reservedNamespace, [name] => wordedWith [name] (reservedNamespace name)
    | .resolutionDepth, [value, maxDepth] =>
      wordedWith [value, maxDepth] (resolutionDepth value maxDepth)
    | _, args => .error (.missing who (needed.drop args.length))

end Report

end LayeredConfig
