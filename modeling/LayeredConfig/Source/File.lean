import LayeredConfig.Json.Reader
import LayeredConfig.Log.Entry
import LayeredConfig.Source.Assignments
import LayeredConfig.Source.Format
import LayeredConfig.Text.Utf8
import LayeredConfig.Yaml.Build

/-!
# Reading configuration files

A configuration file holds one mapping, in the format that its name tells; a
file that holds nothing counts as an empty mapping.  Modules of assignments are
read only on request, and their mapping is the value of one name.  A report of a
fault names the file and, if it is known, the place.

YAML is the business of a library, so its reader is a parameter; the one of this
library is the usual choice.  Only in YAML can one container stand at several
places; it is marked there.
-/

namespace LayeredConfig.Source

/-- Why a file gives no mapping. -/
inductive FileError where
  /-- A failure with a report. -/
  | failure (r : Report)
  /-- There is no such file. -/
  | notFound (p : FilePath)
  /-- The bytes are no text. -/
  | encoding (e : Text.Utf8Error)
  /-- A numeral is too long. -/
  | numeral (e : NumeralError)
  /-- A value that is written well cannot be built. -/
  | value (e : Yaml.ValueFault)

namespace FileError

/-- The error in words. -/
def message : FileError → String
  | failure r => r.text
  | notFound p => "Configuration file not found: " ++ p.text
  | encoding e => e.message
  | numeral e => e.message
  | value e => e.message

/-- The report of the error, if it is one of the library's own. -/
def report? : FileError → Option Report
  | failure r => some r
  | _ => none

end FileError

/-! ## Reports -/

/-- A fact of a report that is a number. -/
def number (n : Nat) : Value :=
  .atom (.int n)

/-- The fact that names a file. -/
def pathFact (p : FilePath) : String × Value :=
  ("path", .str p.text)

/-- The report of a fault at a place of a file. -/
def placeReport (p : FilePath) (line column : Nat) (words hint : String) : Report :=
  .configuration
    ("Error parsing " ++ p.name ++ " at line " ++ toString line ++ ", column " ++ toString column ++
      ":\n  " ++ words ++ "\n  File: " ++ p.text ++ hint)
    [pathFact p, ("line", number line), ("column", number column)]

/-- What is said of a problem of a YAML text; its place says the rest. -/
def yamlWords : String := "<yaml error>"

/-- What is advised for a problem of a YAML text. -/
def yamlHint : String :=
  "\n  Suggestion: Check YAML syntax, ensure proper indentation and quotes"

/-- The error of a JSON text. -/
def ofJsonStop (p : FilePath) (whole : List Char) : Json.Stop → FileError
  | .fault f rest =>
    let place := Json.placeOf whole rest
    .failure (placeReport p place.line place.column f.message "")
  | .tooLong e => .numeral e

/-- The error of a YAML text. -/
def ofYamlStop (p : FilePath) : Yaml.Stop → FileError
  | .problem _ m => .failure (placeReport p (m.line + 1) (m.column + 1) yamlWords yamlHint)
  | .cut .control =>
    .failure (.configuration ("Error parsing " ++ p.name ++ ": " ++ yamlWords ++ "\n  File: " ++ p.text)
      [pathFact p])
  | .cut (.encoding e) => .encoding e
  | .value e => .value e

/-- A failure of configuration that only names the file. -/
def pathReport (p : FilePath) (words : String) : FileError :=
  .failure (.configuration (words ++ ": " ++ p.text) [pathFact p])

/-! ## Formats -/

/-- A reader of YAML files (`safe_load` on an open file). -/
abbrev YamlReader := List UInt8 → Except Yaml.Stop Shared

/-- The value of a JSON file (`_load_json`). -/
def readJson (p : FilePath) (bytes : List UInt8) : Except FileError Value :=
  match Text.Utf8.decode bytes with
  | .error e => .error (.encoding e)
  | .ok cs =>
    let cs := Text.unifyLineBreaks cs
    (Json.read cs).mapError (ofJsonStop p cs)

/-- The value of a YAML file (`_load_yaml`). -/
def readYaml (yaml : YamlReader) (p : FilePath) (bytes : List UInt8) : Except FileError Shared :=
  (yaml bytes).mapError (ofYamlStop p)

/-- The name whose value is the configuration of a module. -/
def configName : String := "CONFIG"

/-- The value of a module of assignments (`_load_python`). -/
def readModule (p : FilePath) (bytes : List UInt8) : Except FileError Value :=
  let noModule := pathReport p "Cannot import configuration module"
  if p.suffix ≠ ".py" then .error noModule
  else
    match Text.Utf8.decode bytes with
    | .error _ => .error noModule
    | .ok cs =>
      match Assignments.read? (Text.unifyLineBreaks cs) with
      | none => .error noModule
      | some assignments =>
        match Assignments.valueOf? configName assignments with
        | some v => .ok v
        | none => .error (pathReport p "Configuration module defines no CONFIG mapping")

/-- The value of a file in a format. -/
def readAs (yaml : YamlReader) (format : Format) (p : FilePath) (allowCode : Bool)
    (bytes : List UInt8) : Except FileError Shared :=
  match format with
  | .json => (readJson p bytes).map Tree.unmarked
  | .yaml => readYaml yaml p bytes
  | .code =>
    if allowCode then (readModule p bytes).map Tree.unmarked
    else
      .error (.failure (.unsupportedFormat (.str p.text)
        (.str ("Code sources are disabled, pass allow_code=True to load " ++ p.text))))

/-- The mapping that a value is; nothing at all counts as an empty one. -/
def asMapping (p : FilePath) (v : Shared) : Except FileError Shared :=
  match v with
  | .atom .null => .ok (.map none [])
  | .map m es => .ok (.map m es)
  | v => .error (pathReport p ("Configuration must be a mapping, got " ++ v.typeName))

/-- The report that a file is being read. -/
def loadingEntry (format : Format) (p : FilePath) : LogEntry :=
  ⟨.debug, .files, "Loading " ++ format.name ++ " source: " ++ p.text⟩

/-- The mapping of a file, with what is reported on the way (`parse_file`). -/
def loadFileWith (yaml : YamlReader) (read? : FileReader) (p : FilePath) (allowCode : Bool) :
    List LogEntry × Except FileError Shared :=
  match Format.ofPath p p.text with
  | .error r => ([], .error (.failure r))
  | .ok format =>
    match read? p with
    | none => ([], .error (.notFound p))
    | some bytes =>
      ([loadingEntry format p], (readAs yaml format p allowCode bytes).bind (asMapping p))

/-- The mapping of a file, by this library's reader of YAML. -/
def loadFile (read? : FileReader) (p : FilePath) (allowCode : Bool) :
    List LogEntry × Except FileError Shared :=
  loadFileWith Yaml.readBytes read? p allowCode

end LayeredConfig.Source
