import LayeredConfig.Failure.Report
import LayeredConfig.Files.FilePath
import LayeredConfig.Text.Letter

/-!
# Formats of configuration files

The format of a file is read off the end of its name, in capitals or not.
-/

namespace LayeredConfig.Source

/-- The formats that can be read. -/
inductive Format where
  /-- JSON text. -/
  | json
  /-- YAML text. -/
  | yaml
  /-- A module of assignments. -/
  | code
deriving DecidableEq, Inhabited

namespace Format

/-- The name of a format. -/
def name : Format → String
  | json => "json"
  | yaml => "yaml"
  | code => "python"

/-- The format of a suffix. -/
def ofSuffix? (suffix : String) : Option Format :=
  [(".json", json), (".yml", yaml), (".yaml", yaml), (".py", code)].lookup (Text.lower suffix)

/-- The format of a file path (`from_path`); a report names the path as `shown`. -/
def ofPath (p : FilePath) (shown : String) : Except Report Format :=
  match ofSuffix? p.suffix with
  | some f => .ok f
  | none => .error (.unsupportedFormat (.str shown) (.atom .null))

end Format

end LayeredConfig.Source
