/-!
# Log entries

What the library reports about its work: how important it is, which part says
it, and the text.
-/

namespace LayeredConfig

/-- The importance of a log entry. -/
inductive Severity where
  /-- Of interest when something is looked into. -/
  | debug
  /-- Of general interest. -/
  | info
deriving DecidableEq, Inhabited

namespace Severity

/-- The name of a severity. -/
def name : Severity → String
  | debug => "DEBUG"
  | info => "INFO"

end Severity

/-- The parts of the library that report. -/
inductive LogSource where
  /-- The registry of namespaces. -/
  | namespaces
  /-- The substitution of placeholders. -/
  | placeholders
  /-- The loading of layers. -/
  | layers
  /-- The reading of files. -/
  | files
deriving DecidableEq, Inhabited

/-- The name of the log that a part of the library writes. -/
def LogSource.loggerName : LogSource → String
  | namespaces => "stratum.config.dictionary"
  | placeholders => "stratum.config.substitution"
  | layers => "stratum.config.loader"
  | files => "stratum.config.sources"

/-- One report. -/
structure LogEntry where
  /-- Its importance. -/
  severity : Severity
  /-- Who reports. -/
  source : LogSource
  /-- The text. -/
  message : String
deriving DecidableEq, Inhabited

end LayeredConfig
