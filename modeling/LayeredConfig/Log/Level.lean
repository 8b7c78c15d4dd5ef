import LayeredConfig.Text.Letter
import LayeredConfig.Value.Atom

/-!
# Levels

A level is a number; five of them have names.  Whoever sets a level may give a
name or a number, and an unknown name means the level of general information.
-/

namespace LayeredConfig.Log

/-- The level below which nothing is said but details. -/
def debugLevel : Int := 10

/-- The level of general information. -/
def infoLevel : Int := 20

/-- The level of warnings. -/
def warningLevel : Int := 30

/-- The level of errors. -/
def errorLevel : Int := 40

/-- The level at which nothing goes on. -/
def criticalLevel : Int := 50

/-- The name of a level. -/
def levelName (n : Int) : String :=
  if n = debugLevel then "DEBUG"
  else if n = infoLevel then "INFO"
  else if n = warningLevel then "WARNING"
  else if n = errorLevel then "ERROR"
  else if n = criticalLevel then "CRITICAL"
  else if n = 0 then "NOTSET"
  else "Level " ++ toString n

/-- The level of a name in capitals. -/
def levelOfName? (name : String) : Option Int :=
  [("DEBUG", debugLevel), ("INFO", infoLevel), ("WARNING", warningLevel),
    ("WARN", warningLevel), ("ERROR", errorLevel), ("CRITICAL", criticalLevel)].lookup name

/-- A level as it is set (`_parse_level`): numbers and truth values stay what they are. -/
def parseLevel : Atom → Atom
  | .int n => .int n
  | .bool b => .bool b
  | a => .int ((levelOfName? (Text.upper a.text)).getD infoLevel)

/-- The number of a level. -/
def levelNumber (a : Atom) : Int :=
  a.toInt?.getD infoLevel

end LayeredConfig.Log
