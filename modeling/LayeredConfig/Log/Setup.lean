import LayeredConfig.Files.Folder
import LayeredConfig.Log.Record
import LayeredConfig.Text.Utf8

/-!
# Setting logging up

The log of the program is set up anew each time: the handlers of before go, and
what is asked for comes, a terminal handler first and a file handler after it.
A record reaches a handler if the log is enabled for its level and the handler
admits it.
-/

namespace LayeredConfig.Log

/-- Where records go. -/
inductive Handler where
  /-- A terminal that lays records out by itself. -/
  | styled (level : Atom)
  /-- A plain terminal. -/
  | stream (level : Atom) (formatter : Formatter)
  /-- A file. -/
  | file (path : FilePath)
deriving DecidableEq

namespace Handler

/-- The least level of the records that a handler admits. -/
def level : Handler → Atom
  | styled l => l
  | stream l _ => l
  | file _ => .int debugLevel

/-- How a handler writes records, if that is the program's matter. -/
def formatter? : Handler → Option Formatter
  | styled _ => none
  | stream _ f => some f
  | file _ => some .file

end Handler

/-- What is asked for. -/
structure Request where
  /-- The level, by name or number. -/
  level : Atom
  /-- The file to write to; none if the name is empty. -/
  logFile : String
  /-- A format of the user's own for the plain terminal; none if it is empty. -/
  format : String
  /-- The file keeps what it holds. -/
  appends : Bool
  /-- There is a terminal handler. -/
  console : Bool
  /-- The terminal lays records out by itself. -/
  styled : Bool
deriving Inhabited

/-- The format of the user's own names no field. -/
structure InvalidFormat where
  /-- The format. -/
  format : String
deriving DecidableEq

/-- The error in words. -/
def InvalidFormat.message (e : InvalidFormat) : String :=
  "Invalid format '" ++ e.format ++ "' for '%' style"

/-- The log as it is set up. -/
structure Setup where
  /-- The level of the log. -/
  level : Atom
  /-- The handlers in order. -/
  handlers : List Handler

/-- The name of the log. -/
def rootName : String := "stratum"

/-- The terminal handler that is asked for. -/
def consoleHandlers (r : Request) : Except InvalidFormat (List Handler) :=
  let level := parseLevel r.level
  if !r.console then .ok []
  else if r.styled then .ok [.styled level]
  else if r.format = "" then .ok [.stream level .console]
  else if Formatter.namesField r.format.toList then .ok [.stream level (.custom r.format)]
  else .error ⟨r.format⟩

/-- The log that is asked for (`setup_logging`). -/
def setup (r : Request) : Except InvalidFormat Setup :=
  (consoleHandlers r).map fun console =>
    ⟨parseLevel r.level,
      console ++ (if r.logFile = "" then [] else [.file (FilePath.ofText r.logFile)])⟩

namespace Setup

/-- The log takes records of this level; a log without a level takes that of warnings. -/
def isEnabled (s : Setup) (level : Int) : Bool :=
  let own := levelNumber s.level
  decide ((if own = 0 then warningLevel else own) ≤ level)

/-- The record is written to this log. -/
def takes (s : Setup) (r : Record) : Bool :=
  (decide (r.name = rootName) || (rootName ++ ".").toList.isPrefixOf r.name.toList) &&
    s.isEnabled r.level

/-- The lines that a handler writes for records.  A record that cannot be written is left out. -/
def output (s : Setup) (h : Handler) (records : List Record) : String :=
  match h.formatter? with
  | none => ""
  | some f =>
    String.join <| records.filterMap fun r =>
      if s.takes r && decide (levelNumber h.level ≤ r.level) then
        match f.write r with
        | .ok line => some (line ++ "\n")
        | .error _ => none
      else none

/-- What the plain terminal shows of the records. -/
def terminal (s : Setup) (records : List Record) : String :=
  String.join <| s.handlers.map fun h =>
    match h with
    | .stream _ _ => s.output h records
    | _ => ""

/-- The folder after the records have been written to the log file. -/
def writeFiles (s : Setup) (appends : Bool) (records : List Record) (d : Folder) : Folder :=
  s.handlers.foldl (fun d h =>
    match h with
    | .file p => d.write p.segments appends (Text.Utf8.encode (s.output h records).toList)
    | _ => d) d

end Setup

end LayeredConfig.Log
