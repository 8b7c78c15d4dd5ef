import LayeredConfig.Files.FilePath
import LayeredConfig.Log.Level
import LayeredConfig.Text.Percent

/-!
# Log records and their written forms

A record is a message with its level, its time and the place it comes from.  It
is written for a file, for a terminal, or by a format of the user's own.
-/

namespace LayeredConfig.Log

/-- A record. -/
structure Record where
  /-- The name of the log. -/
  name : String
  /-- The level. -/
  level : Int
  /-- The message, a format if there are values. -/
  message : String
  /-- The values of the message. -/
  args : List Value
  /-- Seconds after the start of 1970. -/
  seconds : Int
  /-- Milliseconds after the second. -/
  millis : Nat
  /-- The file of the code that reports. -/
  pathname : String
  /-- The line of the code that reports. -/
  line : Int
deriving Inhabited

namespace Record

/-- The message with its values filled in.  A single mapping that is not empty gives its values by
name. -/
def text (r : Record) : Except FormatError String :=
  match r.args with
  | [] => .ok r.message
  | [.map t (e :: es)] =>
    Percent.formatMapping r.message (.map t (e :: es)) fun name =>
      Entries.find? (.str name) (e :: es)
  | args => Percent.format r.message args

/-- Date and time in universal time. -/
def time (r : Record) : String :=
  (DateTime.ofSeconds r.seconds).text

/-- Date and time with milliseconds. -/
def fullTime (r : Record) : String :=
  r.time ++ "," ++ padDigits 3 r.millis

/-- The name of the file of the code that reports. -/
def fileName (r : Record) : String :=
  (FilePath.ofText r.pathname).name

/-- The last segment of the path as it is written, empty after a slash at the end. -/
def baseName (r : Record) : String :=
  String.ofList (r.pathname.toList.reverse.takeWhile (· ≠ '/')).reverse

end Record

/-- The text with blanks up to eight characters. -/
def padName (s : String) : String :=
  s ++ String.ofList (List.replicate (8 - s.length) ' ')

/-- How a handler writes records. -/
inductive Formatter where
  /-- Time, level, log and message, for files. -/
  | file
  /-- Level, time and message, with the place for errors. -/
  | console
  /-- A format of the user's own. -/
  | custom (format : String)
deriving DecidableEq

namespace Formatter

/-- The value of a field of a record. -/
def fieldValue? (r : Record) (message name : String) : Option Value :=
  let base := r.baseName
  let fields : List (String × Value) :=
    [("name", .str r.name), ("levelno", .atom (.int r.level)), ("levelname", .str (levelName r.level)),
      ("pathname", .str r.pathname), ("filename", .str base),
      ("module", .str (String.ofList (FilePath.cutName base).1)),
      ("lineno", .atom (.int r.line)), ("msecs", .atom (.int r.millis)),
      ("asctime", .str r.fullTime), ("message", .str message), ("msg", .str r.message)]
  fields.lookup name

/-- The record as the formatter writes it (`format`). -/
def write (f : Formatter) (r : Record) : Except FormatError String := do
  let message ← r.text
  match f with
  | file =>
    return r.time ++ " [" ++ padName (levelName r.level) ++ "] " ++ r.name ++ ": " ++ message
  | console =>
    let front := levelName r.level ++ ": " ++ r.fullTime ++ " - "
    if errorLevel ≤ r.level ∧ r.pathname ≠ "" then
      return front ++ r.fileName ++ ":" ++ toString r.line ++ " - " ++ message
    else return front ++ message
  | custom format =>
    Percent.formatMapping format (.atom .null) (fieldValue? r message)

/-- The character may stand in the name of a field. -/
def isFieldChar (c : Char) : Bool :=
  c.isAlphanum || decide (c = '_') || decide (128 ≤ c.toNat)

/-- The text starts with a directive that names a field. -/
def startsWithField (cs : List Char) : Bool :=
  match cs with
  | '%' :: '(' :: rest =>
    let name := rest.takeWhile isFieldChar
    match rest.drop name.length with
    | ')' :: rest =>
      let rest := rest.dropWhile Percent.isFlag
      let number (cs : List Char) : List Char :=
        match cs with
        | '*' :: cs => cs
        | cs => cs.dropWhile Char.isDigit
      let rest :=
        match number rest with
        | '.' :: r =>
          match r with
          | '*' :: r' => r'
          | c :: r' => if c.isDigit then r'.dropWhile Char.isDigit else '.' :: r
          | [] => ['.']
        | r => r
      !name.isEmpty && (match rest with
        | c :: _ => "diouxefgcrsa%".toList.contains c
        | [] => false)
    | _ => false
  | _ => false

/-- Some part of a format names a field. -/
def namesField : List Char → Bool
  | [] => false
  | c :: cs => startsWithField (c :: cs) || namesField cs

end Formatter

end LayeredConfig.Log
