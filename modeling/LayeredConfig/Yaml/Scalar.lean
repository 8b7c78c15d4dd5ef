import LayeredConfig.Text.Base64
import LayeredConfig.Text.Letter
import LayeredConfig.Value.Tree
import LayeredConfig.Yaml.Tag
import LayeredConfig.Yaml.Problem

/-!
# Values of texts

What a text is worth under its tag.  Numbers may hold underscores, and parts
between colons count in base sixty.
-/

namespace LayeredConfig.Yaml.Scalar

/-- A whole number, by the mark of its base or without. -/
def intOf (digits : List Char) : Except NumeralError Int :=
  match digits with
  | ['0'] => .ok 0
  | '0' :: 'b' :: ds => Numeral.readInt 2 (String.ofList ds)
  | '0' :: 'x' :: ds => Numeral.readInt 16 (String.ofList ds)
  | '0' :: ds => Numeral.readInt 8 (String.ofList ('0' :: ds))
  | ds =>
    if ds.contains ':' then do
      let parts ← (ds.splitOn ':').mapM fun part => Numeral.readInt 10 (String.ofList part)
      return parts.foldl (fun n d => 60 * n + d) 0
    else Numeral.readInt 10 (String.ofList ds)

/-- Sign and digits of a number, of which there is at least one. -/
def signed (cs : List Char) : Except ValueFault (Bool × List Char) :=
  match cs with
  | [] => .error .noDigits
  | _ => .ok (Double.splitSign cs)

/-- The characters of a number without underscores. -/
def bare (text : String) : List Char :=
  text.toList.filter (· ≠ '_')

/-- The whole number of a text. -/
def readInt (text : String) : Except ValueFault Int := do
  let (negative, digits) ← signed (bare text)
  if digits.isEmpty then throw .noDigits
  match intOf digits with
  | .ok n => return if negative then -n else n
  | .error e => throw (.numeral e)

/-- The product of two doubles. -/
def mul (x y : Double) : Double :=
  .ofFloat (x.toFloat * y.toFloat)

/-- The sum of two doubles. -/
def add (x y : Double) : Double :=
  .ofFloat (x.toFloat + y.toFloat)

/-- The number that parts in base sixty make, the last part first.  What a part counts has to be a
double itself. -/
def sexagesimal (base : Nat) (sum : Double) : List Double → Except ValueFault Double
  | [] => .ok sum
  | x :: xs =>
    let weight := Double.ofRatio false base 1
    if weight.isInfinite then .error .hugePart
    else sexagesimal (60 * base) (add sum (mul x weight)) xs

/-- The double of a text without its sign. -/
def doubleOf (digits : List Char) : Except ValueFault Double :=
  if String.ofList digits = ".inf" then .ok (.infinity false)
  else if String.ofList digits = ".nan" then .ok .nan
  else if digits.contains ':' then do
    let parts ← (digits.splitOn ':').mapM fun part =>
      (Numeral.readDouble (String.ofList part)).mapError .numeral
    sexagesimal 1 (.ofRatio false 0 1) parts.reverse
  else (Numeral.readDouble (String.ofList digits)).mapError .numeral

/-- The double of a text. -/
def readDouble (text : String) : Except ValueFault Double := do
  let (negative, digits) ← signed (Text.lower (String.ofList (bare text))).toList
  return mul (.ofRatio negative 1 1) (← doubleOf digits)

/-- The truth value of a word. -/
def readBool (text : String) : Except ValueFault Bool :=
  let word := Text.lower text
  match [("yes", true), ("no", false), ("true", true), ("false", false), ("on", true),
      ("off", false)].lookup word with
  | some b => .ok b
  | none => .error (.noTruth word)

/-- The number of the digits in front of a text, and the text after them. -/
def number (cs : List Char) : Nat × List Char :=
  (Double.digitsNat (cs.takeWhile Char.isDigit), cs.dropWhile Char.isDigit)

/-- The millionths of a second that the digits of a fraction write. -/
def microsOf (digits : List Char) : Nat :=
  let ds := digits.take 6
  Double.digitsNat (ds ++ List.replicate (6 - ds.length) '0')

/-- Seconds ahead of universal time. -/
def offsetOf (cs : List Char) : Option Int :=
  match cs.dropWhile Tag.isBlank with
  | [] => none
  | ['Z'] => some 0
  | s :: rest =>
    let (hours, rest) := number rest
    let (minutes, _) := number (rest.drop 1)
    let n : Int := 3600 * hours + 60 * minutes
    some (if s = '-' then -n else n)

/-- The moment of a time of day after its mark, on a date with these numbers. -/
def momentOf (year month day : Nat) (cs : List Char) : Except CalendarError DateTime := do
  let (hour, cs) := number cs
  let (minute, cs) := number (cs.drop 1)
  let (second, cs) := number (cs.drop 1)
  let (micro, cs) :=
    match cs with
    | '.' :: rest => (microsOf (rest.takeWhile Char.isDigit), rest.dropWhile Char.isDigit)
    | rest => (0, rest)
  let offset ←
    match offsetOf cs with
    | none => pure none
    | some n => (DateTime.makeOffset n).map some
  let date ← Date.make year month day
  DateTime.make date hour minute second micro offset

/-- Some form of a date that is wider than that of plain texts: month and day may have one digit
even without a time. -/
def isDate (cs : List Char) : Bool :=
  let after? : Option (List Char) := do
    let cs ← Tag.dropDigits? 1 2 (← Tag.dropChar? '-' (← Tag.dropDigits? 4 4 cs))
    Tag.dropDigits? 1 2 (← Tag.dropChar? '-' cs)
  decide (after? = some [])

/-- The date or the moment of a text. -/
def readTimestamp (text : String) : Except ValueFault Atom := do
  let cs := Tag.dropLineEnd text.toList
  if !isDate cs && !Tag.isTimestamp cs then throw .noDate
  let (year, rest) := number cs
  let (month, rest) := number (rest.drop 1)
  let (day, rest) := number (rest.drop 1)
  let made : Except CalendarError Atom :=
    match Tag.timeAfter? rest with
    | none => (Date.make year month day).map .date
    | some time => (momentOf year month day time).map .datetime
  match made with
  | .ok a => return a
  | .error e => throw (.calendar e)

/-- The kinds of scalars. -/
inductive Kind where
  /-- Nothing at all. -/
  | null
  /-- A truth value. -/
  | bool
  /-- A whole number. -/
  | int
  /-- A double. -/
  | float
  /-- Bytes. -/
  | binary
  /-- A date or a moment. -/
  | timestamp
  /-- A text. -/
  | str
deriving DecidableEq

/-- The kind of scalar that a tag asks for. -/
def Kind.ofTag? (tag : String) : Option Kind :=
  [(Tag.family ++ "null", Kind.null), (Tag.family ++ "bool", .bool), (Tag.family ++ "int", .int),
    (Tag.family ++ "float", .float), (Tag.family ++ "binary", .binary),
    (Tag.family ++ "timestamp", .timestamp), (Tag.str, .str)].lookup tag

/-- Lifts the error of a value. -/
def lift {α : Type} (x : Except ValueFault α) : Except Stop α :=
  x.mapError .value

/-- The value of a text at a place. -/
def read (kind : Kind) (text : String) (m : Mark) : Except Stop Atom :=
  match kind with
  | .null => .ok .null
  | .bool => (lift (readBool text)).map .bool
  | .int => (lift (readInt text)).map .int
  | .float => (lift (readDouble text)).map .float
  | .timestamp => lift (readTimestamp text)
  | .str => .ok (.str text)
  | .binary =>
    let cs := text.toList
    if !cs.all fun c => c.toNat < 128 then .error (.problem .badBytes m)
    else
      match Text.Base64.decode? cs with
      | some bytes => .ok (.bytes bytes)
      | none => .error (.problem .badBytes m)

end LayeredConfig.Yaml.Scalar
