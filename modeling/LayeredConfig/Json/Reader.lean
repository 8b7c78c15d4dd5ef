import LayeredConfig.Number.Reading
import LayeredConfig.Path.Lookup

/-!
# Reading JSON

One JSON value with blanks around it.  Besides the standard's values the words
for infinities and for what is no number are read.  A key that comes twice has
its last value in its first place.  A fault is reported at the text that is left
where it is found.
-/

namespace LayeredConfig.Json

/-- What is wrong with a JSON text. -/
inductive Fault where
  /-- No value starts here. -/
  | noValue
  /-- No key starts here. -/
  | noKey
  /-- There is no colon after a key. -/
  | noColon
  /-- There is no comma between items. -/
  | noComma
  /-- A text has no closing quote. -/
  | openText
  /-- A text holds a control character. -/
  | control
  /-- There is no escape of this letter. -/
  | badEscape
  /-- An escape lacks one of its four digits. -/
  | badUnit
  /-- Something follows the value. -/
  | extra
  /-- The text starts with a byte order mark. -/
  | byteOrderMark
deriving DecidableEq

/-- The fault in words. -/
def Fault.message : Fault → String
  | noValue => "Expecting value"
  | noKey => "Expecting property name enclosed in double quotes"
  | noColon => "Expecting ':' delimiter"
  | noComma => "Expecting ',' delimiter"
  | openText => "Unterminated string starting at"
  | control => "Invalid control character at"
  | badEscape => "Invalid \\escape"
  | badUnit => "Invalid \\uXXXX escape"
  | extra => "Extra data"
  | byteOrderMark => "Unexpected UTF-8 BOM (decode using utf-8-sig)"

/-- Why a text is not read. -/
inductive Stop where
  /-- A fault, with the text that is left. -/
  | fault (f : Fault) (rest : List Char)
  /-- A whole number has too many digits. -/
  | tooLong (e : NumeralError)

/-- The character may stand between values. -/
def isSpace (c : Char) : Bool :=
  decide (c = ' ') || decide (c = '\t') || decide (c = '\n') || decide (c = '\r')

/-- The text after blanks. -/
def skip (cs : List Char) : List Char :=
  cs.dropWhile isSpace

/-- The value of a hexadecimal digit. -/
def hexValue? (c : Char) : Option Nat :=
  if c.isDigit then some (c.toNat - 48)
  else if 'a' ≤ c ∧ c ≤ 'f' then some (c.toNat - 87)
  else if 'A' ≤ c ∧ c ≤ 'F' then some (c.toNat - 55)
  else none

/-- The value of four hexadecimal digits. -/
def unit? : List Char → Option Nat
  | [a, b, c, d] => do
    return 4096 * (← hexValue? a) + 256 * (← hexValue? b) + 16 * (← hexValue? c) + (← hexValue? d)
  | _ => none

/-- The character of a single letter escape. -/
def letterEscape? (c : Char) : Option Char :=
  if c = '"' ∨ c = '\\' ∨ c = '/' then some c
  else if c = 'b' then some '\x08'
  else if c = 'f' then some '\x0c'
  else if c = 'n' then some '\n'
  else if c = 'r' then some '\r'
  else if c = 't' then some '\t'
  else none

/-- The character that a code unit stands for.  A text of the source may hold half of a pair as a
character of its own, which no text does here: the replacement character stands for it. -/
def unitChar (n : Nat) : Char :=
  if 0xd800 ≤ n ∧ n < 0xe000 then '\ufffd' else Char.ofNat n

/-- The character of an escape by number, given the text after its letter; a pair of escapes may
stand for one character.  The count is that of the characters read. -/
def readUnitEscape (cs : List Char) : Except Stop (Char × Nat) :=
  -- a closing quote has to follow the four digits
  if cs.length ≤ 4 then .error (.fault .badUnit ('u' :: cs))
  else
    match unit? (cs.take 4) with
    | none => .error (.fault .badUnit ('u' :: cs))
    | some n =>
      if 0xd800 ≤ n ∧ n < 0xdc00 ∧ 10 < cs.length then
        match cs.drop 4 with
        | '\\' :: 'u' :: more =>
          match unit? (more.take 4) with
          | none => .error (.fault .badUnit ('u' :: more))
          | some m =>
            if 0xdc00 ≤ m ∧ m < 0xe000 then
              .ok (Char.ofNat (0x10000 + (n - 0xd800) * 1024 + (m - 0xdc00)), 10)
            else .ok (unitChar n, 4)
        | _ => .ok (unitChar n, 4)
      else .ok (unitChar n, 4)

/-- The text up to its closing quote, of which the given number of characters is already read,
with what follows it; `start` is the text from the opening quote on. -/
def readText (start : List Char) : Nat → List Char → Except Stop (List Char × List Char)
  | _, [] => .error (.fault .openText start)
  | n + 1, _ :: cs => readText start n cs
  | 0, c :: cs =>
    if c = '"' then .ok ([], cs)
    else if c = '\\' then
      match cs with
      | [] => .error (.fault .openText start)
      | 'u' :: more =>
        match readUnitEscape more with
        | .error e => .error e
        | .ok (d, n) =>
          (readText start (n + 1) cs).map fun (text, rest) => (d :: text, rest)
      | e :: _ =>
        match letterEscape? e with
        | some d => (readText start 1 cs).map fun (text, rest) => (d :: text, rest)
        | none => .error (.fault .badEscape (c :: cs))
    else if c.toNat < 32 then .error (.fault .control (c :: cs))
    else (readText start 0 cs).map fun (text, rest) => (c :: text, rest)

/-- The whole part of a number in front of a text. -/
def wholePart (cs : List Char) : List Char :=
  match cs with
  | '0' :: _ => ['0']
  | cs => cs.takeWhile Char.isDigit

/-- The fraction in front of a text, with its point. -/
def fractionPart (cs : List Char) : List Char :=
  match cs with
  | '.' :: rest =>
    let ds := rest.takeWhile Char.isDigit
    if ds.isEmpty then [] else '.' :: ds
  | _ => []

/-- The exponent in front of a text, with its letter. -/
def exponentPart (cs : List Char) : List Char :=
  match cs with
  | e :: rest =>
    if e = 'e' ∨ e = 'E' then
      let sign :=
        match rest with
        | s :: _ => if s = '+' ∨ s = '-' then [s] else []
        | [] => []
      let ds := (rest.drop sign.length).takeWhile Char.isDigit
      if ds.isEmpty then [] else e :: (sign ++ ds)
    else []
  | [] => []

/-- The number in front of a text with what follows it. -/
def readNumber (cs : List Char) : Except Stop (Value × List Char) :=
  let (negative, body) :=
    match cs with
    | '-' :: rest => (true, rest)
    | rest => (false, rest)
  let whole := wholePart body
  if whole.isEmpty then .error (.fault .noValue cs)
  else
    let body := body.drop whole.length
    let fraction := fractionPart body
    let body := body.drop fraction.length
    let exponent := exponentPart body
    let rest := body.drop exponent.length
    if fraction.isEmpty && exponent.isEmpty then
      if NumeralError.maxDigits < whole.length then .error (.tooLong (.tooLong whole.length))
      else
        let n : Int := Double.digitsNat whole
        .ok (.atom (.int (if negative then -n else n)), rest)
    else
      let x := (Double.unsigned? negative (whole ++ fraction ++ exponent)).getD Double.nan
      .ok (.atom (.float x), rest)

/-- The words that are values. -/
def wordValues : List (String × Atom) :=
  [("null", .null), ("true", .bool true), ("false", .bool false), ("NaN", .float Double.nan),
    ("Infinity", .float (Double.infinity false)), ("-Infinity", .float (Double.infinity true))]

/-- The word in front of a text with what follows it. -/
def readWord? (cs : List Char) : Option (Value × List Char) :=
  (wordValues.find? fun w => w.1.toList.isPrefixOf cs).map fun w =>
    (.atom w.2, cs.drop w.1.length)

mutual

/-- The value in front of a text with what follows it. -/
def readValue : Nat → List Char → Except Stop (Value × List Char)
  | 0, cs => .error (.fault .noValue cs)
  | fuel + 1, cs =>
    match cs with
    | '"' :: rest => (readText cs 0 rest).map fun (text, rest) =>
      (.str (String.ofList text), rest)
    | '{' :: rest =>
      match skip rest with
      | '}' :: after => .ok (.map () [], after)
      | rest => (readEntries fuel rest).map fun (es, after) => (.map () (Entries.ofList es), after)
    | '[' :: rest =>
      match skip rest with
      | ']' :: after => .ok (.list () [], after)
      | rest => (readItems fuel rest).map fun (xs, after) => (.list () xs, after)
    | cs =>
      match readWord? cs with
      | some hit => .ok hit
      | none => readNumber cs

/-- Items up to the closing bracket. -/
def readItems : Nat → List Char → Except Stop (List Value × List Char)
  | 0, cs => .error (.fault .noValue cs)
  | fuel + 1, cs => do
    let (x, rest) ← readValue fuel cs
    match skip rest with
    | ']' :: after => return ([x], after)
    | ',' :: more => do
      let (xs, after) ← readItems fuel (skip more)
      return (x :: xs, after)
    | rest => throw (.fault .noComma rest)

/-- Entries up to the closing brace. -/
def readEntries : Nat → List Char → Except Stop (List (Key × Value) × List Char)
  | 0, cs => .error (.fault .noKey cs)
  | fuel + 1, cs =>
    match cs with
    | '"' :: rest => do
      let (key, rest) ← readText cs 0 rest
      match skip rest with
      | ':' :: more => do
        let (v, rest) ← readValue fuel (skip more)
        let entry := (Key.str (String.ofList key), v)
        match skip rest with
        | '}' :: after => return ([entry], after)
        | ',' :: more => do
          let (es, after) ← readEntries fuel (skip more)
          return (entry :: es, after)
        | rest => throw (.fault .noComma rest)
      | rest => throw (.fault .noColon rest)
    | cs => throw (.fault .noKey cs)

end

/-- The value of a whole text. -/
def read (cs : List Char) : Except Stop Value :=
  if cs.head? = some '\ufeff' then .error (.fault .byteOrderMark cs)
  else do
    let (v, rest) ← readValue (2 * cs.length + 2) (skip cs)
    match skip rest with
    | [] => return v
    | rest => throw (.fault .extra rest)

/-- A place in a text. -/
structure Place where
  /-- The line, from 1. -/
  line : Nat
  /-- The column, from 1. -/
  column : Nat
deriving DecidableEq

/-- The place after the given part of a text. -/
def placeAfter (before : List Char) : Place :=
  ⟨before.count '\n' + 1, (before.reverse.takeWhile (· ≠ '\n')).length + 1⟩

/-- The place at which only the given rest of a text is left. -/
def placeOf (whole rest : List Char) : Place :=
  placeAfter (whole.take (whole.length - rest.length))

end LayeredConfig.Json
