import LayeredConfig.Yaml.Cursor

/-!
# Tags

A tag says what kind of value a node is.  A plain text without a tag has the tag
of the first kind that it has the form of: a truth value, a number, nothing at
all, a date, or else a text.
-/

namespace LayeredConfig.Yaml.Tag

/-- The common start of the tags of the language. -/
def family : String := "tag:yaml.org,2002:"

/-- The tag of a text. -/
def str : String := family ++ "str"

/-- The tag of a sequence. -/
def seq : String := family ++ "seq"

/-- The tag of a mapping. -/
def map : String := family ++ "map"

/-- The tag of a key that merges a mapping. -/
def merge : String := family ++ "merge"

/-- The tag of a key whose value stands for the whole mapping. -/
def value : String := family ++ "value"

/-! ## The forms of plain texts -/

/-- The words that are truth values. -/
def truthWords : List String :=
  ["yes", "Yes", "YES", "no", "No", "NO", "true", "True", "TRUE", "false", "False", "FALSE",
    "on", "On", "ON", "off", "Off", "OFF"]

/-- The words that stand for nothing. -/
def nullWords : List String :=
  ["~", "null", "Null", "NULL", ""]

/-- The text after a sign, if there is one. -/
def dropSign : List Char → List Char
  | '-' :: cs => cs
  | '+' :: cs => cs
  | cs => cs

/-- A digit or an underscore. -/
def isDigitOrLine (c : Char) : Bool :=
  c.isDigit || decide (c = '_')

/-- The text after a digit and any further digits and underscores. -/
def dropNumber? : List Char → Option (List Char)
  | c :: cs => if c.isDigit then some (cs.dropWhile isDigitOrLine) else none
  | [] => none

/-- The text is one or more parts of base sixty, each after a colon; what follows them is put to a
test. -/
def sixtieths (after : List Char → Bool) : Nat → List Char → Bool
  | 0, _ => false
  | fuel + 1, ':' :: a :: b :: cs =>
    -- the part has two digits, of which the first is below six, or one
    let goesOn (rest : List Char) : Bool := after rest || sixtieths after fuel rest
    (decide ('0' ≤ a) && decide (a ≤ '5') && b.isDigit && goesOn cs) ||
      (a.isDigit && goesOn (b :: cs))
  | _, [':', a] => a.isDigit && after []
  | _, _ => false

/-- An exponent with its sign, or nothing. -/
def isExponent : List Char → Bool
  | [] => true
  | e :: s :: d :: ds =>
    (decide (e = 'e') || decide (e = 'E')) && (decide (s = '-') || decide (s = '+')) &&
      d.isDigit && ds.all Char.isDigit
  | _ => false

/-- A fraction after its point, with an exponent or without. -/
def isFraction (cs : List Char) : Bool :=
  isExponent (cs.dropWhile isDigitOrLine)

/-- The text has the form of a number with a point. -/
def isFloat (cs : List Char) : Bool :=
  let body := dropSign cs
  let whole :=
    match dropNumber? body with
    | some ('.' :: rest) => isFraction rest
    | some rest =>
      sixtieths (fun r => match r with
        | '.' :: fraction => fraction.all isDigitOrLine
        | _ => false) (rest.length + 1) rest
    | none => false
  let bare :=
    match cs with
    | '.' :: d :: rest => d.isDigit && isFraction (d :: rest)
    | _ => false
  whole || bare || [".inf", ".Inf", ".INF"].any (fun w => decide (w.toList = body)) ||
    [".nan", ".NaN", ".NAN"].any fun w => decide (w.toList = cs)

/-- The text is not empty and all its characters pass a test. -/
def allOf (test : Char → Bool) (cs : List Char) : Bool :=
  !cs.isEmpty && cs.all test

/-- The character is a digit of base sixteen or an underscore. -/
def isHexOrLine (c : Char) : Bool :=
  isDigitOrLine c || (decide ('a' ≤ c) && decide (c ≤ 'f')) || (decide ('A' ≤ c) && decide (c ≤ 'F'))

/-- The text has the form of a whole number. -/
def isInt (cs : List Char) : Bool :=
  match dropSign cs with
  | ['0'] => true
  | '0' :: 'b' :: ds => allOf (fun c => decide (c = '0') || decide (c = '1') || decide (c = '_')) ds
  | '0' :: 'x' :: ds => allOf isHexOrLine ds
  | '0' :: ds => allOf (fun c => isDigitOrLine c && decide (c ≠ '8') && decide (c ≠ '9')) ds
  | body =>
    match dropNumber? body with
    | some [] => true
    | some rest => sixtieths List.isEmpty (rest.length + 1) rest
    | none => false

/-- The text after one or two digits. -/
def dropDigits? (least most : Nat) (cs : List Char) : Option (List Char) :=
  let n := ((cs.take most).takeWhile Char.isDigit).length
  if least ≤ n then some (cs.drop n) else none

/-- The text after a character that stands in front of it. -/
def dropChar? (x : Char) : List Char → Option (List Char)
  | c :: cs => if c = x then some cs else none
  | [] => none

/-- The character is a space or a tabulator. -/
def isBlank (c : Char) : Bool :=
  decide (c = ' ') || decide (c = '\t')

/-- A distance from universal time, or nothing. -/
def isZone (cs : List Char) : Bool :=
  match cs.dropWhile isBlank with
  | [] => cs.isEmpty
  | ['Z'] => true
  | s :: rest =>
    (decide (s = '-') || decide (s = '+')) &&
      (match dropDigits? 1 2 rest with
        | some [] => true
        | some (':' :: minutes) => decide (dropDigits? 2 2 minutes = some [])
        | _ => false)

/-- A time of day after the mark or the blanks between date and time. -/
def isTime (cs : List Char) : Bool :=
  let rest? : Option (List Char) := do
    let cs ← dropDigits? 1 2 cs
    let cs ← dropDigits? 2 2 (← dropChar? ':' cs)
    dropDigits? 2 2 (← dropChar? ':' cs)
  match rest? with
  | some ('.' :: rest) => isZone (rest.dropWhile Char.isDigit)
  | some rest => isZone rest
  | none => false

/-- The time after a date with a mark or blanks between them. -/
def timeAfter? : List Char → Option (List Char)
  | c :: cs =>
    if c = 'T' ∨ c = 't' then some cs
    else if isBlank c then some (cs.dropWhile isBlank)
    else none
  | [] => none

/-- The text has the form of a date, or of a date with a time. -/
def isTimestamp (cs : List Char) : Bool :=
  let year? : Option (List Char) := do dropChar? '-' (← dropDigits? 4 4 cs)
  let short? : Option (List Char) := do
    let cs ← dropDigits? 2 2 (← year?)
    dropDigits? 2 2 (← dropChar? '-' cs)
  let long? : Option (List Char) := do
    let cs ← dropDigits? 1 2 (← year?)
    dropDigits? 1 2 (← dropChar? '-' cs)
  decide (short? = some []) || ((long?.bind timeAfter?).elim false isTime)

/-- The text without a line feed at its end. -/
def dropLineEnd (cs : List Char) : List Char :=
  if cs.getLast? = some '\n' then cs.dropLast else cs

/-- The tag of a plain text.  A line feed at the end does not count. -/
def ofPlain (text : String) : String :=
  let cs := dropLineEnd text.toList
  let word := String.ofList cs
  if text ≠ "" ∧ word = "" then str
  else if truthWords.contains word then family ++ "bool"
  else if isFloat cs then family ++ "float"
  else if isInt cs then family ++ "int"
  else if word = "<<" then merge
  else if nullWords.contains word then family ++ "null"
  else if isTimestamp cs then family ++ "timestamp"
  else if word = "=" then value
  else if word = "!" ∨ word = "&" ∨ word = "*" then family ++ "yaml"
  else str

end LayeredConfig.Yaml.Tag
