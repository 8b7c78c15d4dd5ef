import LayeredConfig.Value.Tree

/-!
# Values as JSON text

JSON in ASCII only, with a space after each comma and colon.  Scalars that JSON
does not know are written as texts; keys that are neither texts nor numbers,
truth values or null have no written form, and neither has a whole number with
too many digits.  The first of these that is met is the error.
-/

namespace LayeredConfig.Json

open LayeredConfig.Text (hexDigits)

/-- A code unit written by number. -/
def unitEscape (n : Nat) : List Char :=
  '\\' :: 'u' :: hexDigits 4 n

/-- The written form of a character inside quotes. -/
def escapeChar (c : Char) : List Char :=
  if c = '"' ∨ c = '\\' then ['\\', c]
  else if c = '\n' then ['\\', 'n']
  else if c = '\r' then ['\\', 'r']
  else if c = '\t' then ['\\', 't']
  else if c = '\x0c' then ['\\', 'f']
  else if c = '\x08' then ['\\', 'b']
  else if 32 ≤ c.toNat ∧ c.toNat < 127 then [c]
  else if c.toNat < 65536 then unitEscape c.toNat
  else
    let n := c.toNat - 65536
    unitEscape (0xd800 + n / 1024) ++ unitEscape (0xdc00 + n % 1024)

/-- A text in quotes. -/
def quote (cs : List Char) : List Char :=
  '"' :: (cs.flatMap escapeChar ++ ['"'])

/-- A text in quotes. -/
def quoteText (s : String) : List Char :=
  quote s.toList

/-- A double in JSON. -/
def floatText (x : Double) : String :=
  if x.isNaN then "NaN"
  else if x.isInfinite then (if x.isNegative then "-Infinity" else "Infinity")
  else x.text

/-- A scalar in JSON, written as it is. -/
def atomText : Atom → List Char
  | .null => "null".toList
  | .bool b => (if b then "true" else "false").toList
  | .int n => (toString n).toList
  | .float x => (floatText x).toList
  | a => quoteText a.text

/-- A scalar in JSON. -/
def atomText? (a : Atom) : Except Unwritable (List Char) :=
  if a.isWritable then .ok (atomText a) else .error .number

/-- A key in JSON. -/
def keyText? : Key → Except Unwritable (List Char)
  | .atom (.str s) => .ok (quoteText s)
  | .atom .null => .ok (quoteText "null")
  | .atom (.bool b) => .ok (quoteText (if b then "true" else "false"))
  | .atom (.int n) =>
    if Numeral.isWritable n then .ok (quoteText (toString n)) else .error .number
  | .atom (.float x) => .ok (quoteText (floatText x))
  | k => .error (.key k.qualifiedTypeName)

/-- A set as plain text, written as it is. -/
def setText (members : List Key) : String :=
  if members.isEmpty then "set()" else "\x7b" ++ Key.shownAll members ++ "\x7d"

/-- A set as plain text. -/
def setText? (members : List Key) : Except Unwritable String :=
  if Key.areWritable members then .ok (setText members) else .error .number

variable {α : Type}

mutual

/-- A tree in JSON. -/
def chars? : Tree α → Except Unwritable (List Char)
  | .atom a => atomText? a
  | .list _ items => do return '[' :: (← itemChars? items) ++ [']']
  | .tuple items => do return '[' :: (← itemChars? items) ++ [']']
  | .map _ entries => do return '{' :: (← entryChars? entries) ++ ['}']
  | .set members => (setText? members).map quoteText

/-- Items with commas between them. -/
def itemChars? : List (Tree α) → Except Unwritable (List Char)
  | [] => .ok []
  | [x] => chars? x
  | x :: xs => do
    let first ← chars? x
    let rest ← itemChars? xs
    return first ++ ',' :: ' ' :: rest

/-- Entries with commas between them. -/
def entryChars? : List (Key × Tree α) → Except Unwritable (List Char)
  | [] => .ok []
  | [(k, v)] => do
    let key ← keyText? k
    let value ← chars? v
    return key ++ ':' :: ' ' :: value
  | (k, v) :: es => do
    let key ← keyText? k
    let value ← chars? v
    let rest ← entryChars? es
    return key ++ ':' :: ' ' :: value ++ ',' :: ' ' :: rest

end

/-- A tree in JSON as text. -/
def text? (t : Tree α) : Except Unwritable String :=
  (chars? t).map String.ofList

end LayeredConfig.Json
