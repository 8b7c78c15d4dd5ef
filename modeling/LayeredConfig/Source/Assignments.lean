import LayeredConfig.Number.Numeral
import LayeredConfig.Value.AsKey

/-!
# Modules of assignments

A configuration module is a row of lines, each of which gives a name a literal:
a word, a number, a text in quotes, or a list, a row or a mapping of literals in
brackets.  Lines without anything but a remark are skipped.
-/

namespace LayeredConfig.Source.Assignments

/-- The character may stand between the parts of a literal. -/
def isSpace (c : Char) : Bool :=
  decide (c = ' ') || decide (c = '\t') || decide (c = '\n') || decide (c = '\x0c')

/-- The text after blanks. -/
def skip (cs : List Char) : List Char :=
  cs.dropWhile isSpace

/-- The character may stand in a name. -/
def isNameChar (c : Char) : Bool :=
  c.isAlphanum || decide (c = '_') || decide (128 ≤ c.toNat)

/-- The text after blanks and a remark on the same line. -/
def skipRemark (cs : List Char) : List Char :=
  match cs.dropWhile fun c => decide (c = ' ') || decide (c = '\t') with
  | '#' :: rest => rest.dropWhile (· ≠ '\n')
  | rest => rest

/-- The character that an escape of one letter writes. -/
def letterEscape? (c : Char) : Option Char :=
  [('\\', '\\'), ('\'', '\''), ('"', '"'), ('a', '\x07'), ('b', '\x08'), ('f', '\x0c'),
    ('n', '\n'), ('r', '\r'), ('t', '\t'), ('v', '\x0b')].lookup c

/-- How many hexadecimal digits follow the letter of an escape. -/
def hexEscape? (c : Char) : Option Nat :=
  [('x', 2), ('u', 4), ('U', 8)].lookup c

/-- The number that digits write in a base. -/
def number? (base : Nat) (cs : List Char) : Option Nat :=
  cs.foldl (fun acc c => do return base * (← acc) + (← Numeral.digitOf? base c)) (some 0)

/-- The text of an escape, given what follows its backslash, with the count of the characters
read.  What is no escape stays as it is. -/
def escape? : List Char → Option (List Char × Nat)
  | [] => none
  | '\n' :: _ => some ([], 1)
  | c :: rest =>
    match letterEscape? c, hexEscape? c with
    | some d, _ => some ([d], 1)
    | none, some n =>
      if rest.length < n then none
      else (number? 16 (rest.take n)).map fun code => ([Char.ofNat code], n + 1)
    | none, none =>
      let octal := ((c :: rest).take 3).takeWhile fun d => (Numeral.digitOf? 8 d).isSome
      if octal.isEmpty then some (['\\', c], 1)
      else (number? 8 octal).map fun code => ([Char.ofNat code], octal.length)

/-- The text up to its closing quote, of which the given number of characters is already read,
with what follows it. -/
def readText? (quote : Char) : Nat → List Char → Option (List Char × List Char)
  | _, [] => none
  | n + 1, _ :: cs => readText? quote n cs
  | 0, c :: cs =>
    if c = quote then some ([], cs)
    else if c = '\n' then none
    else if c = '\\' then do
      let (text, used) ← escape? cs
      let (more, rest) ← readText? quote used cs
      return (text ++ more, rest)
    else (readText? quote 0 cs).map fun (more, rest) => (c :: more, rest)

/-- The characters of a number in front of a text.  A sign belongs to it after the letter of an
exponent. -/
def numberChars : Char → List Char → List Char
  | _, [] => []
  | before, c :: cs =>
    if isNameChar c || decide (c = '.') ||
        ((decide (c = '+') || decide (c = '-')) && (decide (before = 'e') || decide (before = 'E')))
    then c :: numberChars c cs
    else []

/-- The number that characters write. -/
def numberOf? (negative : Bool) (cs : List Char) : Option Atom :=
  let cs := cs.filter (· ≠ '_')
  if cs.isEmpty then none
  else if cs.all Char.isDigit then
    let n : Int := Double.digitsNat cs
    some (.int (if negative then -n else n))
  else (Double.unsigned? negative cs).map .float

/-- The values of words. -/
def wordValue? (word : String) : Option Atom :=
  [("None", .null), ("True", .bool true), ("False", .bool false)].lookup word

/-- The scalar in front of a text that starts with no quote and no bracket. -/
def readScalar? (cs : List Char) : Option (Atom × List Char) :=
  let word := cs.takeWhile isNameChar
  match wordValue? (String.ofList word) with
  | some a => some (a, cs.drop word.length)
  | none =>
    let (negative, body) := Double.splitSign cs
    let chars := numberChars ' ' body
    (numberOf? negative chars).map fun a => (a, body.drop chars.length)

mutual

/-- The literal in front of a text with what follows it. -/
def readLiteral? : Nat → List Char → Option (Value × List Char)
  | 0, _ => none
  | fuel + 1, cs =>
    match cs with
    | '[' :: rest => (readItems? fuel ']' (skip rest)).map fun (xs, _, rest) => (.list () xs, rest)
    | '(' :: rest =>
      (readItems? fuel ')' (skip rest)).map fun (xs, comma, rest) =>
        match xs, comma with
        | [x], false => (x, rest)
        | xs, _ => (.tuple xs, rest)
    | '\x7b' :: rest =>
      (readEntries? fuel (skip rest)).map fun (es, rest) => (.map () (Entries.ofList es), rest)
    | '\'' :: rest => readTexts? fuel '\'' rest
    | '"' :: rest => readTexts? fuel '"' rest
    | cs => (readScalar? cs).map fun (a, rest) => (.atom a, rest)

/-- A text after its opening quote, with the texts that follow it directly. -/
def readTexts? : Nat → Char → List Char → Option (Value × List Char)
  | 0, _, _ => none
  | fuel + 1, quote, cs => do
    let (text, rest) ← readText? quote 0 cs
    let more : Option (Value × List Char) :=
      match rest.dropWhile (· = ' ') with
      | '\'' :: next => readTexts? fuel '\'' next
      | '"' :: next => readTexts? fuel '"' next
      | _ => none
    match more with
    | some (.atom (.str s), rest) => return (.str (String.ofList text ++ s), rest)
    | _ => return (.str (String.ofList text), rest)

/-- Literals up to a closing bracket, and whether a comma follows one of them. -/
def readItems? : Nat → Char → List Char → Option (List Value × Bool × List Char)
  | 0, _, _ => none
  | fuel + 1, close, cs =>
    match cs with
    | [] => none
    | c :: rest =>
      if c = close then some ([], false, rest)
      else do
        let (x, rest) ← readLiteral? fuel (c :: rest)
        match skip rest with
        | ',' :: more => do
          let (xs, _, rest) ← readItems? fuel close (skip more)
          return (x :: xs, true, rest)
        | d :: rest => if d = close then return ([x], false, rest) else none
        | [] => none

/-- Entries up to the closing brace. -/
def readEntries? : Nat → List Char → Option (List (Key × Value) × List Char)
  | 0, _ => none
  | fuel + 1, cs =>
    match cs with
    | '\x7d' :: rest => some ([], rest)
    | cs => do
      let (k, rest) ← readLiteral? fuel cs
      let key ← k.toKey?.toOption
      match skip rest with
      | ':' :: more => do
        let (v, rest) ← readLiteral? fuel (skip more)
        match skip rest with
        | ',' :: more => do
          let (es, rest) ← readEntries? fuel (skip more)
          return ((key, v) :: es, rest)
        | '\x7d' :: rest => return ([(key, v)], rest)
        | _ => none
      | _ => none

end

/-- The assignment in front of a text with what follows its line. -/
def readLine? (cs : List Char) : Option ((String × Value) × List Char) := do
  let name := cs.takeWhile isNameChar
  if name.isEmpty then none
  else
    match skipRemark (cs.drop name.length) with
    | '=' :: rest => do
      let rest := rest.dropWhile (· = ' ')
      let (v, rest) ← readLiteral? (2 * rest.length + 2) rest
      match skipRemark rest with
      | [] => return ((String.ofList name, v), [])
      | '\n' :: rest => return ((String.ofList name, v), rest)
      | _ => none
    | _ => none

/-- The assignments of a text of which at most the given number is read. -/
def readLines? : Nat → List Char → Option (List (String × Value))
  | 0, _ => some []
  | fuel + 1, cs =>
    match skipRemark cs with
    | [] => some []
    | '\n' :: rest => readLines? fuel rest
    | _ => do
      let (a, rest) ← readLine? cs
      return a :: (← readLines? fuel rest)

/-- The assignments of a module in order. -/
def read? (cs : List Char) : Option (List (String × Value)) :=
  readLines? (cs.length + 1) cs

/-- The value that a name has in the end. -/
def valueOf? (name : String) (assignments : List (String × Value)) : Option Value :=
  assignments.reverse.lookup name

end LayeredConfig.Source.Assignments
