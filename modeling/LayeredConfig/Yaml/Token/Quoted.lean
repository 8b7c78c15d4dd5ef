import LayeredConfig.Yaml.Problem

/-!
# Texts in quotes

Within quotes a line break and the blanks around it count as one space, and
empty lines as line breaks.  Within single quotes a quote is written twice;
within double quotes a backslash starts an escape.
-/

namespace LayeredConfig.Yaml.Quoted

/-- The character that an escape of one letter writes. -/
def letterEscape? (c : Char) : Option Char :=
  [('0', '\x00'), ('a', '\x07'), ('b', '\x08'), ('t', '\t'), ('\t', '\t'), ('n', '\n'),
    ('v', '\x0b'), ('f', '\x0c'), ('r', '\x0d'), ('e', '\x1b'), (' ', ' '), ('"', '"'),
    ('\\', '\\'), ('/', '/'), ('N', '\x85'), ('_', '\xa0'), ('L', '\u2028'), ('P', '\u2029')].lookup c

/-- How many digits follow the letter of an escape. -/
def codeLength? (c : Char) : Option Nat :=
  [('x', 2), ('u', 4), ('U', 8)].lookup c

/-- The value of a hexadecimal digit. -/
def hexValue? (c : Char) : Option Nat :=
  if c.toNat < 128 then Numeral.digitOf? 16 c else none

/-- The number that hexadecimal digits write. -/
def hexNumber (cs : List Char) : Nat :=
  (cs.filterMap hexValue?).foldl (fun n d => 16 * n + d) 0

/-- The character of a code; for half of a pair, which is a character in the source but none here, the
replacement character stands. -/
def characterOf (code : Nat) : Except Stop Char :=
  if 0x80000000 ≤ code then .error (.value .hugeCharacter)
  else if 0x110000 ≤ code then .error (.value .noCharacter)
  else if 0xd800 ≤ code ∧ code < 0xe000 then .ok '\ufffd'
  else .ok (Char.ofNat code)

/-- The line breaks of empty lines, up to the first line that is not empty.  A document may not
end here. -/
def readBreaks : Nat → Cursor → Except Stop (List Char × Cursor)
  | 0, c => .ok ([], c)
  | fuel + 1, c =>
    if c.atSeparator then .error (.problem .separatorInQuotes c.mark)
    else
      let c := c.skip fun x => decide (x = ' ') || decide (x = '\t')
      match c.readBreak with
      | none => .ok ([], c)
      | some (x, c) => (readBreaks fuel c).map fun (xs, c) => (x :: xs, c)

/-- Breaks after the cursor, as many as the text may hold. -/
def breaks (c : Cursor) : Except Stop (List Char × Cursor) :=
  readBreaks (c.rest.length + 1) c

/-- What an escape writes, with the cursor after its backslash. -/
def readEscape (c : Cursor) : Except Stop (List Char × Cursor) :=
  match letterEscape? c.peek, codeLength? c.peek with
  | some x, _ => .ok ([x], c.next)
  | none, some n =>
    let c := c.next
    let digits := c.rest.take n
    if digits.length < n ∨ !digits.all fun x => (hexValue? x).isSome then
      .error (.problem .badEscape c.mark)
    else (characterOf (hexNumber digits)).map fun x => ([x], c.advance n)
  | none, none =>
    match c.readBreak with
    | some (_, c) => breaks c
    | none => .error (.problem .badEscape c.mark)

/-- The character is neither a blank nor a mark within quotes. -/
def isOrdinary (x : Char) : Bool :=
  !isBlankOrEnd x && decide (x ≠ '\'') && decide (x ≠ '"') && decide (x ≠ '\\')

/-- The text up to the next blank or the closing quote. -/
def readWord (double : Bool) : Nat → Cursor → Except Stop (List Char × Cursor)
  | 0, c => .ok ([], c)
  | fuel + 1, c =>
    let (word, c) := c.span isOrdinary
    let x := c.peek
    let more (front : List Char) (c : Cursor) : Except Stop (List Char × Cursor) :=
      (readWord double fuel c).map fun (xs, c) => (word ++ front ++ xs, c)
    if !double && x = '\'' && c.peekAt 1 = '\'' then more ['\''] (c.advance 2)
    else if (double && x = '\'') || (!double && (x = '"' || x = '\\')) then more [x] c.next
    else if double && x = '\\' then
      match readEscape c.next with
      | .ok (front, c) => more front c
      | .error e => .error e
    else .ok (word, c)

/-- Blanks, or a line break with the blanks around it. -/
def readSpaces (c : Cursor) : Except Stop (List Char × Cursor) :=
  let (blanks, c) := c.span fun x => decide (x = ' ') || decide (x = '\t')
  if c.peek = endChar then .error (.problem .openQuote c.mark)
  else
    match c.readBreak with
    | none => .ok (blanks, c)
    | some (x, c) => (breaks c).map fun (xs, c) =>
      if x ≠ '\n' then (x :: xs, c)
      else if xs.isEmpty then ([' '], c)
      else (xs, c)

/-- Words and blanks up to the closing quote. -/
def readRest (quote : Char) : Nat → Cursor → Except Stop (List Char × Cursor)
  | 0, c => .error (.problem .openQuote c.mark)
  | fuel + 1, c =>
    if c.peek = quote then .ok ([], c.next)
    else do
      let (blanks, c) ← readSpaces c
      let (word, c) ← readWord (quote = '"') (c.rest.length + 1) c
      let (more, c) ← readRest quote fuel c
      return (blanks ++ word ++ more, c)

/-- The text in quotes in front of the cursor. -/
def read (c : Cursor) : Except Stop (List Char × Cursor) := do
  let quote := c.peek
  let (word, c) ← readWord (quote = '"') (c.rest.length + 1) c.next
  let (more, c) ← readRest quote (c.rest.length + 1) c
  return (word ++ more, c)

end LayeredConfig.Yaml.Quoted
