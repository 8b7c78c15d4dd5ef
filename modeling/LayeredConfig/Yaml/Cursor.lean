/-!
# Cursors

A cursor stands in a text: it knows what is left and where it is.  The line
breaks of a text are the line feed, the next line character and the two
separators of lines and paragraphs; carriage returns have become line feeds
before.  At the end of the text a cursor shows the NUL character, which no text
holds.
-/

namespace LayeredConfig.Yaml

/-- A place in a text. -/
structure Mark where
  /-- The characters before. -/
  index : Nat
  /-- The lines before. -/
  line : Nat
  /-- The characters before in the same line. -/
  column : Nat
deriving DecidableEq, Inhabited

/-- The character ends a line. -/
def isBreak (c : Char) : Bool :=
  decide (c = '\n') || decide (c = '\x85') || decide (c = '\u2028') || decide (c = '\u2029')

/-- The character that shows at the end. -/
def endChar : Char := '\x00'

/-- The character ends a line, or the text is at its end. -/
def isBreakOrEnd (c : Char) : Bool :=
  decide (c = endChar) || isBreak c

/-- The character is a blank, ends a line, or the text is at its end. -/
def isBlankOrEnd (c : Char) : Bool :=
  decide (c = ' ') || decide (c = '\t') || isBreakOrEnd c

/-- The character is a space, ends a line, or the text is at its end. -/
def isSpaceOrEnd (c : Char) : Bool :=
  decide (c = ' ') || isBreakOrEnd c

/-- The place after a character.  A byte order mark takes no column. -/
def Mark.after (m : Mark) (c : Char) : Mark :=
  if isBreak c then ⟨m.index + 1, m.line + 1, 0⟩
  else if c = '\ufeff' then ⟨m.index + 1, m.line, m.column⟩
  else ⟨m.index + 1, m.line, m.column + 1⟩

/-- A place in a text with what is left of it. -/
structure Cursor where
  /-- The text that is left. -/
  rest : List Char
  /-- The place. -/
  mark : Mark
deriving Inhabited

namespace Cursor

/-- The cursor at the start of a text. -/
def start (cs : List Char) : Cursor :=
  ⟨cs, ⟨0, 0, 0⟩⟩

/-- The next character. -/
def peek (c : Cursor) : Char :=
  c.rest.headD endChar

/-- The character that the given number of others precedes. -/
def peekAt (c : Cursor) (n : Nat) : Char :=
  (c.rest[n]?).getD endChar

/-- The column of the cursor. -/
def column (c : Cursor) : Nat :=
  c.mark.column

/-- The cursor after one character. -/
def next (c : Cursor) : Cursor :=
  match c.rest with
  | [] => c
  | x :: rest => ⟨rest, c.mark.after x⟩

/-- The cursor after the given number of characters. -/
def advance (c : Cursor) : Nat → Cursor
  | 0 => c
  | n + 1 => c.next.advance n

/-- The characters up to the first that fails a test, read from a text at a place. -/
def spanFrom (test : Char → Bool) (m : Mark) : List Char → List Char × Cursor
  | [] => ([], ⟨[], m⟩)
  | x :: rest =>
    if test x then
      let (taken, c) := spanFrom test (m.after x) rest
      (x :: taken, c)
    else ([], ⟨x :: rest, m⟩)

/-- The characters up to the first that fails a test, and the cursor there. -/
def span (c : Cursor) (test : Char → Bool) : List Char × Cursor :=
  spanFrom test c.mark c.rest

/-- The cursor at the first character that fails a test. -/
def skip (c : Cursor) (test : Char → Bool) : Cursor :=
  (c.span test).2

/-- The cursor after spaces. -/
def skipSpaces (c : Cursor) : Cursor :=
  c.skip (· = ' ')

/-- The cursor at the end of a remark, if one starts here. -/
def skipRemark (c : Cursor) : Cursor :=
  if c.peek = '#' then c.skip fun x => !isBreak x else c

/-- The line break in front, as a line feed or a separator, and the cursor after it. -/
def readBreak (c : Cursor) : Option (Char × Cursor) :=
  let x := c.peek
  if !isBreak x then none
  else some (if x = '\x85' then '\n' else x, c.next)

/-- Three dashes or three points start here, with a blank after them. -/
def atSeparator (c : Cursor) : Bool :=
  let front := c.rest.take 3
  (decide (front = ['-', '-', '-']) || decide (front = ['.', '.', '.'])) &&
    isBlankOrEnd (c.peekAt 3)

end Cursor

end LayeredConfig.Yaml
