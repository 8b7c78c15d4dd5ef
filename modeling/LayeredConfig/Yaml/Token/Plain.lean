import LayeredConfig.Yaml.Problem

/-!
# Plain texts

A plain text has no marks around it.  It goes on over blanks and line breaks as
long as it is indented far enough, and it ends at a colon before a blank, at a
remark, and within brackets at what has a meaning there.
-/

namespace LayeredConfig.Yaml.Plain

/-- Line breaks and spaces up to the next text.  The text ends where a document does. -/
def readBreaks : Nat → Cursor → Option (List Char) × Cursor
  | 0, c => (some [], c)
  | fuel + 1, c =>
    let c := c.skipSpaces
    match c.readBreak with
    | none => (some [], c)
    | some (x, c) =>
      if c.atSeparator then (none, c)
      else
        let (more, c) := readBreaks fuel c
        (more.map (x :: ·), c)

/-- What stands between two parts of a plain text. -/
structure Gap where
  /-- What the gap counts as; nothing if the text ends before it. -/
  text : List Char
  /-- The gap holds a line break. -/
  broken : Bool
  /-- Where the gap ends. -/
  after : Cursor

/-- The gap at the cursor. -/
def readGap (c : Cursor) : Gap :=
  let (blanks, c) := c.span (· = ' ')
  match c.readBreak with
  | none => ⟨blanks, false, c⟩
  | some (x, c) =>
    if c.atSeparator then ⟨[], true, c⟩
    else
      match readBreaks (c.rest.length + 1) c with
      | (none, c) => ⟨[], true, c⟩
      | (some xs, c) =>
        ⟨if x ≠ '\n' then x :: xs else if xs.isEmpty then [' '] else xs, true, c⟩

/-- The text may end before a character, given the one after it. -/
def stops (inFlow : Bool) (x after : Char) : Bool :=
  isBlankOrEnd x ||
    (decide (x = ':') &&
      (isBlankOrEnd after || (inFlow && [',', '[', ']', '\x7b', '\x7d'].contains after))) ||
    (inFlow && [',', '?', '[', ']', '\x7b', '\x7d'].contains x)

/-- The characters of a plain text up to the next blank. -/
def wordOf (inFlow : Bool) : List Char → List Char
  | [] => []
  | x :: rest => if stops inFlow x (rest.headD endChar) then [] else x :: wordOf inFlow rest

/-- A plain text, and whether it ends after a line break. -/
structure Reading where
  /-- The text. -/
  text : List Char
  /-- The last gap, which does not belong to the text, holds a line break. -/
  broken : Bool
  /-- Where the text ends. -/
  stop : Mark
  /-- Where reading goes on. -/
  after : Cursor

/-- The rest of a plain text after a gap. -/
def readFrom (inFlow : Bool) (indent : Int) : Nat → Gap → Reading → Reading
  | 0, _, r => r
  | fuel + 1, gap, r =>
    let c := gap.after
    let word := if c.peek = '#' then [] else wordOf inFlow c.rest
    if word.isEmpty then { r with broken := gap.broken, after := c }
    else
      let c := c.advance word.length
      let gap' := readGap c
      let r' : Reading := ⟨r.text ++ gap.text ++ word, gap'.broken, c.mark, gap'.after⟩
      if gap'.text.isEmpty || gap'.after.peek = '#' ||
          (!inFlow && decide ((gap'.after.column : Int) < indent)) then r'
      else readFrom inFlow indent fuel gap' r'

/-- The plain text in front of the cursor, which may go on at the given column. -/
def read (inFlow : Bool) (indent : Int) (c : Cursor) : Reading :=
  readFrom inFlow indent (c.rest.length + 1) ⟨[], false, c⟩ ⟨[], false, c.mark, c⟩

end LayeredConfig.Yaml.Plain
