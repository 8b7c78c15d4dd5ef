import LayeredConfig.Yaml.Problem

/-!
# Blocks of text

A block is a text by its indentation.  A bar keeps its line breaks, an angle
folds them: one break between two lines that start with a letter counts as a
space.  A sign after the mark says what becomes of the breaks at the end, a
digit how far the block is indented.
-/

namespace LayeredConfig.Yaml.Block

/-- What becomes of the line breaks at the end of a block. -/
inductive Chomping where
  /-- One is kept. -/
  | clip
  /-- None is kept. -/
  | strip
  /-- All are kept. -/
  | keep
deriving DecidableEq

/-- The sign of a way to end a block. -/
def chomping? (x : Char) : Option Chomping :=
  if x = '+' then some .keep else if x = '-' then some .strip else none

/-- The depth that a digit gives; zero is none. -/
def readDepth (c : Cursor) : Except Stop (Option Nat × Cursor) :=
  if c.peek = '0' then .error (.problem .badBlockHead c.mark)
  else if c.peek.isDigit then .ok (some (c.peek.toNat - 48), c.next)
  else .ok (none, c)

/-- The signs after the mark of a block, in either order. -/
def readSigns (c : Cursor) : Except Stop (Chomping × Option Nat × Cursor) := do
  let (chomping, depth, c) ←
    match chomping? c.peek with
    | some k => do
      let (depth, c) ← readDepth c.next
      pure (k, depth, c)
    | none => do
      let (depth, c) ← readDepth c
      match depth, chomping? c.peek with
      | some _, some k => pure (k, depth, c.next)
      | _, _ => pure (Chomping.clip, depth, c)
  if isSpaceOrEnd c.peek then return (chomping, depth, c)
  else throw (.problem .badBlockHead c.mark)

/-- The end of the line on which a block is announced. -/
def skipHead (c : Cursor) : Except Stop Cursor :=
  let c := c.skipSpaces.skipRemark
  if !isBreakOrEnd c.peek then .error (.problem .badBlockHead c.mark)
  else
    match c.readBreak with
    | some (_, c) => .ok c
    | none => .ok c

/-- Empty lines in front of a block, and the greatest column that spaces in them reach. -/
def readLeading : Nat → Nat → Cursor → List Char × Nat × Cursor
  | 0, depth, c => ([], depth, c)
  | fuel + 1, depth, c =>
    let c := c.skipSpaces
    let depth := max depth c.column
    match c.readBreak with
    | none => ([], depth, c)
    | some (x, c) =>
      let (xs, depth, c) := readLeading fuel depth c
      (x :: xs, depth, c)

/-- The cursor after spaces, at most up to a column. -/
def skipIndent (depth : Nat) : Nat → Cursor → Cursor
  | 0, c => c
  | fuel + 1, c =>
    if c.column < depth ∧ c.peek = ' ' then skipIndent depth fuel c.next else c

/-- The line breaks of empty lines, up to a line that is not empty. -/
def readBreaks (depth : Nat) : Nat → Cursor → List Char × Cursor
  | 0, c => ([], c)
  | fuel + 1, c =>
    let c := skipIndent depth depth c
    match c.readBreak with
    | none => ([], c)
    | some (x, c) =>
      let (xs, c) := readBreaks depth fuel c
      (x :: xs, c)

/-- The cursor stands where a line of the block starts. -/
def atLine (depth : Nat) (c : Cursor) : Bool :=
  decide (c.column = depth) && decide (c.peek ≠ endChar)

/-- The character is a blank within a line. -/
def isBlank (x : Char) : Bool :=
  decide (x = ' ') || decide (x = '\t')

/-- The lines of a block after the given breaks, with the break after the last line, and the
breaks of empty lines after that. -/
def readLines (folded : Bool) (depth : Nat) :
    Nat → List Char → Cursor → List Char × List Char × List Char × Cursor
  | 0, breaks, c => ([], [], breaks, c)
  | fuel + 1, breaks, c =>
    if !atLine depth c then ([], [], breaks, c)
    else
      let indented := isBlank c.peek
      let (line, c) := c.span fun x => !isBreak x
      let (last, c) :=
        match c.readBreak with
        | some (x, c) => ([x], c)
        | none => ([], c)
      let (breaks', c) := readBreaks depth (c.rest.length + 1) c
      if atLine depth c then
        let joint :=
          if folded && last = ['\n'] && !indented && !isBlank c.peek then
            if breaks'.isEmpty then [' '] else []
          else last
        let (text, last, tail, c) := readLines folded depth fuel breaks' c
        (breaks ++ line ++ joint ++ text, last, tail, c)
      else (breaks ++ line, last, breaks', c)

/-- The block in front of the cursor, below a collection of the given indentation. -/
def read (folded : Bool) (indent : Int) (c : Cursor) : Except Stop (List Char × Cursor) := do
  let (chomping, depth?, c) ← readSigns c.next
  let c ← skipHead c
  let least := (max (indent + 1) 1).toNat
  let fuel := c.rest.length + 1
  let (depth, breaks, c) :=
    match depth? with
    | none =>
      let (breaks, found, c) := readLeading fuel 0 c
      (max least found, breaks, c)
    | some n =>
      let depth := least + n - 1
      let (breaks, c) := readBreaks depth fuel c
      (depth, breaks, c)
  let (text, last, tail, c) := readLines folded depth fuel breaks c
  match chomping with
  | .strip => return (text, c)
  | .clip => return (text ++ last, c)
  | .keep => return (text ++ last ++ tail, c)

end LayeredConfig.Yaml.Block
