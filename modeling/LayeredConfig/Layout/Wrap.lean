import LayeredConfig.Text.Blank
import LayeredConfig.Text.Width

/-!
# Wrapping lines

A line that is wider than the page is broken before a word.  A word that fits on
no line is folded: it starts on a line of its own and is cut where the page
ends.  Blanks stay at the end of the line before the break, as far as the page
goes.
-/

namespace LayeredConfig.Layout

open LayeredConfig.Text

/-- The text cut before each word: a word takes the blanks after it with it, the first one also
those before it.  Blanks alone make no word. -/
def wordsFrom : Nat → List Char → List (List Char)
  | 0, _ => []
  | fuel + 1, cs =>
    let lead := cs.takeWhile isBlank
    let rest := cs.dropWhile isBlank
    if rest.isEmpty then []
    else
      let word := rest.takeWhile fun c => !isBlank c
      let rest := rest.dropWhile fun c => !isBlank c
      (lead ++ word ++ rest.takeWhile isBlank) :: wordsFrom fuel (rest.dropWhile isBlank)

/-- The words of a line. -/
def words (cs : List Char) : List (List Char) :=
  wordsFrom (cs.length + 1) cs

/-- A word cut into pieces no wider than the page. -/
def chop (width : Nat) : List Char → Nat → List Char → List (List Char)
  | piece, _, [] => [piece.reverse]
  | piece, used, c :: cs =>
    if width < used + cellWidth c then piece.reverse :: chop width [c] (cellWidth c) cs
    else chop width (c :: piece) (used + cellWidth c) cs

/-- The lines so far, the last one first, and the cells that the open line takes. -/
structure Breaking where
  /-- The lines that are done, the last one first. -/
  done : List (List Char)
  /-- The open line. -/
  line : List Char
  /-- The cells of the open line. -/
  used : Nat

/-- The lines with the open one closed, unless it is empty. -/
def Breaking.close (b : Breaking) : List (List Char) :=
  if b.line.isEmpty then b.done else b.line :: b.done

/-- The lines after a further word. -/
def Breaking.add (width : Nat) (b : Breaking) (word : List Char) : Breaking :=
  let size := cellCount (trimEnd word)
  if b.used + size ≤ width then
    { b with line := b.line ++ word, used := b.used + cellCount word }
  else if width < size then
    match (chop width [] 0 word).reverse with
    | [] => b
    | last :: before => ⟨before ++ b.close, last, cellCount last⟩
  else ⟨b.close, word, cellCount word⟩

/-- The line without blanks that reach over the edge of the page. -/
def cropBlanks (width : Nat) (cs : List Char) : List Char :=
  let blanks := cs.length - (trimEnd cs).length
  cs.take (cs.length - min blanks (cs.length - width))

/-- The first cells of a line; half of a wide character becomes a blank. -/
def takeCells : Nat → List Char → List Char
  | _, [] => []
  | room, c :: cs =>
    if cellWidth c ≤ room then c :: takeCells (room - cellWidth c) cs
    else List.replicate room ' '

/-- The line cut at the edge of the page. -/
def crop (width : Nat) (cs : List Char) : List Char :=
  if width < cellCount cs then takeCells width cs else cs

/-- The lines that one line becomes. -/
def wrap (width : Nat) (cs : List Char) : List (List Char) :=
  let lines :=
    match words cs with
    | [] => [cs]
    | ws =>
      let b := ws.foldl (Breaking.add width) ⟨[], [], 0⟩
      (b.line :: b.done).reverse
  lines.map fun l => crop width (cropBlanks width l)

/-- The distance between two tabulator stops. -/
def tabWidth : Nat := 8

/-- The line with spaces up to the next stop in place of each tabulator. -/
def expandTabs : Nat → List Char → List Char
  | _, [] => []
  | used, c :: cs =>
    if c = '\t' then
      let room := tabWidth - used % tabWidth
      List.replicate room ' ' ++ expandTabs (used + room) cs
    else c :: expandTabs (used + cellWidth c) cs

/-- A text on a page of the given width, with a line feed after each line. -/
def page (width : Nat) (cs : List Char) : String :=
  String.ofList <|
    ((cs.splitOn '\n').flatMap fun l => wrap width (expandTabs 0 l)).flatMap fun l => l ++ ['\n']

end LayeredConfig.Layout
