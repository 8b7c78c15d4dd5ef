import LayeredConfig.Text.Width
import LayeredConfig.Value.Shown

/-!
# Outlines of values

A value is laid out on one line, or with each item on a line of its own,
indented by four blanks.  Containers are opened either all, or from the outside
in where a line would be too wide.  What has no written form is laid out as the
error of writing it.
-/

namespace LayeredConfig.Layout

open LayeredConfig.Text

/-- A value to be laid out: a text that is never broken, or items in brackets, each after the
text that names it. -/
inductive Outline where
  /-- A text. -/
  | text (cs : List Char)
  /-- Items in brackets.  A row of one item keeps a comma after it. -/
  | group (opening closing : Char) (isRow : Bool) (items : List (List Char × Outline))
deriving Inhabited

namespace Outline

mutual

/-- The value on one line. -/
def flat : Outline → List Char
  | text cs => cs
  | group o c isRow items =>
    o :: (flatItems items ++ (if isRow && items.length = 1 then [',', c] else [c]))

/-- Items on one line. -/
def flatItems : List (List Char × Outline) → List Char
  | [] => []
  | [(name, x)] => name ++ flat x
  | (name, x) :: xs => name ++ flat x ++ ',' :: ' ' :: flatItems xs

end

/-- How a layout breaks lines. -/
structure Page where
  /-- Every container is opened. -/
  expandAll : Bool
  /-- The number of cells of a line. -/
  width : Nat

/-- Blanks at the start of a line. -/
def blanks (n : Nat) : List Char :=
  List.replicate n ' '

/-- The value does not fit on the rest of a line, where `reserve` cells are kept for what follows
it. -/
def Page.breaks (p : Page) (indent reserve : Nat) (name : List Char) (x : Outline) : Bool :=
  p.expandAll || decide (p.width < indent + cellCount name + cellCount x.flat + reserve)

mutual

/-- The lines of a value after its name; `tail` follows it, and `reserve` cells are kept for
that. -/
def lines (p : Page) (indent reserve : Nat) (tail name : List Char) : Outline → List (List Char)
  | text cs => [blanks indent ++ name ++ cs ++ tail]
  | group o c isRow items =>
    if !items.isEmpty && p.breaks indent reserve name (group o c isRow items) then
      let single := isRow && items.length = 1
      (blanks indent ++ name ++ [o]) :: (itemLines p (indent + 4) single items ++
        [blanks indent ++ c :: tail])
    else [blanks indent ++ name ++ (group o c isRow items).flat ++ tail]

/-- The lines of items.  All but the last end in a comma, and so does a single one in a row. -/
def itemLines (p : Page) (indent : Nat) (single : Bool) :
    List (List Char × Outline) → List (List Char)
  | [] => []
  | [(name, x)] =>
    lines p indent (if single then 1 else 2) (if single then [','] else []) name x
  | (name, x) :: xs => lines p indent 2 [','] name x ++ itemLines p indent single xs

end

/-- The lines of a whole value. -/
def render (p : Page) (x : Outline) : List (List Char) :=
  lines p 0 0 [] [] x

end Outline

/-- Items in brackets, or the brackets alone. -/
def bracketed (opening closing : Char) (isRow : Bool) (items : List (List Char × Outline)) :
    Outline :=
  if items.isEmpty then .text [opening, closing] else .group opening closing isRow items

/-- A form that is shown, or the error if there is none. -/
def formOr (isWritable : Bool) (form : String) : List Char :=
  if isWritable then form.toList
  else ("<repr-error " ++ Text.quoted NumeralError.tooLarge.message ++ ">").toList

variable {α : Type}

mutual

/-- The outline of a key. -/
def ofKey : Key → Outline
  | .atom a => .text (formOr a.isWritable a.shown)
  | .tuple ks => bracketed '(' ')' true (ofKeys ks)

/-- The outlines of keys. -/
def ofKeys : List Key → List (List Char × Outline)
  | [] => []
  | k :: ks => ([], ofKey k) :: ofKeys ks

end

mutual

/-- The outline of a value. -/
def ofTree : Tree α → Outline
  | .atom a => .text (formOr a.isWritable a.shown)
  | .list _ items => bracketed '[' ']' false (ofItems items)
  | .tuple items => bracketed '(' ')' true (ofItems items)
  | .map _ es => bracketed '{' '}' false (ofEntries es)
  | .set members =>
    if members.isEmpty then .text "set()".toList else bracketed '{' '}' false (ofKeys members)

/-- The outlines of items. -/
def ofItems : List (Tree α) → List (List Char × Outline)
  | [] => []
  | x :: xs => ([], ofTree x) :: ofItems xs

/-- The outlines of entries, named by their keys. -/
def ofEntries : List (Key × Tree α) → List (List Char × Outline)
  | [] => []
  | (k, v) :: es => (formOr k.isWritable k.shown ++ [':', ' '], ofTree v) :: ofEntries es

end

end LayeredConfig.Layout
