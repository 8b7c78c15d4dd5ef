import LayeredConfig.Display.Style
import LayeredConfig.Layout.Wrap

/-!
# Marked up messages

A tag in square brackets starts a style and one with a slash ends it; a tag with
nothing but a slash ends the style that started last.  A backslash before a tag
makes it plain text.  On a page without colours only the text is left.
-/

namespace LayeredConfig.Display.Markup

/-- A tag. -/
structure Tag where
  /-- The style, with a slash if it ends. -/
  name : String
  /-- What follows an equals sign. -/
  parameters : Option String
deriving DecidableEq, Inhabited

/-- The tag as it is written. -/
def Tag.text (t : Tag) : String :=
  match t.parameters with
  | none => "[" ++ t.name ++ "]"
  | some p => "[" ++ t.name ++ "=" ++ p ++ "]"

/-- A closing tag that closes nothing. -/
inductive MarkupError where
  /-- The style has not been started. -/
  | unopened (tag : Tag) (position : Nat)
  /-- No style is open. -/
  | nothingOpen (position : Nat)
deriving DecidableEq

/-- The error in words. -/
def MarkupError.message : MarkupError → String
  | unopened t n =>
    "closing tag '" ++ t.text ++ "' at position " ++ toString n ++ " doesn't match any open tag"
  | nothingOpen n => "closing tag '[/]' at position " ++ toString n ++ " has nothing to close"

/-- A part of a marked up text. -/
inductive Part where
  /-- Plain text. -/
  | text (cs : List Char)
  /-- A tag at a position. -/
  | tag (t : Tag) (position : Nat)

/-- A tag may start with this character. -/
def startsTag (c : Char) : Bool :=
  (decide ('a' ≤ c) && decide (c ≤ 'z')) || decide (c = '#') || decide (c = '/') || decide (c = '@')

/-- The inside of a tag after its opening bracket. -/
def inside? : List Char → Option (List Char)
  | [] => none
  | c :: cs =>
    if !startsTag c then none
    else
      let body := cs.takeWhile fun d => decide (d ≠ ']') && decide (d ≠ '[')
      if (cs.drop body.length).head? = some ']' then some (c :: body) else none

/-- The tag with the given inside. -/
def tagOf (cs : List Char) : Tag :=
  let name := cs.takeWhile (· ≠ '=')
  if name.length < cs.length then
    ⟨String.ofList name, some (String.ofList (cs.drop (name.length + 1)))⟩
  else ⟨String.ofList name, none⟩

/-- Text without the backslashes before brackets that start no tag. -/
def unescape : List Char → List Char
  | '\\' :: '[' :: cs => '[' :: unescape cs
  | c :: cs => c :: unescape cs
  | [] => []

/-- The plain text up to the next tag, the backslashes before that tag, and its inside. -/
def nextTag : Nat → List Char → List Char × Option (Nat × List Char)
  | 0, cs => (cs, none)
  | _, [] => ([], none)
  | fuel + 1, c :: cs =>
    let slashes := (c :: cs).takeWhile (· = '\\')
    match (c :: cs).drop slashes.length with
    | '[' :: rest =>
      match inside? rest with
      | some body => ([], some (slashes.length, body))
      | none =>
        let (front, hit) := nextTag fuel rest
        (slashes ++ '[' :: front, hit)
    | _ =>
      let (front, hit) := nextTag fuel cs
      (c :: front, hit)

/-- The parts of a text that starts at a position. -/
def parts : Nat → Nat → List Char → List Part
  | 0, _, _ => []
  | fuel + 1, position, cs =>
    let (front, hit) := nextTag (cs.length + 1) cs
    let before := if front.isEmpty then [] else [Part.text (unescape front)]
    match hit with
    | none => before
    | some (slashes, body) =>
      let start := position + front.length
      let stop := front.length + slashes + body.length + 2
      let pairs := slashes / 2
      let kept := if pairs = 0 then [] else [Part.text (unescape (List.replicate pairs '\\'))]
      let here :=
        if slashes % 2 = 1 then Part.text (unescape ('[' :: body ++ [']']))
        else Part.tag (tagOf body) (start + 2 * pairs)
      before ++ kept ++ here :: parts fuel (position + stop) (cs.drop stop)

/-- The open styles without the one that was started last of this name. -/
def close? (name : String) : List String → Option (List String)
  | [] => none
  | s :: ss => if s = name then some ss else (close? name ss).map (s :: ·)

/-- The style that a closing tag ends, empty for the last one. -/
def closing? (t : Tag) : Option String :=
  match t.name.toList with
  | '/' :: name => some (String.ofList (Text.trim name))
  | _ => none

/-- The text of parts, given the open styles. -/
def textFrom : List String → List Part → Except MarkupError (List Char)
  | _, [] => .ok []
  | styles, .text cs :: rest => (textFrom styles rest).map (cs ++ ·)
  | styles, .tag t position :: rest =>
    match closing? t with
    | none => textFrom (Style.normalize t.name :: styles) rest
    | some "" =>
      match styles with
      | [] => .error (.nothingOpen position)
      | _ :: styles => textFrom styles rest
    | some name =>
      match close? (Style.normalize name) styles with
      | none => .error (.unopened t position)
      | some styles => textFrom styles rest

/-- The character moves the cursor of a terminal and is left out. -/
def isControl (c : Char) : Bool :=
  [7, 8, 11, 12, 13].contains c.toNat

/-- The text of a marked up message without its tags. -/
def plain (message : String) : Except MarkupError (List Char) :=
  let cs := message.toList
  (textFrom [] (parts (cs.length + 1) 0 cs)).map (·.filter fun c => !isControl c)

/-- A marked up message on a page of the given width. -/
def onPage (width : Nat) (message : String) : Except MarkupError String :=
  (plain message).map fun cs => Layout.page width cs

end LayeredConfig.Display.Markup
