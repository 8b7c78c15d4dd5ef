import LayeredConfig.Number.Numeral
import LayeredConfig.Text.Letter

/-!
# Text styles

A style is written as words: features such as bold, a colour, a colour after
"on" for the background, and an address after "link".  Two styles that look the
same have one normal form; what is no style keeps its words.
-/

namespace LayeredConfig.Display

/-- The features of a text, in the order in which a normal form names them. -/
def features : List String :=
  ["bold", "dim", "italic", "underline", "blink", "blink2", "reverse", "conceal", "strike",
    "underline2", "frame", "encircle", "overline"]

/-- Short names of features. -/
def shortFeatures : List (String × String) :=
  [("b", "bold"), ("d", "dim"), ("i", "italic"), ("u", "underline"), ("r", "reverse"),
    ("c", "conceal"), ("s", "strike"), ("uu", "underline2"), ("o", "overline")]

/-- The feature that a word names. -/
def feature? (word : String) : Option String :=
  match shortFeatures.lookup word with
  | some f => some f
  | none => if features.contains word then some word else none

/-- The names of colours. -/
def colourNames : List String :=
  ["default", "black", "red", "green", "yellow", "blue", "magenta", "cyan", "white",
    "bright_black", "bright_red", "bright_green", "bright_yellow", "bright_blue", "bright_magenta",
    "bright_cyan", "bright_white", "grey0", "gray0", "navy_blue", "dark_blue", "blue3", "blue1",
    "dark_green", "deep_sky_blue4", "dodger_blue3", "dodger_blue2", "green4", "spring_green4",
    "turquoise4", "deep_sky_blue3", "dodger_blue1", "green3", "spring_green3", "dark_cyan",
    "light_sea_green", "deep_sky_blue2", "deep_sky_blue1", "spring_green2", "cyan3",
    "dark_turquoise", "turquoise2", "green1", "spring_green1", "medium_spring_green", "cyan2",
    "cyan1", "dark_red", "deep_pink4", "purple4", "purple3", "blue_violet", "orange4", "grey37",
    "gray37", "medium_purple4", "slate_blue3", "royal_blue1", "chartreuse4", "dark_sea_green4",
    "pale_turquoise4", "steel_blue", "steel_blue3", "cornflower_blue", "chartreuse3", "cadet_blue",
    "sky_blue3", "steel_blue1", "pale_green3", "sea_green3", "aquamarine3", "medium_turquoise",
    "chartreuse2", "sea_green2", "sea_green1", "aquamarine1", "dark_slate_gray2", "dark_magenta",
    "dark_violet", "purple", "light_pink4", "plum4", "medium_purple3", "slate_blue1", "yellow4",
    "wheat4", "grey53", "gray53", "light_slate_grey", "light_slate_gray", "medium_purple",
    "light_slate_blue", "dark_olive_green3", "dark_sea_green", "light_sky_blue3", "sky_blue2",
    "dark_sea_green3", "dark_slate_gray3", "sky_blue1", "chartreuse1", "light_green", "pale_green1",
    "dark_slate_gray1", "red3", "medium_violet_red", "magenta3", "dark_orange3", "indian_red",
    "hot_pink3", "medium_orchid3", "medium_orchid", "medium_purple2", "dark_goldenrod",
    "light_salmon3", "rosy_brown", "grey63", "gray63", "medium_purple1", "gold3", "dark_khaki",
    "navajo_white3", "grey69", "gray69", "light_steel_blue3", "light_steel_blue", "yellow3",
    "dark_sea_green2", "light_cyan3", "light_sky_blue1", "green_yellow", "dark_olive_green2",
    "dark_sea_green1", "pale_turquoise1", "deep_pink3", "magenta2", "hot_pink2", "orchid",
    "medium_orchid1", "orange3", "light_pink3", "pink3", "plum3", "violet", "light_goldenrod3",
    "tan", "misty_rose3", "thistle3", "plum2", "khaki3", "light_goldenrod2", "light_yellow3",
    "grey84", "gray84", "light_steel_blue1", "yellow2", "dark_olive_green1", "honeydew2",
    "light_cyan1", "red1", "deep_pink2", "deep_pink1", "magenta1", "orange_red1", "indian_red1",
    "hot_pink", "dark_orange", "salmon1", "light_coral", "pale_violet_red1", "orchid2", "orchid1",
    "orange1", "sandy_brown", "light_salmon1", "light_pink1", "pink1", "plum1", "gold1",
    "navajo_white1", "misty_rose1", "thistle1", "yellow1", "light_goldenrod1", "khaki1", "wheat1",
    "cornsilk1", "grey100", "gray100", "grey3", "gray3", "grey7", "gray7", "grey11", "gray11",
    "grey15", "gray15", "grey19", "gray19", "grey23", "gray23", "grey27", "gray27", "grey30",
    "gray30", "grey35", "gray35", "grey39", "gray39", "grey42", "gray42", "grey46", "gray46",
    "grey50", "gray50", "grey54", "gray54", "grey58", "gray58", "grey62", "gray62", "grey66",
    "gray66", "grey70", "gray70", "grey74", "gray74", "grey78", "gray78", "grey82", "gray82",
    "grey85", "gray85", "grey89", "gray89", "grey93", "gray93"]

/-- The part of a text between a start and an end. -/
def between? (front back : String) (cs : List Char) : Option (List Char) :=
  let f := front.toList
  let b := back.toList
  if f.isPrefixOf cs && b.isSuffixOf (cs.drop f.length) then
    some ((cs.drop f.length).take (cs.length - f.length - b.length))
  else none

/-- A number of at most the value 255. -/
def isByte (cs : List Char) : Bool :=
  match Numeral.readInt 10 (String.ofList cs) with
  | .ok n => decide (n ≤ 255)
  | .error _ => false

/-- The word names a colour: by name, by number or by its parts. -/
def isColour (word : String) : Bool :=
  let cs := word.toList
  let byHex :=
    match cs with
    | '#' :: ds => decide (ds.length = 6) &&
      ds.all fun c => (decide (c.toNat < 128)) && (Numeral.digitOf? 16 c).isSome
    | _ => false
  let byNumber :=
    match between? "color(" ")" cs with
    | some ds => decide (1 ≤ ds.length) && decide (ds.length ≤ 3) && ds.all Char.isDigit && isByte ds
    | none => false
  let byParts :=
    match between? "rgb(" ")" cs with
    | some ds =>
      let parts := ds.splitOn ','
      ds.all (fun c => (Text.digitValue? c).isSome || Text.isBlank c || decide (c = ',')) &&
        decide (parts.length = 3) && parts.all isByte
    | none => false
  colourNames.contains word || byHex || byNumber || byParts

/-- A style. -/
structure Style where
  /-- Features that are set, with whether they are on. -/
  features : List (String × Bool)
  /-- The colour. -/
  colour : Option String
  /-- The colour of the background. -/
  background : Option String
  /-- An address. -/
  link : Option String
deriving Inhabited

namespace Style

/-- The style without any feature. -/
def plain : Style := ⟨[], none, none, none⟩

/-- The style with a feature set. -/
def setFeature (s : Style) (f : String) (on : Bool) : Style :=
  { s with features := (f, on) :: s.features }

/-- The style that words describe, added to a style. -/
def addWords? : List String → Style → Option Style
  | [], s => some s
  | word :: words, s =>
    let word := Text.lower word
    if word = "on" then
      match words with
      | colour :: words =>
        if isColour (Text.lower colour) then addWords? words { s with background := some (Text.lower colour) }
        else none
      | [] => none
    else if word = "not" then
      match words with
      | f :: words => (feature? f).bind fun f => addWords? words (s.setFeature f false)
      | [] => none
    else if word = "link" then
      match words with
      | address :: words => addWords? words { s with link := some address }
      | [] => none
    else
      match feature? word with
      | some f => addWords? words (s.setFeature f true)
      | none => if isColour word then addWords? words { s with colour := some word } else none

/-- The words of a text. -/
def wordsOf : Nat → List Char → List String
  | 0, _ => []
  | fuel + 1, cs =>
    let rest := cs.dropWhile Text.isBlank
    if rest.isEmpty then []
    else
      let word := rest.takeWhile fun c => !Text.isBlank c
      String.ofList word :: wordsOf fuel (rest.drop word.length)

/-- The style in words. -/
def text (s : Style) : String :=
  let named := Display.features.filterMap fun f =>
    (s.features.lookup f).map fun on => if on then f else "not " ++ f
  let parts := named ++ s.colour.toList ++
    (s.background.elim [] fun c => ["on", c]) ++ (s.link.elim [] fun a => ["link", a])
  if parts.isEmpty then "none" else " ".intercalate parts

/-- The normal form of a style in words. -/
def normalize (description : String) : String :=
  let cs := Text.trim description.toList
  if cs.isEmpty ∨ String.ofList cs = "none" then "none"
  else
    match addWords? (wordsOf (cs.length + 1) cs) plain with
    | some s => s.text
    | none => Text.lower (String.ofList cs)

end Style

end LayeredConfig.Display
