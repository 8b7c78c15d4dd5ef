/-!
# Blanks around a text

The blanks that trimming removes: the white space of every script and the four
information separators.
-/

namespace LayeredConfig.Text

/-- The character is removed from the ends of a trimmed text. -/
def isBlank (c : Char) : Bool :=
  let n := c.toNat
  (decide (9 ≤ n) && decide (n ≤ 13)) || (decide (28 ≤ n) && decide (n ≤ 32)) ||
    [0x85, 0xa0, 0x1680, 0x2028, 0x2029, 0x202f, 0x205f, 0x3000].contains n ||
    (decide (0x2000 ≤ n) && decide (n ≤ 0x200a))

/-- The text without the blanks at its end. -/
def trimEnd (cs : List Char) : List Char :=
  (cs.reverse.dropWhile isBlank).reverse

/-- The text without the blanks at its two ends. -/
def trim (cs : List Char) : List Char :=
  trimEnd (cs.dropWhile isBlank)

end LayeredConfig.Text
