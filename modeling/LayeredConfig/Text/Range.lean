/-!
# Ranges of code points

The tables of the text modules are lists of closed ranges.  `inRanges` is the
one look-up on them.
-/

namespace LayeredConfig.Text

/-- Some range of the table holds the code point. -/
def inRanges (table : List (Nat × Nat)) (n : Nat) : Bool :=
  table.any fun r => decide (r.1 ≤ n) && decide (n ≤ r.2)

end LayeredConfig.Text
