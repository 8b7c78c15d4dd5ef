import LayeredConfig.Text.Utf8
import LayeredConfig.Yaml.Problem

/-!
# Texts as far as they are read

A file is read in blocks of characters while its text is scanned.  Where a block
cannot be read, because its bytes are no text or because a control character
stands in it, the text breaks off.  What stands before is scanned as usual; only
what would need a character behind it finds out what is wrong there.
-/

namespace LayeredConfig.Yaml

/-- A text as far as it is read. -/
structure Excerpt where
  /-- The characters. -/
  chars : List Char
  /-- Why the text breaks off behind them, if it does. -/
  cut : Option Cut

/-- The character may stand in a text. -/
def isPrintable (c : Char) : Bool :=
  let n := c.toNat
  decide (c = '\t') || decide (c = '\n') || decide (n = 0x85) ||
    (decide (0x20 ≤ n) && decide (n ≤ 0x7e)) || (decide (0xa0 ≤ n) && decide (n ≤ 0xfffd)) ||
    decide (0x10000 ≤ n)

namespace Excerpt

/-- The number of characters of a block. -/
def blockLength : Nat := 4096

/-- The place where the block of a place starts.  The first two blocks are read together. -/
def blockStart (n : Nat) : Nat :=
  if n < 2 * blockLength then 0 else n - n % blockLength

/-- A text that breaks off at the block of a place. -/
def brokenAt (n : Nat) (cut : Cut) (cs : List Char) : Excerpt :=
  ⟨cs.take (blockStart n), some cut⟩

/-- The characters of a file as far as they are read, given what is wrong with the bytes behind
them.  A block is read before it is searched for control characters. -/
def ofChars (cs : List Char) (fault : Option Text.Utf8Error) : Excerpt :=
  let control := cs.findIdx fun c => !isPrintable c
  match fault with
  | some e =>
    if blockStart control < blockStart cs.length then brokenAt control .control cs
    else brokenAt cs.length (.encoding e) cs
  | none => if control < cs.length then brokenAt control .control cs else ⟨cs, none⟩

/-- The text of a file as far as it is read. -/
def ofBytes (bytes : List UInt8) : Excerpt :=
  let (cs, fault) := Text.Utf8.decodeInBlocks bytes
  ofChars (Text.unifyLineBreaks cs) fault

end Excerpt

end LayeredConfig.Yaml
