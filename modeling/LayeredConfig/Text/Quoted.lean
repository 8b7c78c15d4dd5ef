import LayeredConfig.Text.Printable

/-!
# Quoted texts and bytes

A text is quoted with single quotes, unless it holds a single quote and no
double one.  Inside, the quote in use and the backslash are escaped, and what
cannot be printed is written by its code point.
-/

namespace LayeredConfig.Text

/-- A hexadecimal digit. -/
def hexDigit (n : Nat) : Char :=
  if n < 10 then Char.ofNat (48 + n) else Char.ofNat (87 + n)

/-- The number in hexadecimal with exactly the given count of digits. -/
def hexDigits : Nat → Nat → List Char
  | 0, _ => []
  | width + 1, n => hexDigits width (n / 16) ++ [hexDigit (n % 16)]

/-- The quote that goes around a text. -/
def quoteFor (cs : List Char) : Char :=
  if cs.contains '\'' && !cs.contains '"' then '"' else '\''

/-- Escapes that texts and bytes share. -/
def shortEscape? (quote c : Char) : Option (List Char) :=
  if c = quote ∨ c = '\\' then some ['\\', c]
  else if c = '\n' then some ['\\', 'n']
  else if c = '\r' then some ['\\', 'r']
  else if c = '\t' then some ['\\', 't']
  else none

/-- The written form of a character inside the given quotes. -/
def quotedChar (quote c : Char) : List Char :=
  match shortEscape? quote c with
  | some cs => cs
  | none =>
    if isPrintable c then [c]
    else if c.toNat < 256 then '\\' :: 'x' :: hexDigits 2 c.toNat
    else if c.toNat < 65536 then '\\' :: 'u' :: hexDigits 4 c.toNat
    else '\\' :: 'U' :: hexDigits 8 c.toNat

/-- The text in quotes. -/
def quotedChars (cs : List Char) : List Char :=
  let q := quoteFor cs
  q :: (cs.flatMap (quotedChar q) ++ [q])

/-- The text in quotes. -/
def quoted (s : String) : String :=
  String.ofList (quotedChars s.toList)

/-- The written form of a byte inside the given quotes. -/
def quotedByte (quote : Char) (b : UInt8) : List Char :=
  let c := Char.ofNat b.toNat
  match shortEscape? quote c with
  | some cs => cs
  | none =>
    if 32 ≤ b.toNat ∧ b.toNat < 127 then [c] else '\\' :: 'x' :: hexDigits 2 b.toNat

/-- Bytes in quotes, marked by a letter in front. -/
def quotedBytes (bs : List UInt8) : String :=
  let q := quoteFor (bs.map fun b => Char.ofNat b.toNat)
  String.ofList ('b' :: q :: (bs.flatMap (quotedByte q) ++ [q]))

end LayeredConfig.Text
