import LayeredConfig.Number.Double
import LayeredConfig.Text.Digit

/-!
# Reading decimals

A decimal is a sign, digits with at most one point among them and an exponent
after the letter `e`, of which only some digit before the exponent is needed.
The reader of a format decides which of these it admits; here the parts become a
double.
-/

namespace LayeredConfig.Double

/-- The number that ASCII digits write. -/
def digitsNat (cs : List Char) : Nat :=
  Text.digitsValue (cs.filterMap Text.digitValue?)

/-- The sign in front of a text, and the text after it. -/
def splitSign : List Char → Bool × List Char
  | '-' :: cs => (true, cs)
  | '+' :: cs => (false, cs)
  | cs => (false, cs)

/-- The character is an ASCII digit. -/
def isAsciiDigit (c : Char) : Bool :=
  c.isDigit

/-- A whole number with a sign, all of it ASCII digits. -/
def signedInt? (cs : List Char) : Option Int :=
  let (negative, ds) := splitSign cs
  if ds.isEmpty || !ds.all isAsciiDigit then none
  else some (if negative then -(digitsNat ds : Int) else digitsNat ds)

/-- The double that a decimal without a sign writes. -/
def unsigned? (negative : Bool) (cs : List Char) : Option Double :=
  let whole := cs.takeWhile isAsciiDigit
  let rest := cs.dropWhile isAsciiDigit
  let (fraction, rest) :=
    match rest with
    | '.' :: r => (r.takeWhile isAsciiDigit, r.dropWhile isAsciiDigit)
    | r => ([], r)
  if whole.isEmpty && fraction.isEmpty then none
  else
    let exponent? :=
      match rest with
      | [] => some 0
      | c :: r => if c = 'e' ∨ c = 'E' then signedInt? r else none
    exponent?.map fun e =>
      ofDecimal negative (digitsNat (whole ++ fraction)) (e - (fraction.length : Int))

/-- The double that a text writes: a decimal, an infinity or what is no number, in small letters
or capitals. -/
def ofText? (s : String) : Option Double :=
  let (negative, cs) := splitSign s.toList
  let word := String.ofList (cs.map Char.toLower)
  if word = "inf" ∨ word = "infinity" then some (infinity negative)
  else if word = "nan" then some nan
  else unsigned? negative cs

end LayeredConfig.Double
