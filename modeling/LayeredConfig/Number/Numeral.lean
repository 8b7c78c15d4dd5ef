import LayeredConfig.Number.Reading
import LayeredConfig.Text.Blank
import LayeredConfig.Text.Quoted

/-!
# Numerals

A numeral is a whole text that writes a number: blanks around it, a sign, and
digits of any script.  A whole number in base two, eight or sixteen may carry
the mark of its base.  Decimal numerals are limited in length both ways: a
longer one is not read, and a number that would need one is not written.
-/

namespace LayeredConfig

/-- Why a text is no numeral, or why a number has none. -/
inductive NumeralError where
  /-- The text writes no whole number in the base. -/
  | notNumeral (base : Nat) (text : String)
  /-- The numeral has too many digits. -/
  | tooLong (digits : Nat)
  /-- The text writes no double. -/
  | notDouble (text : String)
  /-- The number has too many digits to be written. -/
  | tooLarge
deriving DecidableEq, Inhabited

namespace NumeralError

/-- The greatest number of decimal digits of a numeral. -/
def maxDigits : Nat := 4300

/-- The error in words, which show the start of the text. -/
def message : NumeralError → String
  | notNumeral base s =>
    "invalid literal for int() with base " ++ toString base ++ ": " ++
      String.ofList ((Text.quoted s).toList.take 200)
  | tooLong n =>
    "Exceeds the limit (" ++ toString maxDigits ++ " digits) for integer string conversion: " ++
      "value has " ++ toString n ++ " digits; use sys.set_int_max_str_digits() to increase the limit"
  | notDouble s => "could not convert string to float: " ++ Text.quoted s
  | tooLarge =>
    "Exceeds the limit (" ++ toString maxDigits ++ " digits) for integer string conversion; " ++
      "use sys.set_int_max_str_digits() to increase the limit"

end NumeralError

namespace Numeral

/-- The number has a decimal numeral.  The power is not computed for numbers of an ordinary size. -/
def isWritable (n : Int) : Bool :=
  if n.natAbs < 1000000000000000000 then true
  else decide (n.natAbs < Nat.pow 10 NumeralError.maxDigits)

theorem isWritable_iff {n : Int} :
    isWritable n = true ↔ n.natAbs < Nat.pow 10 NumeralError.maxDigits := by
  have hpow {digits : Nat} (h : 18 ≤ digits) : Nat.pow 10 18 ≤ Nat.pow 10 digits :=
    Nat.pow_le_pow_right (by decide) h
  have hbound : 1000000000000000000 ≤ Nat.pow 10 NumeralError.maxDigits := hpow (by decide)
  unfold isWritable
  split
  · rename_i h
    exact iff_of_true rfl (Nat.lt_of_lt_of_le h hbound)
  · exact decide_eq_true_iff

/-- The value of a character as a digit: decimal digits of every script, and Latin letters from
ten on. -/
def digit? (c : Char) : Option Nat :=
  match Text.digitValue? c with
  | some n => some n
  | none =>
    if 'a' ≤ c ∧ c ≤ 'z' then some (c.toNat - 87)
    else if 'A' ≤ c ∧ c ≤ 'Z' then some (c.toNat - 55)
    else none

/-- The value of a character as a digit of a base. -/
def digitOf? (base : Nat) (c : Char) : Option Nat :=
  (digit? c).filter fun n => decide (n < base)

/-- The letter that marks a base after a zero. -/
def mark? (base : Nat) : Option Char :=
  [(2, 'b'), (8, 'o'), (16, 'x')].lookup base

/-- The text without the mark of its base. -/
def dropMark (base : Nat) : List Char → List Char
  | '0' :: c :: cs => if mark? base = some c.toLower then cs else '0' :: c :: cs
  | cs => cs

/-- The whole number that a text writes in a base.  Only decimal numerals are limited in length. -/
def readInt (base : Nat) (s : String) : Except NumeralError Int :=
  let (negative, body) := Double.splitSign (Text.trim s.toList)
  let body := dropMark base body
  let digits := body.takeWhile fun c => (digitOf? base c).isSome
  if base = 10 ∧ NumeralError.maxDigits < digits.length then .error (.tooLong digits.length)
  else if digits.isEmpty ∨ digits.length < body.length then .error (.notNumeral base s)
  else
    let n := (digits.filterMap (digitOf? base)).foldl (fun n d => base * n + d) 0
    .ok (if negative then -(n : Int) else n)

/-- A decimal digit of any script as the ASCII digit of its value. -/
def plainDigit (c : Char) : Char :=
  match Text.digitValue? c with
  | some n => Char.ofNat (48 + n)
  | none => c

/-- The double that a text writes. -/
def readDouble (s : String) : Except NumeralError Double :=
  match Double.ofText? (String.ofList ((Text.trim s.toList).map plainDigit)) with
  | some x => .ok x
  | none => .error (.notDouble s)

end Numeral

end LayeredConfig
