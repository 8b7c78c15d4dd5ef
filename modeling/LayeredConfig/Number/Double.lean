/-!
# Double-precision numbers

A double is kept by its sixty-four bits, so that two of them are the same value
exactly when they are the same number with the same sign.  A finite one is
`± mantissa · 2 ^ exponent`, and `ofRatio` rounds an exact ratio to the nearest
double, a tie going to the even mantissa.
-/

namespace LayeredConfig

/-- A double by its bits. -/
structure Double where
  /-- Sign, eleven bits of exponent, fifty-two bits of fraction. -/
  bits : UInt64
deriving DecidableEq, Inhabited

namespace Double

/-- The weight of the sign bit, two to the sixty-third. -/
def signWeight : Nat := 0x8000000000000000

/-- How many fractions there are, two to the fifty-second. -/
def fractionSize : Nat := 0x10000000000000

/-- The sign bit is set. -/
def isNegative (x : Double) : Bool :=
  decide (signWeight ≤ x.bits.toNat)

/-- The eleven bits of the exponent. -/
def exponentField (x : Double) : Nat :=
  x.bits.toNat / fractionSize % 2048

/-- The fifty-two bits of the fraction. -/
def fractionField (x : Double) : Nat :=
  x.bits.toNat % fractionSize

/-- The double is no number. -/
def isNaN (x : Double) : Bool :=
  decide (x.exponentField = 2047) && decide (x.fractionField ≠ 0)

/-- The double is one of the two infinities. -/
def isInfinite (x : Double) : Bool :=
  decide (x.exponentField = 2047) && decide (x.fractionField = 0)

/-- The double is one of the two zeros. -/
def isZero (x : Double) : Bool :=
  decide (x.exponentField = 0) && decide (x.fractionField = 0)

/-- The mantissa of a finite double. -/
def mantissa (x : Double) : Nat :=
  if x.exponentField = 0 then x.fractionField else fractionSize + x.fractionField

/-- The power of two that the mantissa of a finite double counts. -/
def exponent (x : Double) : Int :=
  if x.exponentField = 0 then -1074 else (x.exponentField : Int) - 1075

/-- The double with the given sign and the given other sixty-three bits. -/
def ofMagnitude (negative : Bool) (magnitude : Nat) : Double :=
  ⟨UInt64.ofNat (if negative then signWeight + magnitude else magnitude)⟩

/-- The infinity of the given sign. -/
def infinity (negative : Bool) : Double :=
  ofMagnitude negative (2047 * fractionSize)

/-- The double that is no number. -/
def nan : Double :=
  ofMagnitude false (2047 * fractionSize + fractionSize / 2)

/-- `2 ^ e` for `e ≥ 0`, and one below. -/
def pow2 (e : Int) : Nat :=
  Nat.pow 2 e.toNat

/-- `10 ^ e` for `e ≥ 0`, and one below. -/
def pow10 (e : Int) : Nat :=
  Nat.pow 10 e.toNat

/-- The quotient rounded to the nearest whole number, a tie to the even one. -/
def roundDiv (num den : Nat) : Nat :=
  let q := num / den
  let r := num % den
  if 2 * r < den then q
  else if den < 2 * r then q + 1
  else if q % 2 = 0 then q else q + 1

/-- The double nearest to `± num / den`, where `den` is positive. -/
def ofRatio (negative : Bool) (num den : Nat) : Double :=
  if num = 0 then ofMagnitude negative 0
  else
    let guess : Int := (num.log2 : Int) - (den.log2 : Int)
    -- the ratio lies between 2 ^ (guess - 1) and 2 ^ (guess + 1)
    let top : Int := if num * pow2 (-guess) < den * pow2 guess then guess - 1 else guess
    let e : Int := max (top - 52) (-1074)
    let m := roundDiv (num * pow2 (-e)) (den * pow2 e)
    -- a mantissa below 2 ^ 52 is subnormal, and one that rounds up to 2 ^ 53 carries
    let magnitude := if m < fractionSize then m else ((e + 1074).toNat) * fractionSize + m
    if 2047 * fractionSize ≤ magnitude then infinity negative else ofMagnitude negative magnitude

/-- The double nearest to `± digits · 10 ^ e`.  Far outside the range of doubles no power is
computed. -/
def ofDecimal (negative : Bool) (digits : Nat) (e : Int) : Double :=
  if digits = 0 then ofMagnitude negative 0
  else if 400 < e then infinity negative
  else if e + (digits.log2 : Int) / 3 < -400 then ofMagnitude negative 0
  else ofRatio negative (digits * pow10 e) (pow10 (-e))

/-- The machine number with the same bits. -/
def toFloat (x : Double) : Float :=
  Float.ofBits x.bits

/-- The double of a machine number. -/
def ofFloat (x : Float) : Double :=
  ⟨x.toBits⟩

/-- Equality of numbers: the two zeros are equal, and what is no number equals nothing. -/
def sameNumber (x y : Double) : Bool :=
  !x.isNaN && !y.isNaN && (decide (x = y) || (x.isZero && y.isZero))

/-- The double is exactly the given whole number. -/
def isInt (x : Double) (n : Int) : Bool :=
  !x.isNaN && !x.isInfinite &&
    (let signed : Int := if x.isNegative then -(x.mantissa : Int) else x.mantissa
     decide (signed * (pow2 x.exponent : Int) = n * (pow2 (-x.exponent) : Int)))

end Double

end LayeredConfig
