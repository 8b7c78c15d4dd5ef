import LayeredConfig.Number.Double

/-!
# The shortest decimal that reads back

A finite double is written with the fewest digits that still round to it, and of
two such decimals with the nearer one.  For each number of digits only the two
neighbours on the decimal grid need a look: if any point of the grid rounds to
the double, one of them does.
-/

namespace LayeredConfig.Double

/-- A positive decimal `digits · 10 ^ exponent`. -/
structure Decimal where
  /-- The digits as a number. -/
  digits : Nat
  /-- The power of ten they count. -/
  exponent : Int
deriving DecidableEq, Inhabited

/-- The reals that round to a positive double, in units of `2 ^ (exponent - 2)`. -/
structure Rounding where
  /-- The double itself. -/
  center : Nat
  /-- The least real that may round to it. -/
  low : Nat
  /-- The greatest real that may round to it. -/
  high : Nat
  /-- The ends round to it too. -/
  closed : Bool
  /-- The exponent of the unit. -/
  unit : Int

/-- The interval that rounds to a positive finite double.  Below a power of two the doubles lie
twice as dense. -/
def rounding (x : Double) : Rounding :=
  let m := x.mantissa
  let below := if m = fractionSize ∧ 1 < x.exponentField then 1 else 2
  ⟨4 * m, 4 * m - below, 4 * m + 2, m % 2 = 0, x.exponent - 2⟩

/-- The decimal `d · 10 ^ k` against `n · 2 ^ u`, both sides cleared of fractions. -/
def compareGrid (d : Nat) (k : Int) (n : Nat) (u : Int) : Ordering :=
  compare (d * pow10 k * pow2 (-u)) (n * pow2 u * pow10 (-k))

/-- The decimal rounds to the double. -/
def Rounding.admits (r : Rounding) (d : Nat) (k : Int) : Bool :=
  match compareGrid d k r.low r.unit, compareGrid d k r.high r.unit with
  | .gt, .lt => true
  | .eq, _ => r.closed
  | _, .eq => r.closed
  | _, _ => false

/-- The power of ten of the leading digit of `n · 2 ^ u`, for a positive `n`. -/
def leadingPower (n : Nat) (u : Int) : Int :=
  let guess : Int := ((n.log2 : Int) + u) * 30103 / 100000
  if compareGrid 1 guess n u = .gt then guess - 1
  else if compareGrid 1 (guess + 1) n u = .gt then guess
  else guess + 1

/-- The better of the two neighbours on the grid `10 ^ k`, if one of them rounds to the double. -/
def Rounding.onGrid? (r : Rounding) (k : Int) : Option Decimal :=
  let num := r.center * pow2 r.unit * pow10 (-k)
  let den := pow10 k * pow2 (-r.unit)
  let d := num / den
  let rest := num % den
  match r.admits d k && decide (0 < d), r.admits (d + 1) k with
  | true, true =>
    if 2 * rest < den ∨ (2 * rest = den ∧ d % 2 = 0) then some ⟨d, k⟩ else some ⟨d + 1, k⟩
  | true, false => some ⟨d, k⟩
  | false, true => some ⟨d + 1, k⟩
  | false, false => none

/-- The first grid with a hit, among those of `count` further numbers of digits. -/
def Rounding.search (r : Rounding) : Nat → Int → Decimal
  | 0, k => (r.onGrid? k).getD ⟨r.center, 0⟩
  | count + 1, k =>
    match r.onGrid? k with
    | some d => d
    | none => r.search count (k - 1)

/-- The shortest decimal of a positive finite double. -/
def shortest (x : Double) : Decimal :=
  let r := x.rounding
  r.search 17 (leadingPower r.center r.unit)

/-- The digits of a number without the zeros at its end, and how many of those there were. -/
def stripZeros : Nat → Nat → Nat × Nat
  | 0, n => (n, 0)
  | fuel + 1, n =>
    if n % 10 = 0 ∧ n ≠ 0 then
      let (m, z) := stripZeros fuel (n / 10)
      (m, z + 1)
    else (n, 0)

/-- Zeros in a row. -/
def zeros (n : Nat) : String :=
  String.ofList (List.replicate n '0')

/-- The written form of a decimal: positional from `0.0001` up to sixteen digits before the
point, always with a point; else one digit before the point and an exponent of at least two
digits. -/
def Decimal.text (d : Decimal) : String :=
  let (n, extra) := stripZeros 20 d.digits
  let ds := (toString n).toList
  let point : Int := ds.length + d.exponent + extra
  if -4 < point ∧ point ≤ 16 then
    if point ≤ 0 then "0." ++ zeros (-point).toNat ++ String.ofList ds
    else if (ds.length : Int) ≤ point then
      String.ofList ds ++ zeros (point - ds.length).toNat ++ ".0"
    else String.ofList (ds.take point.toNat) ++ "." ++ String.ofList (ds.drop point.toNat)
  else
    let e := point - 1
    let shown := toString e.natAbs
    let mantissa :=
      if ds.length = 1 then String.ofList ds
      else String.ofList (ds.take 1) ++ "." ++ String.ofList (ds.drop 1)
    mantissa ++ (if e < 0 then "e-" else "e+") ++ (if shown.length < 2 then "0" else "") ++ shown

/-- The written form of a double. -/
def text (x : Double) : String :=
  if x.isNaN then "nan"
  else
    let sign := if x.isNegative then "-" else ""
    if x.isInfinite then sign ++ "inf"
    else if x.isZero then sign ++ "0.0"
    else sign ++ x.shortest.text

end LayeredConfig.Double
