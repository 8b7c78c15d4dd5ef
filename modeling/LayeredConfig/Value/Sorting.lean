import LayeredConfig.Value.Shown

/-!
# Sorting values

Values are put in order by comparing two of them at a time; values of kinds that
have no common order stop the sorting.  The first comparison that fails decides
the error, so the order of comparisons is part of the rule: the rising or
falling run at the front is found first, and every further value is placed by
halving.
-/

namespace LayeredConfig

/-- Why two values have no order. -/
inductive OrderError where
  /-- Their kinds have no common order. -/
  | unordered (left right : String)
  /-- A day and a moment are not compared. -/
  | dateAndMoment
  /-- Of two moments only one knows its distance from universal time. -/
  | offsetMismatch
deriving DecidableEq

/-- The error in words. -/
def OrderError.message : OrderError → String
  | unordered l r => "'<' not supported between instances of '" ++ l ++ "' and '" ++ r ++ "'"
  | dateAndMoment => "can't compare datetime.datetime to datetime.date"
  | offsetMismatch => "can't compare offset-naive and offset-aware datetimes"

/-- A number written exactly as `numerator / denominator`, or an infinity by its sign. -/
structure Ratio where
  /-- The numerator. -/
  num : Int
  /-- The denominator; zero for an infinity. -/
  den : Nat

namespace Ratio

/-- The first number is below the second. -/
def less (x y : Ratio) : Bool :=
  if x.den = 0 ∧ y.den = 0 then decide (x.num < y.num)
  else decide (x.num * y.den < y.num * x.den)

/-- The exact value of a double that is a number. -/
def ofDouble (x : Double) : Ratio :=
  let sign : Int := if x.isNegative then -1 else 1
  if x.isInfinite then ⟨sign, 0⟩
  else ⟨sign * x.mantissa * Double.pow2 x.exponent, Double.pow2 (-x.exponent)⟩

end Ratio

namespace Atom

/-- The exact value of a number, `none` for what is none. -/
def ratio? : Atom → Option (Option Ratio)
  | bool b => some (some ⟨if b then 1 else 0, 1⟩)
  | int n => some (some ⟨n, 1⟩)
  | float x => some (if x.isNaN then none else some (Ratio.ofDouble x))
  | _ => none

/-- Lists in the order of their first difference. -/
def lessList : List Nat → List Nat → Bool
  | [], [] => false
  | [], _ :: _ => true
  | _ :: _, [] => false
  | x :: xs, y :: ys => decide (x < y) || (decide (x = y) && lessList xs ys)

/-- The first scalar comes before the second. -/
def less (a b : Atom) : Except OrderError Bool :=
  match a.ratio?, b.ratio? with
  | some x, some y =>
    match x, y with
    | some p, some q => .ok (p.less q)
    | _, _ => .ok false
  | _, _ =>
    match a, b with
    | str s, str t => .ok (lessList (s.toList.map Char.toNat) (t.toList.map Char.toNat))
    | bytes s, bytes t => .ok (lessList (s.map UInt8.toNat) (t.map UInt8.toNat))
    | date d, date e => .ok (decide (d.toDays < e.toDays))
    | date _, datetime _ => .error .dateAndMoment
    | datetime _, date _ => .error .dateAndMoment
    | datetime s, datetime t =>
      if s.offset.isSome = t.offset.isSome then .ok (decide (s.toMicros < t.toMicros))
      else .error .offsetMismatch
    | _, _ => .error (.unordered a.qualifiedTypeName b.qualifiedTypeName)

end Atom

namespace Tree

variable {α : Type}

mutual

/-- The first value comes before the second. -/
def less : Tree α → Tree α → Except OrderError Bool
  | atom a, atom b => a.less b
  | list _ xs, list _ ys => lessItems xs ys
  | tuple xs, tuple ys => lessItems xs ys
  | set ks, set ls => .ok (decide (ks.length < ls.length) && ks.all fun k => ls.any (k.same ·))
  | t, u => .error (.unordered t.qualifiedTypeName u.qualifiedTypeName)

/-- Rows in the order of their first difference. -/
def lessItems : List (Tree α) → List (Tree α) → Except OrderError Bool
  | [], ys => .ok (!ys.isEmpty)
  | _ :: _, [] => .ok false
  | x :: xs, y :: ys => if x.same y then lessItems xs ys else less x y

end

/-- The front of a list that rises, or falls strictly, with what follows it. -/
def splitRun (falling : Bool) (last : Tree α) (run : List (Tree α)) :
    List (Tree α) → Except OrderError (List (Tree α) × List (Tree α))
  | [] => .ok (run, [])
  | x :: xs => do
    if (← less x last) = falling then splitRun falling x (x :: run) xs
    else return (run, x :: xs)

/-- The place of a value among sorted ones, between `low` and `low + width`, found by halving. -/
def placeBetween (x : Tree α) (sorted : List (Tree α)) : Nat → Nat → Nat → Except OrderError Nat
  | 0, low, _ => .ok low
  | fuel + 1, low, high =>
    if low < high then do
      let mid := low + (high - low) / 2
      match sorted[mid]? with
      | none => return low
      | some y =>
        if ← less x y then placeBetween x sorted fuel low mid
        else placeBetween x sorted fuel (mid + 1) high
    else .ok low

/-- Places values one after the other among sorted ones. -/
def placeAll : List (Tree α) → List (Tree α) → Except OrderError (List (Tree α))
  | [], sorted => .ok sorted
  | x :: xs, sorted => do
    let i ← placeBetween x sorted (sorted.length + 1) 0 sorted.length
    placeAll xs (sorted.take i ++ x :: sorted.drop i)

/-- The values in rising order. -/
def sort : List (Tree α) → Except OrderError (List (Tree α))
  | [] => .ok []
  | [x] => .ok [x]
  | x :: y :: rest => do
    let falling ← less y x
    let (run, others) ← splitRun falling y [y, x] rest
    placeAll others (if falling then run else run.reverse)

end Tree

end LayeredConfig
