import LayeredConfig.Number.Numeral
import LayeredConfig.Path.Segments
import LayeredConfig.Value.Tree

/-!
# Looking a path up

A segment names the entry of a mapping with that text as its key or, failing
that, the first entry whose key has that written form.  To find that one the
keys are written one by one, which fails at a key that has no written form.  In
a row of values a segment of digits is a position, counted from zero.
-/

namespace LayeredConfig

namespace Path

/-- The position that a segment names, if it is made of digits. -/
def index? (segment : String) : Except NumeralError (Option Nat) :=
  let cs := segment.toList
  if cs.isEmpty || !cs.all Text.isDigit then .ok none
  else
    let numeral := cs.takeWhile fun c => (Text.digitValue? c).isSome
    if NumeralError.maxDigits < numeral.length then .error (.tooLong numeral.length)
    else if numeral.length < cs.length then .error (.notNumeral 10 segment)
    else .ok (some (Text.digitsValue (numeral.filterMap Text.digitValue?)))

end Path

/-- The place of the first entry that satisfies a test. -/
def findPlace? {β : Type} (test : Key → Bool) : List (Key × β) → Option (Nat × β)
  | [] => none
  | (k, v) :: es =>
    if test k then some (0, v) else (findPlace? test es).map fun (i, w) => (i + 1, w)

namespace Tree

variable {α : Type}

/-- The first entry whose key is written as a segment, with its place, if all keys before it have a
written form. -/
def textPlace? (segment : String) :
    List (Key × Tree α) → Except NumeralError (Option (Nat × Tree α))
  | [] => .ok none
  | (k, v) :: es =>
    if !k.isWritable then .error .tooLarge
    else if k.text = segment then .ok (some (0, v))
    else (textPlace? segment es).map (Option.map fun hit => (hit.1 + 1, hit.2))

/-- The entry of a mapping that a segment names, with its place. -/
def namedPlace? (segment : String) (es : List (Key × Tree α)) :
    Except NumeralError (Option (Nat × Tree α)) :=
  match findPlace? (fun k => (Key.str segment).same k) es with
  | some hit => .ok (some hit)
  | none => textPlace? segment es

/-- The value at a position, with the position. -/
def item? (segment : String) (items : List (Tree α)) :
    Except NumeralError (Option (Nat × Tree α)) := do
  match ← Path.index? segment with
  | none => return none
  | some i => return (items[i]?).map fun v => (i, v)

/-- The child that a segment names, with its place among the children. -/
def child? (segment : String) : Tree α → Except NumeralError (Option (Nat × Tree α))
  | map _ es => namedPlace? segment es
  | list _ items => item? segment items
  | tuple items => item? segment items
  | atom (.bytes bs) => item? segment (bs.map fun b => atom (.int b.toNat))
  | _ => .ok none

/-- The value that the segments lead to, with the places passed on the way. -/
def locate? : List String → Tree α → Except NumeralError (Option (List Nat × Tree α))
  | [], t => .ok (some ([], t))
  | s :: ss, t => do
    match ← child? s t with
    | none => return none
    | some (i, u) => return (← locate? ss u).map fun (steps, v) => (i :: steps, v)

/-- The value at a path with its place; the empty path leads nowhere. -/
def find? (path : String) (t : Tree α) : Except NumeralError (Option (List Nat × Tree α)) :=
  if path = "" then .ok none else locate? (Path.split path) t

/-- The value at a path, or `missing` (`get_path`). -/
def get (t : Tree α) (path : String) : Except NumeralError (Tree α) := do
  match ← find? path t with
  | none => return missing
  | some (_, v) => return v

end Tree

end LayeredConfig
