/-!
# Bytes in base sixty-four

Four letters stand for three bytes.  Characters that are no letters are skipped;
equals signs fill up the last group, and nothing after a full last group counts.
-/

namespace LayeredConfig.Text.Base64

/-- The value of a letter. -/
def value? (c : Char) : Option Nat :=
  if 'A' ≤ c ∧ c ≤ 'Z' then some (c.toNat - 65)
  else if 'a' ≤ c ∧ c ≤ 'z' then some (c.toNat - 71)
  else if '0' ≤ c ∧ c ≤ '9' then some (c.toNat + 4)
  else if c = '+' then some 62
  else if c = '/' then some 63
  else none

/-- The bytes of the letters of one group, of which the last may be short. -/
def groupBytes (letters : List Nat) : List UInt8 :=
  match letters with
  | [a, b] => [UInt8.ofNat (a * 4 + b / 16)]
  | [a, b, c] => [UInt8.ofNat (a * 4 + b / 16), UInt8.ofNat (b % 16 * 16 + c / 4)]
  | [a, b, c, d] =>
    [UInt8.ofNat (a * 4 + b / 16), UInt8.ofNat (b % 16 * 16 + c / 4), UInt8.ofNat (c % 4 * 64 + d)]
  | _ => []

/-- The bytes of a text after the letters of a group that is not full yet and the equals signs
after them. -/
def decodeFrom (letters : List Nat) (signs : Nat) : List Char → Option (List UInt8)
  | [] => if letters.isEmpty then some [] else none
  | c :: cs =>
    if c = '=' then
      if 2 ≤ letters.length then
        if 4 ≤ letters.length + signs + 1 then some (groupBytes letters)
        else decodeFrom letters (signs + 1) cs
      else decodeFrom letters signs cs
    else
      match value? c with
      | none => decodeFrom letters signs cs
      | some n =>
        let group := letters ++ [n]
        if group.length = 4 then (decodeFrom [] 0 cs).map (groupBytes group ++ ·)
        else decodeFrom group 0 cs

/-- The bytes that a text stands for; none if its last group is neither full nor filled up. -/
def decode? (cs : List Char) : Option (List UInt8) :=
  decodeFrom [] 0 cs

end LayeredConfig.Text.Base64
