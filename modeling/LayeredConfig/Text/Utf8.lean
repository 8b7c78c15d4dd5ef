/-!
# Reading UTF-8

Bytes become characters, or the first sequence of bytes that stands for no
character is reported with its place and with what is wrong with it.  A file may
be read in blocks; the characters of the blocks before the fault are then read,
the place is counted from the start of the block, and a sequence that the end of
the file cuts off is counted for itself.
-/

namespace LayeredConfig.Text

/-- What is wrong with a sequence of bytes. -/
inductive Utf8Fault where
  /-- No sequence starts with this byte. -/
  | start
  /-- The sequence does not go on as it has to. -/
  | continuation
  /-- The bytes end inside the sequence. -/
  | truncated
deriving DecidableEq

/-- The bytes of a text do not stand for characters. -/
structure Utf8Error where
  /-- The first byte of the sequence. -/
  byte : UInt8
  /-- The place of the sequence. -/
  position : Nat
  /-- The number of bytes that are wrong. -/
  length : Nat
  /-- What is wrong. -/
  fault : Utf8Fault
deriving DecidableEq

namespace Utf8

/-- The error with a hexadecimal byte in words. -/
def byteText (b : UInt8) : String :=
  let digit (n : Nat) : Char := if n < 10 then Char.ofNat (48 + n) else Char.ofNat (87 + n)
  String.ofList ['0', 'x', digit (b.toNat / 16), digit (b.toNat % 16)]

/-- What is wrong in words. -/
def faultText : Utf8Fault → String
  | .start => "invalid start byte"
  | .continuation => "invalid continuation byte"
  | .truncated => "unexpected end of data"

end Utf8

/-- The error in words. -/
def Utf8Error.message (e : Utf8Error) : String :=
  "'utf-8' codec can't decode " ++
    (if e.length = 1 then
      "byte " ++ Utf8.byteText e.byte ++ " in position " ++ toString e.position
    else "bytes in position " ++ toString e.position ++ "-" ++
      toString (e.position + e.length - 1)) ++
    ": " ++ Utf8.faultText e.fault

namespace Utf8

/-- The byte goes on with a sequence. -/
def isTail (b : UInt8) : Bool :=
  decide (128 ≤ b.toNat) && decide (b.toNat < 192)

/-- The second byte of a sequence is in the range that its first byte allows. -/
def secondFits (first second : UInt8) : Bool :=
  isTail second &&
    (match first.toNat with
      | 0xe0 => decide (0xa0 ≤ second.toNat)
      | 0xed => decide (second.toNat < 0xa0)
      | 0xf0 => decide (0x90 ≤ second.toNat)
      | 0xf4 => decide (second.toNat < 0x90)
      | _ => true)

/-- The number of bytes of the sequence that a byte starts. -/
def sequenceLength? (b : UInt8) : Option Nat :=
  let n := b.toNat
  if n < 0x80 then some 1
  else if n < 0xc2 then none
  else if n < 0xe0 then some 2
  else if n < 0xf0 then some 3
  else if n < 0xf5 then some 4
  else none

/-- The bytes after the first one that fit, at most the given number of them. -/
def fitting (first : UInt8) : Nat → List UInt8 → Nat
  | 0, _ => 0
  | _, [] => 0
  | count + 1, b :: rest =>
    if secondFits first b then
      1 + ((rest.take count).takeWhile isTail).length
    else 0

/-- The value that the bytes of a sequence write. -/
def sequenceValue (first : UInt8) (tail : List UInt8) : Nat :=
  let lead :=
    match tail.length with
    | 0 => first.toNat
    | 1 => first.toNat % 32
    | 2 => first.toNat % 16
    | _ => first.toNat % 8
  tail.foldl (fun n b => 64 * n + b.toNat % 64) lead

/-- One step of reading: a character and how many bytes it took. -/
inductive Step where
  /-- A character of the given number of bytes. -/
  | char (c : Char) (length : Nat)
  /-- A fault in the given number of bytes. -/
  | fault (f : Utf8Fault) (length : Nat)

/-- Reads one character. -/
def step (first : UInt8) (rest : List UInt8) : Step :=
  match sequenceLength? first with
  | none => .fault .start 1
  | some n =>
    let good := fitting first (n - 1) rest
    if good = n - 1 then .char (Char.ofNat (sequenceValue first (rest.take good))) n
    else if good = rest.length then .fault .truncated (good + 1)
    else .fault .continuation (good + 1)

/-- Reads characters from the given place on, of which the given number of bytes is already read;
what is cut off at the end is given back with its length. -/
def decodeFrom : Nat → Nat → List UInt8 → Except Utf8Error (List Char × Nat)
  | _, _, [] => .ok ([], 0)
  | position, skip + 1, _ :: rest => decodeFrom (position + 1) skip rest
  | position, 0, b :: rest =>
    match step b rest with
    | .fault .truncated n => .ok ([], n)
    | .fault f n => .error ⟨b, position, n, f⟩
    | .char c n =>
      match decodeFrom (position + 1) (n - 1) rest with
      | .ok (cs, cut) => .ok (c :: cs, cut)
      | .error e => .error e

/-- The error for bytes that the end cuts off. -/
def cutError (position : Nat) (bytes : List UInt8) : Utf8Error :=
  ⟨bytes.headD 0, position, bytes.length, .truncated⟩

/-- Reads a whole text at once. -/
def decode (bytes : List UInt8) : Except Utf8Error (List Char) :=
  match decodeFrom 0 0 bytes with
  | .error e => .error e
  | .ok (cs, 0) => .ok cs
  | .ok (_, cut) =>
    .error (cutError (bytes.length - cut) (bytes.drop (bytes.length - cut)))

/-- The number of bytes of a block. -/
def blockSize : Nat := 8192

/-- Reads bytes block by block, as far as they are a text: its characters, and what is wrong behind
them.  `pending` are bytes that the block before cut off. -/
def decodeBlocks : Nat → List UInt8 → List UInt8 → List Char × Option Utf8Error
  | 0, pending, _ => ([], if pending.isEmpty then none else some (cutError 0 pending))
  | fuel + 1, pending, bytes =>
    if bytes.isEmpty then decodeBlocks 0 pending []
    else
      let block := pending ++ bytes.take blockSize
      match decodeFrom 0 0 block with
      | .error e => ([], some e)
      | .ok (cs, cut) =>
        let (more, fault) := decodeBlocks fuel (block.drop (block.length - cut)) (bytes.drop blockSize)
        (cs ++ more, fault)

/-- Reads bytes in blocks, as far as they are a text.  Nothing is read of a block with a fault. -/
def decodeInBlocks (bytes : List UInt8) : List Char × Option Utf8Error :=
  decodeBlocks (bytes.length / blockSize + 1) [] bytes

/-- The bytes of a character. -/
def encodeChar (c : Char) : List UInt8 :=
  let n := c.toNat
  let tail (k : Nat) : UInt8 := UInt8.ofNat (128 + n / Nat.pow 64 k % 64)
  if n < 0x80 then [UInt8.ofNat n]
  else if n < 0x800 then [UInt8.ofNat (0xc0 + n / 64), tail 0]
  else if n < 0x10000 then [UInt8.ofNat (0xe0 + n / 4096), tail 1, tail 0]
  else [UInt8.ofNat (0xf0 + n / 262144), tail 2, tail 1, tail 0]

/-- The bytes of a text. -/
def encode (cs : List Char) : List UInt8 :=
  cs.flatMap encodeChar

end Utf8

/-- The text with every line break written as one line feed. -/
def unifyLineBreaks : List Char → List Char
  | [] => []
  | '\r' :: '\n' :: cs => '\n' :: unifyLineBreaks cs
  | '\r' :: cs => '\n' :: unifyLineBreaks cs
  | c :: cs => c :: unifyLineBreaks cs

end LayeredConfig.Text
