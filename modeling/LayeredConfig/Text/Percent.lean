import LayeredConfig.Value.Shown

/-!
# Percent formats

A format is a text with directives: a percent sign, a key in parentheses if
values go by name, flags, a width, a precision, and a letter.  The letter `s`
asks for the plain text of a value, `r` for its shown form, `d` and `i` for a
whole number, and a second percent sign stands for itself.
-/

namespace LayeredConfig

/-- Why a format cannot be filled. -/
inductive FormatError where
  /-- There are more directives than values. -/
  | tooFew
  /-- There are more values than directives. -/
  | tooMany
  /-- The format ends inside a directive. -/
  | incomplete
  /-- A key has no closing parenthesis. -/
  | incompleteKey
  /-- Values go by order, but a directive names one. -/
  | needsMapping
  /-- No value has this name. -/
  | unknownKey (name : String)
  /-- There is no directive of this letter. -/
  | unsupported (letter : Char) (index : Nat)
  /-- The value is no number. -/
  | notNumber (letter : Char) (typeName : String)
  /-- The value is a number that is not whole in any way. -/
  | notFinite (isNaN : Bool)
  /-- A whole number has too many digits. -/
  | tooLarge
deriving DecidableEq

/-- The error in words. -/
def FormatError.message : FormatError → String
  | tooFew => "not enough arguments for format string"
  | tooMany => "not all arguments converted during string formatting"
  | incomplete => "incomplete format"
  | incompleteKey => "incomplete format key"
  | needsMapping => "format requires a mapping"
  | unknownKey name => Text.quoted name
  | unsupported c i =>
    "unsupported format character '" ++
      (if 31 ≤ c.toNat ∧ c.toNat < 126 then String.singleton c else "?") ++ "' (0x" ++
      String.ofList (Nat.toDigits 16 c.toNat) ++ ") at index " ++ toString i
  | notNumber c name =>
    "%" ++ String.singleton c ++ " format: a real number is required, not " ++ name
  | notFinite true => "cannot convert float NaN to integer"
  | notFinite false => "cannot convert float infinity to integer"
  | tooLarge => NumeralError.tooLarge.message

/-- The value as plain text. -/
def Tree.plain {α : Type} : Tree α → String
  | .atom a => a.text
  | t => t.shown

namespace Percent

/-- A directive. -/
structure Directive where
  /-- The name of the value, if it has one. -/
  key : Option String
  /-- The flags. -/
  flags : List Char
  /-- The least number of characters. -/
  width : Nat
  /-- The greatest number of characters of a text, or the least number of digits. -/
  precision : Option Nat
  /-- The letter. -/
  letter : Char
deriving DecidableEq

/-- A part of a format. -/
inductive Part where
  /-- A character that stands for itself. -/
  | char (c : Char)
  /-- A directive with the place of its letter. -/
  | directive (d : Directive) (index : Nat)
deriving DecidableEq

/-- The character is a flag. -/
def isFlag (c : Char) : Bool :=
  ['#', '0', '-', ' ', '+'].contains c

/-- The number that digits write. -/
def number (cs : List Char) : Nat :=
  cs.foldl (fun n c => 10 * n + (c.toNat - 48)) 0

/-- The directive after a percent sign, with the number of characters it takes. -/
def directiveAt (cs : List Char) : Except FormatError (Directive × Nat) :=
  let named : Except FormatError (Option String × Nat) :=
    match cs with
    | '(' :: rest =>
      let name := rest.takeWhile (· ≠ ')')
      if name.length < rest.length then .ok (some (String.ofList name), name.length + 2)
      else .error .incompleteKey
    | _ => .ok (none, 0)
  named.bind fun (key, used) =>
    let rest := cs.drop used
    let flags := rest.takeWhile isFlag
    let rest' := rest.drop flags.length
    let width := rest'.takeWhile Char.isDigit
    let rest'' := rest'.drop width.length
    let (precision, dotted) : Option Nat × Nat :=
      match rest'' with
      | '.' :: r =>
        let ds := r.takeWhile Char.isDigit
        (some (number ds), ds.length + 1)
      | _ => (none, 0)
    match rest''.drop dotted with
    | [] => .error .incomplete
    | letter :: _ =>
      .ok (⟨key, flags, number width, precision, letter⟩,
        used + flags.length + width.length + dotted + 1)

/-- The parts of a format from the given place on, of which the given number of characters is
already read. -/
def partsFrom : Nat → Nat → List Char → Except FormatError (List Part)
  | _, _, [] => .ok []
  | i, skip + 1, _ :: cs => partsFrom (i + 1) skip cs
  | i, 0, c :: cs =>
    if c = '%' then
      match directiveAt cs with
      | .error e => .error e
      | .ok (d, n) => (partsFrom (i + 1) n cs).map (.directive d (i + n) :: ·)
    else (partsFrom (i + 1) 0 cs).map (.char c :: ·)

/-- The text filled up with blanks to a width. -/
def pad (d : Directive) (cs : List Char) : List Char :=
  let fill := List.replicate (d.width - cs.length) ' '
  if d.flags.contains '-' then cs ++ fill else fill ++ cs

/-- A whole number written by a directive. -/
def wholeText (d : Directive) (n : Int) : List Char :=
  let digits := (toString n.natAbs).toList
  let digits := List.replicate (d.precision.getD 0 - digits.length) '0' ++ digits
  let sign : List Char :=
    if n < 0 then ['-']
    else if d.flags.contains '+' then ['+']
    else if d.flags.contains ' ' then [' ']
    else []
  if d.flags.contains '0' && !d.flags.contains '-' then
    sign ++ List.replicate (d.width - sign.length - digits.length) '0' ++ digits
  else pad d (sign ++ digits)

/-- The whole part of a number. -/
def whole? (letter : Char) : Value → Except FormatError Int
  | .atom (.int n) => .ok n
  | .atom (.bool b) => .ok (if b then 1 else 0)
  | .atom (.float x) =>
    if x.isNaN then .error (.notFinite true)
    else if x.isInfinite then .error (.notFinite false)
    else
      let n : Int := x.mantissa * Double.pow2 x.exponent / Double.pow2 (-x.exponent)
      .ok (if x.isNegative then -n else n)
  | .atom a => .error (.notNumber letter a.qualifiedTypeName)
  | t => .error (.notNumber letter t.qualifiedTypeName)

/-- The text that a directive makes of the form of a value, if the value has one. -/
def formText (d : Directive) (v : Value) (form : String) : Except FormatError (List Char) :=
  if v.isWritable then
    .ok (pad d (form.toList.take (d.precision.getD form.length)))
  else .error .tooLarge

/-- The text that a directive makes of the whole part of a number. -/
def wholeForm (d : Directive) (v : Value) : Except FormatError (List Char) := do
  let n ← whole? d.letter v
  if Numeral.isWritable n then return wholeText d n else throw .tooLarge

/-- The text that a directive makes of a value. -/
def apply (d : Directive) (index : Nat) (v : Value) : Except FormatError (List Char) :=
  match d.letter with
  | 's' => formText d v v.plain
  | 'r' => formText d v v.shown
  | 'd' => wholeForm d v
  | 'i' => wholeForm d v
  | 'u' => wholeForm d v
  | c => .error (.unsupported c index)

/-- Fills a format with values in order. -/
def fillInOrder : List Part → List Value → Except FormatError (List Char)
  | [], [] => .ok []
  | [], _ :: _ => .error .tooMany
  | .char c :: ps, vs => (fillInOrder ps vs).map (c :: ·)
  | .directive d i :: ps, vs =>
    if d.letter = '%' then (fillInOrder ps vs).map ('%' :: ·)
    else if d.key.isSome then .error .needsMapping
    else
      match vs with
      | [] => .error .tooFew
      | v :: rest => do return (← apply d i v) ++ (← fillInOrder ps rest)

/-- Fills a format with values by name; one directive without a name takes the whole mapping, if
`rest` still holds it. -/
def fillByName (values : String → Option Value) (rest : Option Value) :
    List Part → Except FormatError (List Char)
  | [] => .ok []
  | .char c :: ps => (fillByName values rest ps).map (c :: ·)
  | .directive d i :: ps =>
    if d.letter = '%' then (fillByName values rest ps).map ('%' :: ·)
    else
      match d.key, rest with
      | none, none => .error .tooFew
      | none, some whole => do return (← apply d i whole) ++ (← fillByName values none ps)
      | some name, _ =>
        match values name with
        | none => .error (.unknownKey name)
        | some v => do return (← apply d i v) ++ (← fillByName values rest ps)

/-- A format filled with a list of values. -/
def format (s : String) (values : List Value) : Except FormatError String := do
  return String.ofList (← fillInOrder (← partsFrom 0 0 s.toList) values)

/-- A format filled with a mapping. -/
def formatMapping (s : String) (whole : Value) (values : String → Option Value) :
    Except FormatError String := do
  return String.ofList (← fillByName values (some whole) (← partsFrom 0 0 s.toList))

end Percent

end LayeredConfig
