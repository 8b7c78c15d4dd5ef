import LayeredConfig.Number.Numeral
import LayeredConfig.Number.Shortest
import LayeredConfig.Time.Calendar
import LayeredConfig.Text.Quoted

/-!
# Scalars and keys

The values of a configuration that hold no other value, and the keys of its
mappings.  Keys are compared by what they mean and not by how they are written:
one, one point zero and `true` are the same key.  Every scalar has a written form
but a whole number with too many digits; whoever writes one asks for that first.
-/

namespace LayeredConfig

/-- A registered function: which one it is, and the name it shows. -/
structure FnHandle where
  /-- Two functions are the same if and only if their numbers are. -/
  id : Nat
  /-- The name shown for the function. -/
  name : String
deriving DecidableEq, Inhabited

/-- A value that holds no other value. -/
inductive Atom where
  /-- No value. -/
  | null
  /-- A truth value. -/
  | bool (b : Bool)
  /-- A whole number of any size. -/
  | int (n : Int)
  /-- A double. -/
  | float (x : Double)
  /-- A text. -/
  | str (s : String)
  /-- Raw bytes. -/
  | bytes (bs : List UInt8)
  /-- A day. -/
  | date (d : Date)
  /-- A moment. -/
  | datetime (t : DateTime)
  /-- A placeholder resolved to nothing. -/
  | undefined
  /-- A look-up found nothing.  It is never stored in a tree by the library itself. -/
  | missing
  /-- A function. -/
  | fn (f : FnHandle)
deriving DecidableEq, Inhabited

/-- A key of a mapping or a member of a set. -/
inductive Key where
  /-- A scalar. -/
  | atom (a : Atom)
  /-- A row of keys. -/
  | tuple (items : List Key)
deriving Inhabited

/-- Why a value has no text form. -/
inductive Unwritable where
  /-- A mapping has a key of a kind that JSON cannot write. -/
  | key (typeName : String)
  /-- A whole number has too many digits. -/
  | number
deriving DecidableEq

/-- The error in words. -/
def Unwritable.message : Unwritable → String
  | key typeName => "keys must be str, int, float, bool or None, not " ++ typeName
  | number => NumeralError.tooLarge.message

namespace Atom

/-- The name of the kind of value. -/
def typeName : Atom → String
  | null => "NoneType"
  | bool _ => "bool"
  | int _ => "int"
  | float _ => "float"
  | str _ => "str"
  | bytes _ => "bytes"
  | date _ => "date"
  | datetime _ => "datetime"
  | undefined => "_Sentinel"
  | missing => "_Sentinel"
  | fn _ => "Fn"

/-- The name of the kind of value with the library it belongs to. -/
def qualifiedTypeName : Atom → String
  | date _ => "datetime.date"
  | datetime _ => "datetime.datetime"
  | a => a.typeName

/-- A truth value counts as the number one or zero. -/
def toInt? : Atom → Option Int
  | bool b => some (if b then 1 else 0)
  | int n => some n
  | _ => none

/-- Equality of scalars: numbers are compared by value across their kinds. -/
def same : Atom → Atom → Bool
  | float x, float y => x.sameNumber y
  | float x, b =>
    match b.toInt? with
    | some n => x.isInt n
    | none => false
  | a, float y =>
    match a.toInt? with
    | some n => y.isInt n
    | none => false
  | bool a, int n => decide ((bool a).toInt? = some n)
  | int n, bool b => decide ((bool b).toInt? = some n)
  | datetime s, datetime t => s.same t
  | fn f, fn g => decide (f.id = g.id)
  | a, b => decide (a = b)

/-- The scalar counts as true. -/
def truthy : Atom → Bool
  | null => false
  | bool b => b
  | int n => decide (n ≠ 0)
  | float x => !x.isZero
  | str s => decide (s ≠ "")
  | bytes bs => !bs.isEmpty
  | undefined => false
  | missing => false
  | _ => true

/-- The fields of a moment as they are shown: seconds and microseconds only if needed. -/
def showDateTime (t : DateTime) : String :=
  let tail :=
    if t.micro ≠ 0 then ", " ++ toString t.second ++ ", " ++ toString t.micro
    else if t.second ≠ 0 then ", " ++ toString t.second
    else ""
  let zone :=
    match t.offset with
    | none => ""
    | some o =>
      if o = 0 then ", tzinfo=datetime.timezone.utc"
      else ", tzinfo=datetime.timezone(" ++ spanText o ++ ")"
  "datetime.datetime(" ++ t.date.fields ++ ", " ++ toString t.hour ++ ", " ++
    toString t.minute ++ tail ++ zone ++ ")"

/-- The scalar has a written form. -/
def isWritable : Atom → Bool
  | int n => Numeral.isWritable n
  | _ => true

/-- The scalar as it is shown inside a container. -/
def shown : Atom → String
  | null => "None"
  | bool b => if b then "True" else "False"
  | int n => toString n
  | float x => x.text
  | str s => Text.quoted s
  | bytes bs => Text.quotedBytes bs
  | date d => "datetime.date(" ++ d.fields ++ ")"
  | datetime t => showDateTime t
  | undefined => "UNDEFINED"
  | missing => "MISSING"
  | fn f => "<fn " ++ f.name ++ ">"

/-- The scalar as plain text. -/
def text : Atom → String
  | str s => s
  | date d => d.text
  | datetime t => t.text
  | a => a.shown

/-- The scalar as plain text, if it has a written form. -/
def text? (a : Atom) : Except Unwritable String :=
  if a.isWritable then .ok a.text else .error .number

end Atom

namespace Key

mutual

/-- Equality of keys. -/
def same : Key → Key → Bool
  | atom a, atom b => a.same b
  | tuple xs, tuple ys => sameAll xs ys
  | _, _ => false

/-- Equality of rows of keys. -/
def sameAll : List Key → List Key → Bool
  | [], [] => true
  | x :: xs, y :: ys => same x y && sameAll xs ys
  | _, _ => false

end

mutual

/-- All scalars of the key have a written form. -/
def isWritable : Key → Bool
  | atom a => a.isWritable
  | tuple items => areWritable items

/-- All scalars of the keys have a written form. -/
def areWritable : List Key → Bool
  | [] => true
  | k :: ks => isWritable k && areWritable ks

end

mutual

/-- The key as it is shown inside a container. -/
def shown : Key → String
  | atom a => a.shown
  | tuple items => "(" ++ shownAll items ++ (if items.length = 1 then ",)" else ")")

/-- Keys with commas between them. -/
def shownAll : List Key → String
  | [] => ""
  | [k] => shown k
  | k :: ks => shown k ++ ", " ++ shownAll ks

end

/-- The key as plain text, which is how paths name it. -/
def text : Key → String
  | atom a => a.text
  | k => k.shown

/-- The key of a text. -/
abbrev str (s : String) : Key := atom (.str s)

/-- A text is its own written form. -/
@[simp] theorem isWritable_str (s : String) : (Key.str s).isWritable = true := rfl

/-- The name of the kind of key. -/
def qualifiedTypeName : Key → String
  | atom a => a.qualifiedTypeName
  | tuple _ => "tuple"

end Key

end LayeredConfig
