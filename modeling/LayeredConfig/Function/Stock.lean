import LayeredConfig.Resolve.Pass
import LayeredConfig.Text.Letter

/-!
# Stock functions

A fixed set of functions for placeholders.  Every function counts its calls,
and a constant hands out the value it keeps, the same one at each call.
-/

namespace LayeredConfig.Stock

/-- What a function does. -/
inductive Kind where
  /-- The two arguments are equal. -/
  | eq
  /-- The capital form of a text. -/
  | upper
  /-- The text forms of the arguments with colons between them. -/
  | join
  /-- The name of the argument's kind. -/
  | typeof
  /-- The list of the arguments. -/
  | args
  /-- The first argument. -/
  | first
  /-- The number of calls so far. -/
  | count
  /-- The value that the function keeps. -/
  | const
  /-- A failure. -/
  | boom
deriving DecidableEq, Inhabited

namespace Kind

/-- The name of a function. -/
def name : Kind → String
  | eq => "eq"
  | upper => "upper"
  | join => "join"
  | typeof => "typeof"
  | args => "args"
  | first => "first"
  | count => "count"
  | const => "const"
  | boom => "boom"

/-- The function of a name. -/
def ofName? (s : String) : Option Kind :=
  [eq, upper, join, typeof, args, first, count, const, boom].find? fun k => decide (k.name = s)

/-- The number of arguments, if it is fixed. -/
def arity? : Kind → Option Nat
  | eq => some 2
  | upper => some 1
  | typeof => some 1
  | _ => none

end Kind

/-- Why a function fails. -/
inductive Fault where
  /-- The number of arguments is wrong. -/
  | arity (name : String) (expected got : Nat)
  /-- The argument is no text. -/
  | notText (name : String)
  /-- An argument has no text form. -/
  | unwritable (e : Unwritable)
  /-- The failure that was asked for. -/
  | boom (text : String)
deriving DecidableEq

/-- The error in words. -/
def Fault.message : Fault → String
  | arity name expected got =>
    name ++ " expects " ++ toString expected ++ " arguments, got " ++ toString got
  | notText name => name ++ " expects a string"
  | unwritable e => e.message
  | boom text => "boom: " ++ text

/-- A function with its memory. -/
structure Fn where
  /-- What it does. -/
  kind : Kind
  /-- How often it has been called. -/
  calls : Nat
  /-- The value that a constant keeps. -/
  kept : Shared
deriving Inhabited

/-- The memory of all functions by their numbers. -/
abbrev Memory := List (Nat × Fn)

/-- The text forms of values. -/
def texts : List Shared → Except Unwritable (List String)
  | [] => .ok []
  | v :: vs => do
    let s ← Template.text v
    return s :: (← texts vs)

/-- What a function returns. -/
def Fn.result (f : Fn) (args : List Shared) : Except Fault Shared :=
  match f.kind, args with
  | .eq, [x, y] => .ok (.atom (.bool (x.equals y)))
  | .upper, [.atom (.str s)] => .ok (.str (Text.upper s))
  | .upper, [_] => .error (.notText f.kind.name)
  | .typeof, [x] => .ok (.str x.typeName)
  | .join, xs => ((texts xs).mapError .unwritable).map fun ss => .str (":".intercalate ss)
  | .args, xs => .ok (.list none xs)
  | .first, x :: _ => .ok x
  | .count, _ => .ok (.atom (.int f.calls))
  | .const, _ => .ok f.kept
  | .boom, x :: _ =>
    match Template.text x with
    | .ok s => .error (.boom s)
    | .error e => .error (.unwritable e)
  | k, xs => .error (.arity k.name (k.arity?.getD 1) xs.length)

/-- Calls the function of a number. -/
def callIn (id : Nat) (args : List Shared) : Memory → Memory × Except Fault Shared
  | [] => ([], .error (.arity "" 0 args.length))
  | (i, f) :: rest =>
    if i = id then
      let f' := { f with calls := f.calls + 1 }
      ((i, f') :: rest, f'.result args)
    else
      let (rest', out) := callIn id args rest
      ((i, f) :: rest', out)

/-- The stock functions as a host. -/
def host : Host Memory Fault where
  call f args memory := callIn f.id args memory
  revise rev memory := memory.map fun (i, f) => (i, { f with kept := f.kept.revise rev })

/-- Adds a function. -/
def register (kind : Kind) (kept : Value) (memory : Memory) : FnHandle × Memory :=
  let id := memory.length
  (⟨id, kind.name⟩, memory ++ [(id, ⟨kind, 0, kept.unmarked.withMark (.kept id)⟩)])

end LayeredConfig.Stock
