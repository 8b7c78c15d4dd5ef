import LayeredConfig.Value.Tree

/-!
# Literals

Text that came out of a substitution is given its type: four words stand for
values, and one pair of matching quotes around a text is taken off, so that a
quoted word stays a text.  A line break after the closing quote goes with it.
-/

namespace LayeredConfig.Template

variable {α β : Type}

/-- The value that a word stands for. -/
def wordValue? (s : String) : Option Atom :=
  if s = "undefined" then some .undefined
  else if s = "null" then some .null
  else if s = "true" then some (.bool true)
  else if s = "false" then some (.bool false)
  else none

/-- The character is a quote. -/
def isQuote (c : Char) : Bool :=
  decide (c = '\'') || decide (c = '"')

/-- The characters before a last character `q`, read from the end. -/
def beforeLast? (q : Char) : List Char → Option (List Char)
  | [] => none
  | c :: rest => if c = q then some rest.reverse else none

/-- The text between two equal quotes. -/
def unquote? : List Char → Option (List Char)
  | [] => none
  | q :: rest =>
    if isQuote q then
      match rest.reverse with
      | '\n' :: back => beforeLast? q back
      | back => beforeLast? q back
    else none

/-- The value of a text that came out of a substitution. -/
def literal (s : String) : Tree β :=
  match wordValue? s with
  | some a => .atom a
  | none =>
    match unquote? s.toList with
    | some cs => .str (String.ofList cs)
    | none => .str s

/-- The value of a substitution's result (`coerce_literal`): only a text that differs from the one
substituted into is taken as a literal. -/
def coerce (given : Tree α) (resolved : Tree β) : Tree β :=
  match resolved with
  | .atom (.str s) =>
    match given with
    | .atom (.str t) => if s = t then resolved else literal s
    | _ => literal s
  | other => other

end LayeredConfig.Template
