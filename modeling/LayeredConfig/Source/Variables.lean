import LayeredConfig.Path.Flat
import LayeredConfig.Text.Blank
import LayeredConfig.Text.Letter

/-!
# Environment variables and arguments

Names of variables and of command line arguments become paths: a delimiter
marks where one level of the tree ends and the next one starts.
-/

namespace LayeredConfig.Source

/-- The delimiter that is used unless another one is given. -/
def defaultDelimiter : String := "__"

/-- The text with a point for every occurrence of a delimiter, read from left to right, of which
the given number of characters belongs to the occurrence before. -/
def replaceFrom (delim : List Char) : Nat → List Char → List Char
  | _, [] => []
  | skip + 1, _ :: cs => replaceFrom delim skip cs
  | 0, c :: cs =>
    if delim.isPrefixOf (c :: cs) then '.' :: replaceFrom delim (delim.length - 1) cs
    else c :: replaceFrom delim 0 cs

/-- The path of a name.  The empty delimiter stands before, between and after all characters. -/
def pathOfName (delim name : String) : String :=
  if delim = "" then String.ofList ('.' :: name.toList.flatMap fun c => [c, '.'])
  else String.ofList (replaceFrom delim.toList 0 name.toList)

/-- The nested tree of values by path, written one after the other. -/
def nest (flat : Flat Unit) : Value :=
  .map () (Tree.unflattenEntries flat.toEntries)

/-- The tree of environment variables (`parse_env`): all of them, or the given ones that are set. -/
def environment (environ : List (Key × Value)) (pick : Option (List String)) (delim : String)
    (lowercase : Bool) : Value :=
  let names := pick.getD (environ.filterMap fun
    | (.atom (.str s), _) => some s
    | _ => none)
  nest <| Flat.ofList <| names.filterMap fun name =>
    (Entries.find? (.str name) environ).map fun v =>
      let path := pathOfName delim name
      (if lowercase then Text.lower path else path, v)

/-- The letters that a key may start with. -/
def isKeyStart (c : Char) : Bool :=
  c.isAlpha

/-- One argument as a key and its value: the text after the first equals sign without blanks
around it, or the word `true`. -/
def argument (token : String) : String × String :=
  let cs := token.toList
  let key := (cs.takeWhile (· ≠ '=')).dropWhile fun c => !isKeyStart c
  let value :=
    match cs.dropWhile (· ≠ '=') with
    | [] => "true"
    | _ :: rest => String.ofList (Text.trim rest)
  (String.ofList key, value)

/-- The tree of command line arguments (`parse_args`): all with a key, or those of the given keys. -/
def arguments (argv : List String) (pick : Option (List String)) (delim : String) : Value :=
  nest <| Flat.ofList <| (argv.map argument).filterMap fun (key, value) =>
    if key = "" then none
    else
      match pick with
      | some allowed =>
        if allowed.contains key then some (pathOfName delim key, .str value) else none
      | none => some (pathOfName delim key, .str value)

end LayeredConfig.Source
