/-!
# Terminal sequences

A terminal takes an escape character, a bracket, numbers and a letter as a
command.  Text that goes elsewhere is freed of such commands.
-/

namespace LayeredConfig.Text

/-- The length of the terminal command after an escape character, if there is one. -/
def commandLength? : List Char → Option Nat
  | '[' :: cs =>
    let numbers := cs.takeWhile fun c => c.isDigit || decide (c = ';') || decide (c = '?')
    match cs.drop numbers.length with
    | c :: _ => if c.isAlpha then some (numbers.length + 2) else none
    | [] => none
  | _ => none

/-- The text without terminal commands, of which the given number of characters is left out. -/
def dropCommandsFrom : Nat → List Char → List Char
  | _, [] => []
  | n + 1, _ :: cs => dropCommandsFrom n cs
  | 0, c :: cs =>
    if c = '\x1b' then
      match commandLength? cs with
      | some n => dropCommandsFrom n cs
      | none => c :: dropCommandsFrom 0 cs
    else c :: dropCommandsFrom 0 cs

/-- The text without terminal commands. -/
def dropCommands (s : String) : String :=
  String.ofList (dropCommandsFrom 0 s.toList)

end LayeredConfig.Text
