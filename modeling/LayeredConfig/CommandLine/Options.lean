/-!
# Options and operands

The arguments of a command are options and operands.  An option is a long name
after two dashes, with its value after an equals sign or as the next argument,
or a letter after one dash, where letters may stand together and a value may
follow its letter directly.  After two dashes alone all arguments are operands.
-/

namespace LayeredConfig.CommandLine

/-- An option that a command knows. -/
structure Switch (ι : Type) where
  /-- Which option it is. -/
  id : ι
  /-- Its long name without the dashes. -/
  long : String
  /-- Its letter. -/
  short : Option Char
  /-- It has a value. -/
  takesValue : Bool

/-- What is wrong with arguments. -/
inductive UsageError where
  /-- No option has this name. -/
  | unknown (name : String)
  /-- The option has no value, but one is given. -/
  | extraValue (name : String)
  /-- The option lacks its value. -/
  | noValue (name : String)
  /-- An operand is missing. -/
  | noOperand (name : String)
  /-- No command has this name. -/
  | noCommand (name : String)
deriving DecidableEq

/-- Options with their values, and operands, each in order. -/
structure Arguments (ι : Type) where
  /-- The options. -/
  options : List (ι × Option String)
  /-- The operands. -/
  operands : List String

namespace Arguments

variable {ι : Type}

/-- Puts options in front. -/
def addOptions (options : List (ι × Option String)) (a : Arguments ι) : Arguments ι :=
  { a with options := options ++ a.options }

/-- Puts an operand in front. -/
def addOperand (operand : String) (a : Arguments ι) : Arguments ι :=
  { a with operands := operand :: a.operands }

/-- The options of one argument, and the option whose value is the next argument. -/
structure Group (ι : Type) where
  /-- The options that are complete. -/
  options : List (ι × Option String)
  /-- The option that waits for its value. -/
  waiting : Option ι

/-- The options of letters that stand together. -/
def readLetters (switches : List (Switch ι)) : List Char → Except UsageError (Group ι)
  | [] => .ok ⟨[], none⟩
  | c :: cs =>
    match switches.find? fun s => decide (s.short = some c) with
    | none => .error (.unknown (String.singleton c))
    | some s =>
      if !s.takesValue then
        (readLetters switches cs).map fun g => { g with options := (s.id, none) :: g.options }
      else if cs.isEmpty then .ok ⟨[], some s.id⟩
      else .ok ⟨[(s.id, some (String.ofList cs))], none⟩

/-- The options of an argument that starts with a dash. -/
def readGroup (switches : List (Switch ι)) (arg : String) : Except UsageError (Group ι) :=
  let cs := arg.toList
  let name := cs.takeWhile (· ≠ '=')
  let value := if name.length < cs.length then some (String.ofList (cs.drop (name.length + 1))) else none
  match switches.find? fun s => decide (("--" ++ s.long).toList = name) with
  | some s =>
    match s.takesValue, value with
    | true, some v => .ok ⟨[(s.id, some v)], none⟩
    | true, none => .ok ⟨[], some s.id⟩
    | false, none => .ok ⟨[(s.id, none)], none⟩
    | false, some _ => .error (.extraValue (String.ofList name))
  | none =>
    match cs with
    | '-' :: '-' :: _ => .error (.unknown (String.ofList name))
    | cs => readLetters switches (cs.drop 1)

/-- The argument is an option or a group of options. -/
def isOption (arg : String) : Bool :=
  match arg.toList with
  | '-' :: _ :: _ => true
  | _ => false

/-- The options and operands of arguments.  Unless they may be mixed, all that follows the first
operand is an operand. -/
def read (switches : List (Switch ι)) (mixed : Bool) :
    List String → Except UsageError (Arguments ι)
  | [] => .ok ⟨[], []⟩
  | arg :: rest =>
    if arg = "--" then .ok ⟨[], rest⟩
    else if isOption arg then
      match readGroup switches arg with
      | .error e => .error e
      | .ok g =>
        match g.waiting, rest with
        | none, rest => (read switches mixed rest).map (addOptions g.options)
        | some id, value :: rest =>
          (read switches mixed rest).map (addOptions (g.options ++ [(id, some value)]))
        | some _, [] => .error (.noValue arg)
    else if mixed then (read switches mixed rest).map (addOperand arg)
    else .ok ⟨[], arg :: rest⟩

variable [DecidableEq ι]

/-- The option is given. -/
def has (a : Arguments ι) (id : ι) : Bool :=
  a.options.any fun o => decide (o.1 = id)

/-- The values of an option in order. -/
def values (a : Arguments ι) (id : ι) : List String :=
  a.options.filterMap fun o => if o.1 = id then o.2 else none

/-- The last value of an option. -/
def value? (a : Arguments ι) (id : ι) : Option String :=
  (a.values id).getLast?

end Arguments

end LayeredConfig.CommandLine
