import LayeredConfig.CommandLine.Command

/-!
# The program

Reads the environment and the files that the arguments name, runs the command
and writes what it says.
-/

namespace LayeredConfig.Program

/-- The variables of a block in which each one ends with a NUL character. -/
def variablesOf (block : String) : List (String × String) :=
  (block.splitOn "\x00").filterMap fun entry =>
    match entry.splitOn "=" with
    | name :: first :: rest => some (name, "=".intercalate (first :: rest))
    | _ => none

/-- The environment of the program. -/
def readEnviron : IO (List (String × String)) := do
  try return variablesOf (← IO.FS.readFile "/proc/self/environ")
  catch _ => return []

/-- The bytes of a file, if it can be read. -/
def readBytes (p : FilePath) : IO (Option (List UInt8)) := do
  try return some (← IO.FS.readBinFile p.text).toList
  catch _ => return none

/-- The files that paths lead to. -/
def readFiles (paths : List FilePath) : IO FileReader := do
  let read ← paths.mapM fun p => do return (p, ← readBytes p)
  return fun p => (read.lookup p).join

/-- Writes what a run says. -/
def finish : CommandLine.Outcome → IO UInt32
  | .usage 0 => do
    IO.print CommandLine.usageText
    return 0
  | .usage exit => do
    IO.eprint CommandLine.usageText
    return UInt32.ofNat exit
  | .finished exit out err => do
    IO.print out
    IO.eprint err
    return UInt32.ofNat exit
  | .crashed e => do
    IO.eprintln e.message
    return 1

end LayeredConfig.Program

/-- Runs the program. -/
def main (args : List String) : IO UInt32 := do
  let environ ← LayeredConfig.Program.readEnviron
  let files ← LayeredConfig.Program.readFiles (LayeredConfig.CommandLine.filesOf args)
  LayeredConfig.Program.finish (LayeredConfig.CommandLine.run ⟨args, environ, files⟩)
