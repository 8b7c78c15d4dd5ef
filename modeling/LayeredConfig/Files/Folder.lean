import LayeredConfig.Files.FilePath

/-!
# A folder with files

What file paths are read in: the files below the working folder, by their
segments.  A path that leaves the working folder leads to nothing.
-/

namespace LayeredConfig

/-- The files below a folder, and the folders that may hold none. -/
structure Folder where
  /-- Files by their segments, with their bytes. -/
  files : List (List String × List UInt8)
  /-- Folders by their segments. -/
  folders : List (List String)
deriving Inhabited

namespace Folder

/-- The folder without files. -/
def empty : Folder := ⟨[], []⟩

/-- There is a folder of these segments. -/
def hasFolder (d : Folder) (segments : List String) : Bool :=
  segments.isEmpty || d.folders.any (segments.isPrefixOf ·) ||
    d.files.any fun f => segments.isPrefixOf f.1 && decide (segments.length < f.1.length)

/-- The bytes of the file of these segments. -/
def read? (d : Folder) (segments : List String) : Option (List UInt8) :=
  d.files.lookup segments

/-- Adds a file, or a folder if the name ends in a slash. -/
def add (d : Folder) (name : String) (bytes : List UInt8) : Folder :=
  let segments := (FilePath.ofText name).segments
  if name.toList.getLast? = some '/' then { d with folders := d.folders ++ [segments] }
  else { d with files := d.files.filter (fun f => decide (f.1 ≠ segments)) ++ [(segments, bytes)] }

/-- The place that segments lead to from a folder, going up at two points.  Every place on the way
has to be a folder. -/
def walk (d : Folder) : List String → List String → Option (List String)
  | here, [] => some here
  | here, s :: ss =>
    if !d.hasFolder here then none
    else if s = ".." then
      match here with
      | [] => none
      | _ :: _ => walk d here.dropLast ss
    else walk d (here ++ [s]) ss

/-- The place that a path leads to. -/
def resolve (d : Folder) (p : FilePath) : Option (List String) :=
  if p.root = "" then d.walk [] p.segments else none

/-- The bytes of the file that a path leads to. -/
def readPath? (d : Folder) (p : FilePath) : Option (List UInt8) :=
  (d.resolve p).bind d.read?

/-- Adds bytes at the end of a file, or instead of what it holds. -/
def write (d : Folder) (segments : List String) (append : Bool) (bytes : List UInt8) : Folder :=
  let held := if append then (d.read? segments).getD [] else []
  { d with
    files := d.files.filter (fun f => decide (f.1 ≠ segments)) ++ [(segments, held ++ bytes)] }

end Folder

end LayeredConfig
