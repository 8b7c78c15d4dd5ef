/-!
# File paths

A file path is read as its segments: empty segments and single points say
nothing, two points stay.  One or more slashes in front make it absolute; two
of them, no more, are a root of their own.
-/

namespace LayeredConfig

/-- A file path in normal form. -/
structure FilePath where
  /-- The slashes in front, if any. -/
  root : String
  /-- The segments. -/
  segments : List String
deriving DecidableEq, Inhabited

namespace FilePath

/-- The root of a path. -/
def rootOf : List Char → String
  | '/' :: '/' :: '/' :: _ => "/"
  | '/' :: '/' :: _ => "//"
  | '/' :: _ => "/"
  | _ => ""

/-- The path that a text writes. -/
def ofText (s : String) : FilePath :=
  ⟨rootOf s.toList,
    ((s.toList.splitOn '/').map String.ofList).filter fun p => decide (p ≠ "") && decide (p ≠ ".")⟩

/-- The path in normal form. -/
def text (p : FilePath) : String :=
  if p.root = "" ∧ p.segments = [] then "." else p.root ++ "/".intercalate p.segments

/-- The last segment. -/
def name (p : FilePath) : String :=
  p.segments.getLastD ""

/-- A name cut before its last point, if that point neither starts nor ends the name. -/
def cutName (name : String) : List Char × List Char :=
  let back := name.toList.reverse
  let ext := back.takeWhile (· ≠ '.')
  let front := (back.drop (ext.length + 1)).reverse
  if ext.isEmpty || front.isEmpty then (name.toList, [])
  else (front, '.' :: ext.reverse)

/-- The end of the name from its last point on. -/
def suffix (p : FilePath) : String :=
  String.ofList (cutName p.name).2

/-- The name without its suffix. -/
def stem (p : FilePath) : String :=
  String.ofList (cutName p.name).1

/-- The path without its last segment. -/
def parent (p : FilePath) : FilePath :=
  ⟨p.root, p.segments.dropLast⟩

end FilePath

/-- What file paths lead to: the bytes of files. -/
abbrev FileReader : Type := FilePath → Option (List UInt8)

end LayeredConfig
