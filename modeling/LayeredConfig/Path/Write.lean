import LayeredConfig.Path.Segments
import LayeredConfig.Value.Tree

/-!
# Writing at a path

A write goes down through mappings only.  What stands on its way and is no
mapping makes room for an empty one.
-/

namespace LayeredConfig

/-- What is asked of a value that should be a mapping. -/
inductive MappingUse where
  /-- Its entries. -/
  | entries
  /-- The value of a key. -/
  | lookup
deriving DecidableEq

/-- A value that should be a mapping is none. -/
structure NotMapping where
  /-- The name of its kind. -/
  typeName : String
  /-- What was asked of it. -/
  use : MappingUse
deriving DecidableEq

/-- The error in words. -/
def NotMapping.message (e : NotMapping) : String :=
  "'" ++ e.typeName ++ "' object has no attribute '" ++
    (match e.use with
      | .entries => "items"
      | .lookup => "get") ++ "'"

/-- Why a value cannot be written into. -/
inductive WriteError where
  /-- The value is no mapping, and the path goes further down. -/
  | notMapping (e : NotMapping)
  /-- Items of a list have positions and no names. -/
  | namedItem
  /-- The value has no items that could be changed. -/
  | fixed (typeName : String)
deriving DecidableEq

/-- The error in words. -/
def WriteError.message : WriteError → String
  | notMapping e => e.message
  | namedItem => "list indices must be integers or slices, not str"
  | fixed name => "'" ++ name ++ "' object does not support item assignment"

namespace Tree

variable {α : Type} [Inhabited α]

/-- The entries with a value written below them. -/
def writeEntries (v : Tree α) : List String → List (Key × Tree α) → List (Key × Tree α)
  | [], es => es
  | [s], es => Entries.insert (.str s) v es
  | s :: ss, es =>
    match Entries.find? (.str s) es with
    | some (map t sub) => Entries.insert (.str s) (map t (writeEntries v ss sub)) es
    | _ => Entries.insert (.str s) (map default (writeEntries v ss [])) es

/-- The tree with a value written at a path.  Only a mapping can be written into. -/
def write (t : Tree α) (path : String) (v : Tree α) : Tree α :=
  match t with
  | map tag es => map tag (writeEntries v (Path.split path) es)
  | other => other

/-- The tree with a value written at a path, or why it has none (`set_path`). -/
def write? (t : Tree α) (path : String) (v : Tree α) : Except WriteError (Tree α) :=
  match t, Path.split path with
  | map tag es, ss => .ok (map tag (writeEntries v ss es))
  | list _ _, [_] => .error .namedItem
  | other, [_] => .error (.fixed other.qualifiedTypeName)
  | other, _ => .error (.notMapping ⟨other.qualifiedTypeName, .lookup⟩)

end Tree

end LayeredConfig
