import LayeredConfig.Path.Write

/-!
# Flat trees

A tree of mappings is the list of its leaves, each under its dotted path.  What
is no mapping is a leaf, and so is the empty mapping, so that its key is not
lost.  Two leaves of one path count once: in the first one's place, with the
last one's value.  The keys on the way to a leaf are written into its path, so
they all need a written form.
-/

namespace LayeredConfig

/-- Leaves by path, in order. -/
abbrev Flat (α : Type) := List (String × Tree α)

namespace Flat

variable {α : Type}

/-- Writes a leaf: in its place if its path is there, else at the end. -/
def insert (path : String) (v : Tree α) : Flat α → Flat α
  | [] => [(path, v)]
  | (p, w) :: rest => if p = path then (p, v) :: rest else (p, w) :: insert path v rest

/-- Each path once. -/
def ofList (leaves : List (String × Tree α)) : Flat α :=
  leaves.foldl (fun flat leaf => insert leaf.1 leaf.2 flat) []

/-- The mapping from path to leaf. -/
def toEntries (flat : Flat α) : List (Key × Tree α) :=
  flat.map fun leaf => (Key.str leaf.1, leaf.2)

end Flat

namespace Tree

variable {α : Type}

mutual

/-- The leaves at and below a value that stands at a path. -/
def leavesAt (path : String) : Tree α → List (String × Tree α)
  | map t [] => [(path, map t [])]
  | map _ (e :: es) => entryLeaves path (e :: es)
  | leaf => [(path, leaf)]

/-- The leaves of the entries of a mapping that stands at a path. -/
def entryLeaves (parent : String) : List (Key × Tree α) → List (String × Tree α)
  | [] => []
  | (k, v) :: es => leavesAt (Path.extend parent k.text) v ++ entryLeaves parent es

end

/-- The leaves of a mapping by path, all paths below `parent`. -/
def flattenEntries (parent : String) (es : List (Key × Tree α)) : Flat α :=
  Flat.ofList (entryLeaves parent es)

/-- The entries that leaves written one after the other build. -/
def entriesOfFlat [Inhabited α] (flat : Flat α) : List (Key × Tree α) :=
  flat.foldl (fun es leaf => writeEntries leaf.2 (Path.split leaf.1) es) []

/-- The entries of a nested mapping from one whose keys may be paths. -/
def unflattenEntries [Inhabited α] (es : List (Key × Tree α)) : List (Key × Tree α) :=
  entriesOfFlat (flattenEntries "" es)

end Tree

/-- Why a value has no leaves by path. -/
inductive FlattenError where
  /-- The value is no mapping. -/
  | notMapping (e : NotMapping)
  /-- A key on the way to a leaf has no written form. -/
  | key (e : NumeralError)
deriving DecidableEq

/-- The error in words. -/
def FlattenError.message : FlattenError → String
  | notMapping e => e.message
  | key e => e.message

namespace Tree

variable {α : Type}

mutual

/-- All keys on the way to the leaves of a value have a written form. -/
def isLegible : Tree α → Bool
  | map _ es => areLegible es
  | _ => true

/-- All keys on the way to the leaves of entries have a written form. -/
def areLegible : List (Key × Tree α) → Bool
  | [] => true
  | (k, v) :: es => k.isWritable && isLegible v && areLegible es

end

/-- The entries of a value that should be a mapping. -/
def entries? : Tree α → Except NotMapping (List (Key × Tree α))
  | map _ es => .ok es
  | t => .error ⟨t.qualifiedTypeName, .entries⟩

/-- The entries of a value that should be a mapping with leaves by path. -/
def legibleEntries? (t : Tree α) : Except FlattenError (List (Key × Tree α)) := do
  let es ← t.entries?.mapError .notMapping
  if areLegible es then return es else throw (.key .tooLarge)

/-- The leaves of a tree by path, all paths below `parent` (`flatten`). -/
def flatten (t : Tree α) (parent : String) : Except FlattenError (Flat α) :=
  t.legibleEntries?.map (flattenEntries parent)

/-- The nested tree of a tree whose keys may be paths (`unflatten`). -/
def unflatten [Inhabited α] (t : Tree α) : Except FlattenError (Tree α) :=
  t.legibleEntries?.map fun es => map default (unflattenEntries es)

end Tree

end LayeredConfig
