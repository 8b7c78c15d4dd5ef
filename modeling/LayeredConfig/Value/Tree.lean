import LayeredConfig.Value.Entries

/-!
# Trees of values

A configuration is a tree of mappings, lists and scalars.  Every list and every
mapping carries a tag of some type: trees that are only read and written are
`Value`s, with the trivial tag, and the trees that a resolution hands out carry
on a container the mark by which it is known to occur elsewhere too.
-/

namespace LayeredConfig

/-- A tree whose lists and mappings carry a tag. -/
inductive Tree (α : Type) where
  /-- A scalar. -/
  | atom (a : Atom)
  /-- A list. -/
  | list (tag : α) (items : List (Tree α))
  /-- A mapping, as its entries in order. -/
  | map (tag : α) (entries : List (Key × Tree α))
  /-- A row that is never changed in place. -/
  | tuple (items : List (Tree α))
  /-- A set. -/
  | set (members : List Key)
deriving Inhabited

/-- A plain tree. -/
abbrev Value := Tree Unit

namespace Tree

variable {α β : Type}

/-- The tree of a text. -/
abbrev str (s : String) : Tree α := .atom (.str s)

/-- The scalar that stands for an undefined value. -/
abbrev undefined : Tree α := .atom .undefined

/-- The scalar that stands for a missing value. -/
abbrev missing : Tree α := .atom .missing

/-- The empty mapping. -/
def emptyMap [Inhabited α] : Tree α := .map default []

/-- The name of the kind of value. -/
def typeName : Tree α → String
  | atom a => a.typeName
  | list _ _ => "list"
  | map _ _ => "dict"
  | tuple _ => "tuple"
  | set _ => "set"

/-- The name of the kind of value with the library it belongs to. -/
def qualifiedTypeName : Tree α → String
  | atom a => a.qualifiedTypeName
  | t => t.typeName

/-- The value counts as true: containers do unless they are empty. -/
def truthy : Tree α → Bool
  | atom a => a.truthy
  | list _ items => !items.isEmpty
  | map _ entries => !entries.isEmpty
  | tuple items => !items.isEmpty
  | set members => !members.isEmpty

/-- The value is a list or a mapping, which can be changed in place. -/
def isContainer : Tree α → Bool
  | list _ _ => true
  | map _ _ => true
  | _ => false

mutual

/-- The same tree with other tags. -/
def mapTag (f : α → β) : Tree α → Tree β
  | atom a => atom a
  | list t items => list (f t) (mapTagItems f items)
  | map t entries => map (f t) (mapTagEntries f entries)
  | tuple items => tuple (mapTagItems f items)
  | set members => set members

/-- `mapTag` on the items of a list. -/
def mapTagItems (f : α → β) : List (Tree α) → List (Tree β)
  | [] => []
  | x :: xs => mapTag f x :: mapTagItems f xs

/-- `mapTag` on the entries of a mapping. -/
def mapTagEntries (f : α → β) : List (Key × Tree α) → List (Key × Tree β)
  | [] => []
  | (k, v) :: es => (k, mapTag f v) :: mapTagEntries f es

end

/-- The plain tree. -/
def erase (t : Tree α) : Value :=
  t.mapTag fun _ => ()

mutual

/-- Equality of values: numbers by value, mappings without regard to order. -/
def same : Tree α → Tree β → Bool
  | atom a, atom b => decide (a = b) || a.same b
  | list _ xs, list _ ys => sameItems xs ys
  | tuple xs, tuple ys => sameItems xs ys
  | map _ es, map _ fs => decide (es.length = fs.length) && sameEntries es fs
  | set ks, set ls => decide (ks.length = ls.length) && ks.all fun k => ls.any (k.same ·)
  | _, _ => false

/-- Equality item by item. -/
def sameItems : List (Tree α) → List (Tree β) → Bool
  | [], [] => true
  | x :: xs, y :: ys => same x y && sameItems xs ys
  | _, _ => false

/-- Every entry is found in the other mapping. -/
def sameEntries : List (Key × Tree α) → List (Key × Tree β) → Bool
  | [], _ => true
  | (k, v) :: es, fs =>
    (match Entries.find? k fs with
      | some w => same v w
      | none => false) && sameEntries es fs

end

/-- Equality of two whole values; a number that is none equals nothing, itself included. -/
def equals : Tree α → Tree β → Bool
  | atom a, atom b => a.same b
  | t, u => t.same u

end Tree

end LayeredConfig
