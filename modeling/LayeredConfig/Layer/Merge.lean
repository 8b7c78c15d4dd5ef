import LayeredConfig.Path.Flat

/-!
# Layers

A layer is laid over a mapping key by key.  Mappings go into mappings; anything
else replaces what is there.  An undefined value only takes a place that no key
holds yet, and no key is ever removed.
-/

namespace LayeredConfig

namespace Tree

variable {α : Type} [Inhabited α]

mutual

/-- A copy that shares no container with its source (`copy_tree`); rows become lists. -/
def copy : Tree α → Tree α
  | atom a => atom a
  | list _ items => list default (copyItems items)
  | tuple items => list default (copyItems items)
  | map _ es => map default (copyEntries es)
  | set members => set members

/-- Copies of the items of a list. -/
def copyItems : List (Tree α) → List (Tree α)
  | [] => []
  | x :: xs => copy x :: copyItems xs

/-- Copies of the entries of a mapping. -/
def copyEntries : List (Key × Tree α) → List (Key × Tree α)
  | [] => []
  | (k, v) :: es => (k, copy v) :: copyEntries es

end

/-- The value is the scalar `undefined`. -/
def isUndefined : Tree α → Bool
  | atom .undefined => true
  | _ => false

mutual

/-- A value laid over what its key holds, if anything. -/
def overlay : Tree α → Option (Tree α) → Tree α
  | map _ es, some (map t fs) => map t (overlayEntries es fs)
  | v, _ => v.copy

/-- The entries of a layer laid over a mapping. -/
def overlayEntries : List (Key × Tree α) → List (Key × Tree α) → List (Key × Tree α)
  | [], fs => fs
  | (k, v) :: es, fs =>
    let held := Entries.find? k fs
    if v.isUndefined && held.isSome then overlayEntries es fs
    else overlayEntries es (Entries.insert k (overlay v held) fs)

end

/-- The tree with a layer laid over it (`deep_merge`), or which of the two is no mapping. -/
def merge? (target layer : Tree α) : Except NotMapping (Tree α) := do
  let es ← layer.entries?
  match target, es with
  | map t fs, es => return map t (overlayEntries es fs)
  | other, [] => return other
  | other, _ => throw ⟨other.qualifiedTypeName, .lookup⟩

end Tree

end LayeredConfig
