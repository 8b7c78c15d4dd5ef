import LayeredConfig.Store.Basic
import LayeredConfig.Value.AsKey

/-!
# Changing the resolved tree in place

A container taken from the resolved tree may be changed by whoever took it.  The
change shows wherever the container occurs, until the next resolution.
-/

namespace LayeredConfig

/-- What became of a change. -/
inductive Change (σ φ : Type) where
  /-- The store after the change. -/
  | made (s : Store σ φ)
  /-- The value at the path is no container of the kind that is needed. -/
  | refused (v : Shared)

namespace Store

variable {σ φ : Type}

/-- The resolved value at a path with its place. -/
def live (s : Store σ φ) (path : String) : Except NumeralError (List Nat × Shared) := do
  if path = "" then return ([], s.resolved)
  else
    match ← Tree.find? (Path.normalize path) s.resolved with
    | none => return ([], .atom .null)
    | some (_, .atom .missing) => return ([], .atom .null)
    | some (_, .atom .undefined) => return ([], .atom .null)
    | some hit => return hit

/-- The store with the resolved value changed at a place. -/
def modifyLive (s : Store σ φ) (f : Shared → Shared) (steps : List Nat) : Store σ φ :=
  match Tree.modifyRevision? f steps s.resolved with
  | some rev =>
    { s with
      namespaces.definition := s.namespaces.definition.revise rev
      resolved := s.resolved.revise rev
      memory := s.host.revise rev s.memory }
  | none => { s with resolved := Tree.modifyAt f steps s.resolved }

/-- A list with an item at its end. -/
def appendItem (v : Shared) : Shared → Shared
  | .list m items => .list m (items ++ [v])
  | other => other

/-- A mapping with a key written. -/
def putEntry (k : Key) (v : Shared) : Shared → Shared
  | .map m es => .map m (Entries.insert k v es)
  | other => other

/-- Appends to the list at a path of the resolved tree. -/
def append (s : Store σ φ) (path : String) (v : Value) : Except NumeralError (Change σ φ) := do
  match ← s.live path with
  | (steps, .list _ _) => return .made (s.modifyLive (appendItem v.unmarked) steps)
  | (_, other) => return .refused other

/-- Writes a key of the mapping at a path of the resolved tree. -/
def put (s : Store σ φ) (path : String) (key v : Value) :
    Except NumeralError (Except UnhashableKey (Change σ φ)) := do
  match ← s.live path with
  | (steps, .map _ _) =>
    return key.toKey?.map fun k => .made (s.modifyLive (putEntry k v.unmarked) steps)
  | (_, other) => return .ok (.refused other)

end Store

end LayeredConfig
