import LayeredConfig.Value.Tree

/-!
# Values as keys

A key never changes, so only scalars and rows of keys can be keys.
-/

namespace LayeredConfig

/-- The value cannot be a key, since it may change. -/
structure UnhashableKey where
  /-- The name of its kind. -/
  typeName : String
deriving DecidableEq

/-- The error in words. -/
def UnhashableKey.message (e : UnhashableKey) : String :=
  "unhashable type: '" ++ e.typeName ++ "'"

mutual

/-- The key that a value is. -/
def Tree.toKey? {α : Type} : Tree α → Except UnhashableKey Key
  | .atom a => .ok (.atom a)
  | .tuple items => do return .tuple (← Tree.toKeys? items)
  | t => .error ⟨t.typeName⟩

/-- The keys that values are. -/
def Tree.toKeys? {α : Type} : List (Tree α) → Except UnhashableKey (List Key)
  | [] => .ok []
  | x :: xs => do
    let k ← Tree.toKey? x
    return k :: (← Tree.toKeys? xs)

end

end LayeredConfig
