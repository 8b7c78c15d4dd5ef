import LayeredConfig.Resolve.Engine

/-!
# Resolving a definition

A resolver substitutes with functions that have a memory, and uses the result of
a reference to a container again within a pass: for the same container, as many
passes left and the same containers being resolved further up.  A container that
refers back to one of these stays as it is defined, which is an error in strict
mode.

A definition is resolved leaf by leaf in one pass, and each leaf is written into
a new tree at its path.
-/

namespace LayeredConfig

/-- What placeholders are resolved against, and how far: the `Substitutor` of the source. -/
structure Resolver (σ φ : Type) where
  /-- The namespaces. -/
  registry : Registry
  /-- The functions. -/
  host : Host σ φ
  /-- The greatest number of passes over a text. -/
  maxDepth : Int
  /-- A text that needs more passes is an error. -/
  strict : Bool

variable {σ φ : Type}

namespace Resolver

variable (r : Resolver σ φ)

/-- The answer to a text with placeholders when no pass is left. -/
def exhausted (s : String) : Run σ φ Shared :=
  if r.strict then throw (.depth s r.maxDepth)
  else do
    Run.report ⟨.debug, .placeholders, "Depth limit " ++ toString r.maxDepth ++
      " reached, leaving partially resolved: " ++ s⟩
    return .str s

/-- A container that refers back to one being resolved stays as it is defined. -/
def circular (v : Value) (reference : String) : Run σ φ Shared :=
  if r.strict then throw (.depth reference r.maxDepth)
  else do
    Run.report ⟨.debug, .placeholders, "Circular container reference left unresolved: " ++
      reference⟩
    return v.copy.unmarked

/-- A container that a reference leads to, within an open cache. -/
def cachedContainer (resolve : Value → Run σ φ Shared) (left : Nat) (address : Address)
    (v : Value) (reference : String) : Run σ φ Shared := do
  let s ← get
  if s.active.contains address then r.circular v reference
  else
    let key : CacheKey := ⟨address, left, s.active⟩
    match (s.cache.getD []).find? key with
    | some held => return held
    | none =>
      let plain ← Run.withActive address (resolve v)
      let s' ← get
      let result := plain.withMark (.result s'.fresh)
      set { s' with cache := s'.cache.map ((key, result) :: ·), fresh := s'.fresh + 1 }
      return result

/-- A container that a reference leads to (`_resolve_container`).  Outside a pass the cache lives as
long as the reference is resolved. -/
def container (resolve : Value → Run σ φ Shared) (left : Nat) (address : Address)
    (v : Value) (reference : String) : Run σ φ Shared := do
  match (← get).cache with
  | some _ => r.cachedContainer resolve left address v reference
  | none => Run.withCache (r.cachedContainer resolve left address v reference)

/-- Reports that no function has the name. -/
def unregistered (name : String) : Run σ φ Unit :=
  Run.report ⟨.debug, .placeholders, "No function registered for namespace '" ++ name ++ "'"⟩

/-- Calls a function. -/
def apply (f : FnHandle) (args : List Shared) : Run σ φ Shared := do
  let s ← get
  let (memory, out) := r.host.call f args s.memory
  set { s with memory := memory }
  ResolveError.ofExcept .fault out

/-- The resolver as an engine. -/
def engine : Engine (Run σ φ) (Option Share) where
  registry := r.registry
  exhausted := r.exhausted
  unregistered := unregistered
  apply := r.apply
  container := r.container

/-- A text substituted with the given number of passes left. -/
def substitute (left : Nat) (s : String) : Run σ φ Shared :=
  r.engine.substitute left s

/-- The passes that are left at a depth. -/
def passesLeft (depth : Int) : Nat :=
  (r.maxDepth - depth).toNat

/-- A value substituted at a depth (`substitute`); only a text changes. -/
def substituteAt (depth : Int) (v : Value) : Run σ φ Shared :=
  match v with
  | .atom (.str s) => r.substitute (r.passesLeft depth) s
  | other => pure other.unmarked

/-- A value resolved at a depth (`resolve_value`). -/
def resolveAt (depth : Int) (v : Value) : Run σ φ Shared :=
  r.engine.resolve (r.passesLeft depth) v

/-- A resolved leaf written into a tree.  If the way leads through a marked mapping, that mapping
changes wherever it occurs. -/
def writeLeaf (es : List (Key × Shared)) (path : String) (v : Shared) :
    Run σ φ (List (Key × Shared)) := do
  match Tree.writeRevision? v (Path.split path) es with
  | none => return Tree.writeEntries v (Path.split path) es
  | some rev =>
    modify fun s => { s with
      memory := r.host.revise rev s.memory
      cache := s.cache.map fun c => c.map fun (k, held) => (k, held.revise rev)
      revisions := rev :: s.revisions }
    return Tree.replaceShareEntries rev.share rev.content es

/-- The leaves of a definition resolved one after the other into a new tree. -/
def resolveLeaves : Flat Unit → List (Key × Shared) → Run σ φ (List (Key × Shared))
  | [], es => pure es
  | (path, leaf) :: rest, es => do
    let v ← r.resolveAt 0 leaf
    resolveLeaves rest (← r.writeLeaf es path v)

/-- The tree in which every leaf of the definition is resolved, in one pass (`resolve_tree`). -/
def resolveTree (definition : Value) : Run σ φ Shared := do
  let leaves ← ResolveError.ofExcept .flatten (definition.flatten "")
  Run.report ⟨.debug, .placeholders, "Resolving " ++ toString leaves.length ++ " leaves"⟩
  let es ← Run.withCache (r.resolveLeaves leaves [])
  return .map none es

end Resolver

end LayeredConfig
