import LayeredConfig.Layer.Definition
import LayeredConfig.Resolve.Resolver

/-!
# The configuration store

A store holds the definition tree, as part of its namespaces, and the tree that
came out of resolving it.  Every change of the definition or of the namespaces
is followed by a new resolution.  If that fails, the change stays, and so does
the resolved tree of before.

A container that changes does so in the definition too, where that holds it
(`Definition.revise`).
-/

namespace LayeredConfig

/-- Why a store refuses a change. -/
inductive StoreError (φ : Type) where
  /-- The namespaces cannot be registered. -/
  | registry (e : RegistryError)
  /-- The layer has no leaves by path. -/
  | layer (e : FlattenError)
  /-- The definition cannot be resolved. -/
  | resolve (e : ResolveError φ)

/-- The error in words, given the words for the errors of functions. -/
def StoreError.message {φ : Type} (faultMessage : φ → String) : StoreError φ → String
  | registry e => e.message
  | layer e => e.message
  | resolve e => e.message faultMessage

/-- The report of the error, if it is one of the library's own. -/
def StoreError.report? {φ : Type} : StoreError φ → Option Report
  | registry e => e.report?
  | layer _ => none
  | resolve e => e.report?

/-- A configuration with its resolved form, the `ConfigStore` of the source. -/
structure Store (σ φ : Type) where
  /-- The functions. -/
  host : Host σ φ
  /-- The greatest number of passes over a text. -/
  maxDepth : Int
  /-- A text that needs more passes is an error. -/
  strict : Bool
  /-- The namespaces, the definition tree among them. -/
  namespaces : Registry Definition
  /-- The resolved tree. -/
  resolved : Shared
  /-- What the functions remember. -/
  memory : σ
  /-- The number of the next result that is marked. -/
  fresh : Nat
  /-- What was reported, the latest first. -/
  log : List LogEntry

namespace Store

variable {σ φ : Type}

/-- A store without any definition. -/
def empty (host : Host σ φ) (memory : σ) (maxDepth : Int) (strict : Bool) : Store σ φ :=
  ⟨host, maxDepth, strict, .ofDefinition .empty, .map none [], memory, 0, []⟩

/-- The namespaces as they are looked through. -/
def registry (s : Store σ φ) : Registry :=
  ⟨s.namespaces.definition.value, s.namespaces.others⟩

/-- The definition tree. -/
def definition (s : Store σ φ) : Value :=
  s.registry.definition

/-- The store with another definition tree, not yet resolved. -/
def withDefinition (s : Store σ φ) (d : Definition) : Store σ φ :=
  { s with namespaces.definition := d }

/-- What resolves the store's texts. -/
def resolver (s : Store σ φ) : Resolver σ φ :=
  ⟨s.registry, s.host, s.maxDepth, s.strict⟩

/-- Adds namespaces. -/
def register (s : Store σ φ) (namespaces : Value) : Store σ φ × Except (StoreError φ) Unit :=
  let (out, after) := (Registry.update namespaces).run ⟨s.namespaces, s.log⟩
  ({ s with namespaces := after.registry, log := after.log }, out.mapError .registry)

/-- Resolves the definition.  After an error the old tree stays, but changes of containers that
it shares with a function show in it. -/
def refresh (s : Store σ φ) : Store σ φ × Except (StoreError φ) Unit :=
  let start : Scratch σ := { Scratch.start s.memory with fresh := s.fresh }
  let (out, scratch) := (s.resolver.resolveTree s.definition).run start
  let s' := { s with
    namespaces.definition := scratch.revisions.foldr Definition.revise s.namespaces.definition
    memory := scratch.memory
    fresh := scratch.fresh
    log := scratch.log ++ s.log }
  match out with
  | .ok tree => ({ s' with resolved := tree }, .ok ())
  | .error e =>
    ({ s' with resolved := scratch.revisions.reverse.foldl (fun t rev => t.revise rev) s.resolved },
      .error (.resolve e))

/-- Adds namespaces and resolves the definition (`resolve`). -/
def resolve (s : Store σ φ) (namespaces : Value) : Store σ φ × Except (StoreError φ) Unit :=
  match s.register namespaces with
  | (s', .ok ()) => s'.refresh
  | (s', .error e) => (s', .error e)

/-- Writes a value into the definition, of which others may hold containers, and resolves it. -/
def setShared (s : Store σ φ) (path : String) (v : Shared) :
    Store σ φ × Except (StoreError φ) Unit :=
  (s.withDefinition (s.namespaces.definition.write (Path.normalize path) v)).refresh

/-- Writes a value into the definition and resolves it (`set`). -/
def set (s : Store σ φ) (path : String) (v : Value) : Store σ φ × Except (StoreError φ) Unit :=
  s.setShared path v.unmarked

/-- The definition tree with a layer laid over it, whose keys may be paths and of which others may
hold containers. -/
def layered (definition : Definition) (layer : Shared) : Except FlattenError Definition :=
  layer.legibleEntries?.map fun es => definition.overlay (.map none (Tree.unflattenShared es))

/-- Lays a layer over the definition, of which others may hold containers, and resolves it; no value
at all changes nothing. -/
def mergeShared (s : Store σ φ) (layer : Shared) : Store σ φ × Except (StoreError φ) Unit :=
  match layer with
  | .atom .null => (s, .ok ())
  | layer =>
    match layered s.namespaces.definition layer with
    | .ok d => (s.withDefinition d).refresh
    | .error e => (s, .error (.layer e))

/-- Lays a layer over the definition and resolves it (`merge`). -/
def merge (s : Store σ φ) (layer : Value) : Store σ φ × Except (StoreError φ) Unit :=
  s.mergeShared layer.unmarked

/-- A store with namespaces and a first layer, as `ConfigStore` makes it. -/
def create (host : Host σ φ) (memory : σ) (maxDepth : Int) (strict : Bool)
    (layer namespaces : Value) : Store σ φ × Except (StoreError φ) Unit :=
  match (empty host memory maxDepth strict).register namespaces with
  | (s, .ok ()) => s.merge layer
  | (s, .error e) => (s, .error e)

/-- The resolved value at a path (`get`); the empty path means the whole tree, and the default is
taken for what is missing or undefined. -/
def get (s : Store σ φ) (path : String) (default : Shared) : Except NumeralError Shared := do
  if path = "" then return s.resolved
  else
    match ← s.resolved.get (Path.normalize path) with
    | .atom .missing => return default
    | .atom .undefined => return default
    | v => return v

end Store

end LayeredConfig
