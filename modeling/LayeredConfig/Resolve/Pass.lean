import LayeredConfig.Log.Entry
import LayeredConfig.Namespace.Registry
import LayeredConfig.Resolve.Shared
import LayeredConfig.Template.Literal
import LayeredConfig.Template.Text

/-!
# What a resolution works with

A resolution reads the registry and calls functions.  It keeps a state of its
own: what the functions remember, the results of references to containers that
it may use again, and the containers that are being resolved at the moment.
An error leaves the state as it was when the error arose.
-/

namespace LayeredConfig

/-- Functions with a memory `σ` that may fail with a `φ`. -/
structure Host (σ φ : Type) where
  /-- Calls a function. -/
  call : FnHandle → List Shared → σ → σ × Except φ Shared
  /-- Tells the functions that a container has changed which one of them keeps. -/
  revise : Tree.Revision → σ → σ

/-- Why a value cannot be resolved. -/
inductive ResolveError (φ : Type) where
  /-- The passes allowed were not enough, or a container refers back to itself. -/
  | depth (value : String) (limit : Int)
  /-- A segment of a path is no position, or it is compared with a key that cannot be written. -/
  | index (e : NumeralError)
  /-- A value that goes into a text has no text form. -/
  | unwritable (e : Unwritable)
  /-- The definition has no leaves by path. -/
  | flatten (e : FlattenError)
  /-- A function failed. -/
  | fault (f : φ)
deriving DecidableEq

/-- The error in words, given the words for the errors of functions. -/
def ResolveError.message {φ : Type} (faultMessage : φ → String) : ResolveError φ → String
  | depth value limit => (Report.resolutionDepth (.str value) (.atom (.int limit))).text
  | index e => e.message
  | unwritable e => e.message
  | flatten e => e.message
  | fault f => faultMessage f

/-- The report of the error, if it is one of the library's own. -/
def ResolveError.report? {φ : Type} : ResolveError φ → Option Report
  | depth value limit => some (.resolutionDepth (.str value) (.atom (.int limit)))
  | _ => none

/-- A result taken over as a step, with its error among the reasons. -/
def ResolveError.ofExcept {m : Type → Type} {ε φ β : Type} [Monad m]
    [MonadExcept (ResolveError φ) m] (wrap : ε → ResolveError φ) : Except ε β → m β
  | .ok b => pure b
  | .error e => throw (wrap e)

/-- Where a container stands: its namespace and the places passed on the way to it. -/
structure Address where
  /-- The namespace. -/
  space : String
  /-- The places passed, from the namespace down. -/
  steps : List Nat
deriving DecidableEq, Inhabited

/-- What the result of a reference depends on. -/
structure CacheKey where
  /-- The container. -/
  address : Address
  /-- The passes that are left. -/
  left : Nat
  /-- The containers being resolved further up, in any order. -/
  active : List Address
deriving DecidableEq

/-- Two keys agree: the same container, as many passes left, the same containers further up. -/
def CacheKey.agrees (k l : CacheKey) : Bool :=
  decide (k.left = l.left) && decide (k.address = l.address) &&
    decide (k.active.length = l.active.length) && k.active.all fun a => l.active.contains a

/-- Results of references. -/
abbrev Cache := List (CacheKey × Shared)

/-- The result held for a key. -/
def Cache.find? (k : CacheKey) : Cache → Option Shared
  | [] => none
  | (l, v) :: rest => if k.agrees l then some v else find? k rest

/-- The state of a resolution. -/
structure Scratch (σ : Type) where
  /-- What the functions remember. -/
  memory : σ
  /-- Results of references, from the start of a pass to its end. -/
  cache : Option Cache
  /-- The containers being resolved, the innermost first. -/
  active : List Address
  /-- The number of the next result that is marked. -/
  fresh : Nat
  /-- Changes made to marked containers, the latest first. -/
  revisions : List Tree.Revision
  /-- What was reported, the latest first. -/
  log : List LogEntry

/-- The state before the first resolution. -/
def Scratch.start {σ : Type} (memory : σ) : Scratch σ :=
  ⟨memory, none, [], 0, [], []⟩

/-- A step of a resolution. -/
abbrev Run (σ φ α : Type) := ExceptT (ResolveError φ) (StateM (Scratch σ)) α

namespace Run

variable {σ φ α : Type}

/-- Reports something. -/
def report (e : LogEntry) : Run σ φ Unit :=
  modify fun s => { s with log := e :: s.log }

/-- Runs a step between two changes of the state; the second one is made after an error too. -/
def between (enter leave : Scratch σ → Scratch σ) (x : Run σ φ α) : Run σ φ α :=
  ExceptT.mk fun s =>
    let (out, s') := x.run (enter s)
    (out, leave s')

/-- Opens a cache for the length of a step. -/
def withCache (x : Run σ φ α) : Run σ φ α :=
  between (fun s => { s with cache := some [] }) (fun s => { s with cache := none }) x

/-- Counts a container among those being resolved for the length of a step. -/
def withActive (a : Address) (x : Run σ φ α) : Run σ φ α :=
  between (fun s => { s with active := a :: s.active })
    (fun s => { s with active := s.active.erase a }) x

end Run

end LayeredConfig
