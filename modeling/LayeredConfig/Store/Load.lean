import LayeredConfig.Source.File
import LayeredConfig.Source.Variables
import LayeredConfig.Store.Basic

/-!
# Loading a layered configuration

Files come first, in order, then the environment and then the arguments; what
comes later counts more.  Each layer is laid over the definition and resolved
before the next one is read.
-/

namespace LayeredConfig

/-- Why a configuration is not loaded. -/
inductive LoadError (φ : Type) where
  /-- A file cannot be read. -/
  | file (e : Source.FileError)
  /-- The store refuses a layer. -/
  | store (e : StoreError φ)

/-- The report of the error, if it is one of the library's own. -/
def LoadError.report? {φ : Type} : LoadError φ → Option Report
  | file e => e.report?
  | store e => e.report?

/-- The layers of a configuration. -/
structure Layers where
  /-- The paths of files, as they are written. -/
  files : List String
  /-- The variables of the environment, if they are to be merged. -/
  environ : Option (List (Key × Value))
  /-- The names of the variables to be merged, if not all are. -/
  environPick : Option (List String)
  /-- The arguments, if they are to be merged. -/
  argv : Option (List String)
  /-- The names of the arguments to be merged, if not all are. -/
  argvPick : Option (List String)
  /-- What stands between the parts of names of variables and arguments. -/
  delimiter : String
  /-- Modules of assignments may be read. -/
  allowCode : Bool
deriving Inhabited

namespace Store

variable {σ φ : Type}

/-- Reports something. -/
def report (s : Store σ φ) (e : LogEntry) : Store σ φ :=
  { s with log := e :: s.log }

/-- Lays a layer over the definition as a step of loading. -/
def mergeLayer (s : Store σ φ) (layer : Shared) : Store σ φ × Except (LoadError φ) Unit :=
  let (s, r) := s.mergeShared layer
  (s, r.mapError .store)

/-- Lays a file over the definition. -/
def mergeFile (s : Store σ φ) (read? : FileReader) (p : FilePath) (allowCode : Bool) :
    Store σ φ × Except (LoadError φ) Unit :=
  let (log, out) := Source.loadFile read? p allowCode
  let s := log.foldl report s
  match out with
  | .ok layer => s.mergeLayer layer
  | .error e => (s, .error (.file e))

/-- The report that a file is being merged. -/
def mergingEntry (path : String) : LogEntry :=
  ⟨.info, .layers, "Merging configuration file: " ++ path⟩

/-- Goes on with the next step unless the one before has failed. -/
def goOn (out : Store σ φ × Except (LoadError φ) Unit)
    (next : Store σ φ → Store σ φ × Except (LoadError φ) Unit) :
    Store σ φ × Except (LoadError φ) Unit :=
  match out with
  | (s, .ok ()) => next s
  | (s, .error e) => (s, .error e)

/-- Lays files over the definition, one by one, as long as all goes well. -/
def mergeFiles (read? : FileReader) (allowCode : Bool) :
    List String → Store σ φ → Store σ φ × Except (LoadError φ) Unit
  | [], s => (s, .ok ())
  | path :: paths, s =>
    goOn ((s.report (mergingEntry path)).mergeFile read? (FilePath.ofText path) allowCode) fun s =>
      mergeFiles read? allowCode paths s

/-- Lays a layer over the definition if there is one. -/
def mergeLayer? (s : Store σ φ) : Option Value → Store σ φ × Except (LoadError φ) Unit
  | none => (s, .ok ())
  | some layer => s.mergeLayer layer.unmarked

/-- The layer of the environment. -/
def environLayer? (layers : Layers) : Option Value :=
  layers.environ.map fun environ =>
    Source.environment environ layers.environPick layers.delimiter false

/-- The layer of the arguments. -/
def argvLayer? (layers : Layers) : Option Value :=
  layers.argv.map fun argv => Source.arguments argv layers.argvPick layers.delimiter

/-- Loads all layers into a store. -/
def loadLayers (s : Store σ φ) (read? : FileReader) (layers : Layers) :
    Store σ φ × Except (LoadError φ) Unit :=
  goOn (mergeFiles read? layers.allowCode layers.files s) fun s =>
    goOn (s.mergeLayer? (environLayer? layers)) fun s =>
      s.mergeLayer? (argvLayer? layers)

/-- A store with namespaces into which all layers are loaded (`load_config`). -/
def load (host : Host σ φ) (memory : σ) (maxDepth : Int) (strict : Bool) (namespaces : Value)
    (read? : FileReader) (layers : Layers) : Store σ φ × Except (LoadError φ) Unit :=
  match create host memory maxDepth strict (.atom .null) namespaces with
  | (s, .ok ()) => s.loadLayers read? layers
  | (s, .error e) => (s, .error (.store e))

end Store

end LayeredConfig
