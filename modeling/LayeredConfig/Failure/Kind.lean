/-!
# Kinds of failure

The failures that a user of the library may tell apart.  They form a tree: who
expects a failure of one kind also expects those of the kinds below it.
-/

namespace LayeredConfig

/-- A kind of failure (`StratumError` and those below it). -/
inductive FailureKind where
  /-- Any failure of the library. -/
  | general
  /-- A source cannot be loaded or read. -/
  | configuration
  /-- No reader handles a file of this format. -/
  | unsupportedFormat
  /-- A reserved namespace is to be registered. -/
  | reservedNamespace
  /-- A text needs more passes than are allowed. -/
  | resolutionDepth
deriving DecidableEq, Inhabited

namespace FailureKind

/-- The kind just above. -/
def parent? : FailureKind → Option FailureKind
  | general => none
  | configuration => some general
  | unsupportedFormat => some configuration
  | reservedNamespace => some configuration
  | resolutionDepth => some general

/-- How many kinds lie above. -/
def level : FailureKind → Nat
  | general => 0
  | configuration => 1
  | unsupportedFormat => 2
  | reservedNamespace => 2
  | resolutionDepth => 1

/-- Every kind lies one level below its parent. -/
theorem level_of_parent? {k p : FailureKind} (h : k.parent? = some p) : p.level + 1 = k.level := by
  cases k <;> simp [parent?] at h <;> subst h <;> rfl

/-- The kinds above, the nearest first. -/
def ancestors (k : FailureKind) : List FailureKind :=
  match _h : k.parent? with
  | none => []
  | some p => p :: p.ancestors
termination_by k.level
decreasing_by have := level_of_parent? _h; omega

/-- The name of a kind. -/
def name : FailureKind → String
  | general => "StratumError"
  | configuration => "ConfigurationError"
  | unsupportedFormat => "UnsupportedFormatError"
  | reservedNamespace => "ReservedNamespaceError"
  | resolutionDepth => "ResolutionDepthError"

/-- All kinds. -/
def all : List FailureKind :=
  [general, configuration, unsupportedFormat, reservedNamespace, resolutionDepth]

/-- The kind of a name. -/
def ofName? (name : String) : Option FailureKind :=
  all.find? fun k => decide (k.name = name)

end FailureKind

end LayeredConfig
