import LayeredConfig.Failure.Report
import LayeredConfig.Layer.Merge
import LayeredConfig.Log.Entry
import LayeredConfig.Path.Flat
import LayeredConfig.Value.Sorting

/-!
# The registry of namespaces

Placeholders look values up in namespaces.  One of them is always there and
cannot be registered: the definition tree itself.  Registering namespaces again
adds to those that are there.
-/

namespace LayeredConfig

/-- The namespaces of a configuration, the `Dictionary` of the source.  Whoever looks values up sees
the definition as a plain tree. -/
structure Registry (δ : Type := Value) where
  /-- The definition tree, which is the reserved namespace. -/
  definition : δ
  /-- All other namespaces in the order of their registration. -/
  others : List (Key × Value)
deriving Inhabited

/-- Why namespaces are not registered. -/
inductive RegistryError where
  /-- The reserved namespace is among them. -/
  | reserved (name : String)
  /-- The value given holds nothing that could be looked through. -/
  | notIterable (typeName : String)
  /-- A text is never found among bytes. -/
  | needsBytes
  /-- The names have no common order. -/
  | unordered (e : OrderError)
  /-- The names cannot be written into the report. -/
  | numeral (e : NumeralError)
  /-- The value given is no mapping. -/
  | notMapping (e : NotMapping)
deriving DecidableEq

/-- The error in words. -/
def RegistryError.message : RegistryError → String
  | reserved name => (Report.reservedNamespace (.str name)).text
  | notIterable name => "argument of type '" ++ name ++ "' is not iterable"
  | needsBytes => "a bytes-like object is required, not 'str'"
  | unordered e => e.message
  | numeral e => e.message
  | notMapping e => e.message

/-- The report of the error, if it is one of the library's own. -/
def RegistryError.report? : RegistryError → Option Report
  | reserved name => some (.reservedNamespace (.str name))
  | _ => none

namespace Registry

/-- The name of the reserved namespace. -/
def reservedName : String := "self"

/-- The registry of a definition tree alone. -/
def ofDefinition {δ : Type} (definition : δ) : Registry δ :=
  ⟨definition, []⟩

/-- The namespace of a name (`get`). -/
def get? (r : Registry) (name : String) : Option Value :=
  if name = reservedName then some r.definition else Entries.find? (.str name) r.others

/-- All namespaces by name. -/
def entries (r : Registry) : List (Key × Value) :=
  (.str reservedName, r.definition) :: r.others

/-- The key names a namespace. -/
def contains (r : Registry) (k : Key) : Bool :=
  Entries.contains k r.entries

/-- The first list stands somewhere in the second without gaps. -/
def occursIn (part : List Char) : List Char → Bool
  | [] => part.isEmpty
  | c :: cs => part.isPrefixOf (c :: cs) || occursIn part cs

/-- The value given names the reserved namespace. -/
def namesReserved : Value → Except RegistryError Bool
  | .map _ es => .ok (Entries.contains (.str reservedName) es)
  | .list _ items => .ok (items.any fun v => (Tree.str reservedName : Value).same v)
  | .tuple items => .ok (items.any fun v => (Tree.str reservedName : Value).same v)
  | .set members => .ok (members.any fun k => (Key.str reservedName).same k)
  | .atom (.str s) => .ok (occursIn reservedName.toList s.toList)
  | .atom (.bytes _) => .error .needsBytes
  | .atom a => .error (.notIterable a.qualifiedTypeName)

/-- What the value given lists, one by one. -/
def listed : Value → List Value
  | .map _ es => es.map fun e => Tree.ofKey e.1
  | .list _ items => items
  | .tuple items => items
  | .set members => members.map Tree.ofKey
  | .atom (.str s) => s.toList.map fun c => .str (String.singleton c)
  | .atom _ => []

end Registry

/-- What a registration changes. -/
structure Registration (δ : Type) where
  /-- The namespaces. -/
  registry : Registry δ
  /-- What was reported, the latest first. -/
  log : List LogEntry

/-- A step of a registration.  What has been done before an error stays done. -/
abbrev Registering (δ α : Type) := ExceptT RegistryError (StateM (Registration δ)) α

namespace Registry

variable {δ : Type}

/-- The report of a registration. -/
def mergeEntry (names : List Value) : LogEntry :=
  ⟨.debug, .namespaces, "Merging namespaces: [" ++ Tree.shownItems names ++ "]"⟩

/-- Lays a namespace over what its name holds, if anything. -/
def lay (name : Key) (v : Value) : Registering δ Unit :=
  modify fun s => { s with registry.others := Tree.overlayEntries [(name, v)] s.registry.others }

/-- The names that a registration reports, in order; the reserved name, names without an order and
names that cannot be written are refused. -/
def namesToMerge (namespaces : Value) : Except RegistryError (List Value) := do
  if ← namesReserved namespaces then throw (.reserved reservedName)
  let names ← (Tree.sort (listed namespaces)).mapError RegistryError.unordered
  if Tree.areWritable names then return names else throw (.numeral .tooLarge)

/-- Adds namespaces one by one, the `update` of the source.  A value that counts as false adds
nothing, and what is no mapping is refused in the end. -/
def update (namespaces : Value) : Registering δ Unit := do
  if namespaces.truthy then
    let names ← namesToMerge namespaces
    modify fun s => { s with log := mergeEntry names :: s.log }
    let es ← namespaces.entries?.mapError RegistryError.notMapping
    es.forM fun e => lay e.1 e.2

end Registry

end LayeredConfig
