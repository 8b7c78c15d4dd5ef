import LayeredConfig.Resolve.Shared
import LayeredConfig.Yaml.Node
import LayeredConfig.Yaml.Scalar

/-!
# From nodes to values

Values are built from the outside in: a collection comes before what it holds,
so of two faults the outer one is found, and of two equally deep ones the first.
A mapping takes the entries of the mappings that are merged into it before its
own, and the last of several entries with one key counts.

A node with aliases is one object at several places.  That matters for an empty
mapping, which later entries may be written into: it is marked by its node if it
stands at more than one place.
-/

namespace LayeredConfig.Yaml

/-- The kinds of collections. -/
inductive CollectionKind where
  /-- A list. -/
  | seq
  /-- A mapping. -/
  | map
  /-- A set. -/
  | set
  /-- A list of pairs. -/
  | pairs
deriving DecidableEq

/-- The kind of collection that a tag asks for. -/
def CollectionKind.ofTag? (tag : String) : Option CollectionKind :=
  [(Tag.seq, CollectionKind.seq), (Tag.map, .map), (Tag.family ++ "set", .set),
    (Tag.family ++ "pairs", .pairs), (Tag.family ++ "omap", .pairs)].lookup tag

/-- What a node is worth, with other nodes by number. -/
inductive Piece where
  /-- Nothing yet. -/
  | blank
  /-- A scalar. -/
  | atom (a : Atom)
  /-- A list. -/
  | list (items : List Nat)
  /-- A mapping. -/
  | map (entries : List (Atom × Nat))
  /-- A set. -/
  | set (members : List Atom)
  /-- A list of pairs. -/
  | pairs (pairs : List (Nat × Nat))
deriving Inhabited

namespace Build

/-- The state in the middle of building. -/
structure State where
  /-- The nodes; merging changes their entries. -/
  nodes : Array Node
  /-- What the nodes are worth. -/
  pieces : Array Piece
  /-- The collections that are still to be filled, the latest first. -/
  waiting : List (Nat × CollectionKind)

/-- Building that may stop. -/
abbrev Builder := StateT State (Except Stop)

/-- A node by its number. -/
def node (id : Nat) : Builder Node := do
  return (← get).nodes.getD id default

/-- What a node is worth, as far as it is known. -/
def piece (id : Nat) : Builder Piece := do
  return (← get).pieces.getD id .blank

/-- Says what a node is worth. -/
def setPiece (id : Nat) (p : Piece) : Builder Unit :=
  modify fun s => { s with pieces := s.pieces.setIfInBounds id p }

/-- Changes the entries of a node. -/
def setEntries (id : Nat) (entries : List (Nat × Nat)) : Builder Unit :=
  modify fun s => { s with
    nodes := s.nodes.modify id fun n => { n with content := .mapping entries } }

/-- Stops at the place of a node. -/
def stopAt {α : Type} (p : Problem) (n : Node) : Builder α :=
  throw (.problem p n.mark)

/-! ## Merging -/

/-- The entries of a mapping that are its own, and the nodes that are merged into it. -/
def splitMerges (nodes : Array Node) (entries : List (Nat × Nat)) : List Nat × List (Nat × Nat) :=
  let merges (e : Nat × Nat) : Bool := decide ((nodes.getD e.1 default).tag = Tag.merge)
  ((entries.filter merges).map (·.2), entries.filter fun e => !merges e)

/-- A key that stands for the whole mapping is a text among other keys. -/
def plainKey (id : Nat) : Builder Unit :=
  modify fun s => { s with
    nodes := s.nodes.modify id fun n =>
      if n.tag = Tag.value then { n with tag := Tag.str } else n }

mutual

/-- Puts the entries that are merged into a mapping in front of its own. -/
def mergeInto : Nat → Nat → Builder Unit
  | 0, _ => return
  | fuel + 1, id => do
    match (← node id).content with
    | .mapping entries =>
      let (merged, own) := splitMerges (← get).nodes entries
      setEntries id own
      for (k, _) in own do plainKey k
      let more ← mergedEntries fuel merged
      if !more.isEmpty then setEntries id (more ++ own)
    | _ => return

/-- The entries of mappings, or of lists of mappings, of which the first counts most. -/
def mergedEntries : Nat → List Nat → Builder (List (Nat × Nat))
  | 0, _ => return []
  | _, [] => return []
  | fuel + 1, id :: ids => do
    let n ← node id
    let front ← match n.content with
      | .mapping _ => do
        mergeInto fuel id
        entriesOf id
      | .sequence items => do
        let parts ← listEntries fuel items
        pure parts.reverse.flatten
      | .scalar _ => stopAt .unmergeable n
    return front ++ (← mergedEntries fuel ids)

/-- The entries of the mappings of a list, one by one. -/
def listEntries : Nat → List Nat → Builder (List (List (Nat × Nat)))
  | 0, _ => return []
  | _, [] => return []
  | fuel + 1, id :: ids => do
    let n ← node id
    match n.content with
    | .mapping _ =>
      mergeInto fuel id
      let es ← entriesOf id
      return es :: (← listEntries fuel ids)
    | _ => stopAt .unmergeable n

/-- The entries of a node. -/
def entriesOf (id : Nat) : Builder (List (Nat × Nat)) := do
  match (← node id).content with
  | .mapping es => return es
  | _ => return []

end

/-! ## Building -/

/-- The text of a node that has to be a scalar.  A mapping counts as what its key for the whole
holds. -/
def scalarText : Nat → Node → Builder String
  | 0, n => stopAt .wrongContent n
  | fuel + 1, n => do
    match n.content with
    | .scalar text => return text
    | .mapping entries =>
      let nodes := (← get).nodes
      match entries.find? fun e => decide ((nodes.getD e.1 default).tag = Tag.value) with
      | some (_, v) => scalarText fuel (nodes.getD v default)
      | none => stopAt .wrongContent n
    | .sequence _ => stopAt .wrongContent n

/-- Builds a node, or at least starts to build it if it is a collection. -/
def visit (id : Nat) : Builder Unit := do
  match ← piece id with
  | .blank =>
    let n ← node id
    match Scalar.Kind.ofTag? n.tag, CollectionKind.ofTag? n.tag with
    | some kind, _ =>
      let text ← scalarText ((← get).nodes.size + 1) n
      match Scalar.read kind text n.mark with
      | .ok a => setPiece id (.atom a)
      | .error e => throw e
    | none, some kind =>
      setPiece id (.list [])
      modify fun s => { s with waiting := (id, kind) :: s.waiting }
    | none, none => stopAt .unknownTag n
  | _ => return

/-- Two keys are one: they are equal, or they are the same word for no number. -/
def sameKey (a b : Atom) : Bool :=
  decide (a = b) || a.same b

/-- Writes a key: in its place if it is there, else at the end. -/
def putEntry (k : Atom) (v : Nat) : List (Atom × Nat) → List (Atom × Nat)
  | [] => [(k, v)]
  | (k', v') :: es => if sameKey k k' then (k', v) :: es else (k', v') :: putEntry k v es

/-- Visits the entries of a mapping and adds them to those before. -/
def visitEntries : List (Nat × Nat) → List (Atom × Nat) → Builder (List (Atom × Nat))
  | [], acc => return acc
  | (k, v) :: es, acc => do
    visit k
    match ← piece k with
    | .atom a =>
      visit v
      visitEntries es (putEntry a v acc)
    | _ => stopAt .changeableKey (← node k)

/-- The entries of a node that has to be a mapping. -/
def fillMapping (id : Nat) : Builder (List (Atom × Nat)) := do
  match (← node id).content with
  | .mapping _ =>
    let s ← get
    let total := s.nodes.foldl (fun sum n =>
      sum + (match n.content with
        | .mapping es => es.length
        | .sequence xs => xs.length
        | .scalar _ => 0)) 0
    mergeInto (2 * total + 2 * s.nodes.size + 2) id
    visitEntries (← entriesOf id) []
  | _ => stopAt .wrongContent (← node id)

/-- The pair that a mapping with one entry is. -/
def fillPair (id : Nat) : Builder (Nat × Nat) := do
  let n ← node id
  match n.content with
  | .mapping [(k, v)] =>
    visit k
    visit v
    return (k, v)
  | _ => stopAt .wrongContent n

/-- Fills a collection that was started before. -/
def fill (id : Nat) (kind : CollectionKind) : Builder Unit := do
  let n ← node id
  match kind with
  | .seq =>
    match n.content with
    | .sequence items =>
      items.forM visit
      setPiece id (.list items)
    | _ => stopAt .wrongContent n
  | .map => setPiece id (.map (← fillMapping id))
  | .set => setPiece id (.set ((← fillMapping id).map (·.1)))
  | .pairs =>
    match n.content with
    | .sequence items => setPiece id (.pairs (← items.mapM fillPair))
    | _ => stopAt .wrongContent n

/-- Fills all collections, level by level. -/
def fillAll : Nat → Builder Unit
  | 0 => return
  | fuel + 1 => do
    let waiting := (← get).waiting.reverse
    if waiting.isEmpty then return
    modify fun s => { s with waiting := [] }
    waiting.forM fun (id, kind) => fill id kind
    fillAll fuel

/-- Builds all pieces of a document. -/
def buildPieces (root : Nat) : Builder Unit := do
  visit root
  fillAll ((← get).nodes.size + 1)

/-! ## Putting pieces together -/

/-- The value of a node, at most of the given depth, every empty mapping under the mark of its
node. -/
def assemble (pieces : Array Piece) : Nat → Nat → Shared
  | 0, _ => .atom .null
  | fuel + 1, id =>
    match pieces.getD id .blank with
    | .blank => .atom .null
    | .atom a => .atom a
    | .list items => .list none (items.map (assemble pieces fuel))
    | .map [] => .map (some (.node id)) []
    | .map entries => .map none (entries.map fun (k, v) => (.atom k, assemble pieces fuel v))
    | .set members => .set (members.map .atom)
    | .pairs pairs => .list none (pairs.map fun (k, v) =>
      .tuple [assemble pieces fuel k, assemble pieces fuel v])

end Build

/-- The value of a document. -/
def Document.value (d : Document) : Except Stop Shared := do
  let size := d.nodes.size
  let ((), s) ← (Build.buildPieces d.root).run ⟨d.nodes, Array.replicate size .blank, []⟩
  return (Build.assemble s.pieces (size + 1) d.root).withoutSingleMarks

/-! ## Whole texts -/

/-- The value of a text, which is nothing at all if there is no document in it.  A text that breaks
off has none. -/
def read (ex : Excerpt) : Except Stop Shared :=
  match Document.ofExcerpt? ex, ex.cut with
  | .error e, _ => .error e
  | .ok _, some c => .error (.cut c)
  | .ok none, none => .ok (.atom .null)
  | .ok (some d), none => d.value

/-- The value of a file. -/
def readBytes (bytes : List UInt8) : Except Stop Shared :=
  read (.ofBytes bytes)

end LayeredConfig.Yaml
