import LayeredConfig.Yaml.Tag
import LayeredConfig.Yaml.Token.Scan

/-!
# Nodes

The nodes of a document refer to each other by number, since a node may occur in
several places by its anchor, and even within itself.  They are read from the
tokens of the text in one go.
-/

namespace LayeredConfig.Yaml

/-- What a node holds. -/
inductive Content where
  /-- A text. -/
  | scalar (text : String)
  /-- Nodes in a row. -/
  | sequence (items : List Nat)
  /-- Pairs of nodes. -/
  | mapping (entries : List (Nat × Nat))
deriving Inhabited

/-- A node. -/
structure Node where
  /-- The kind of value. -/
  tag : String
  /-- What it holds. -/
  content : Content
  /-- Where it starts. -/
  mark : Mark
deriving Inhabited

/-- The nodes of a document, and which of them is the document. -/
structure Document where
  /-- All nodes. -/
  nodes : Array Node
  /-- The number of the outermost node. -/
  root : Nat
deriving Inhabited

namespace Node

/-- The state in the middle of reading. -/
structure Reading where
  /-- The tokens that are left. -/
  tokens : List Token
  /-- What stops the reading after them. -/
  fault : Option Stop
  /-- The nodes up to now. -/
  nodes : Array Node
  /-- The nodes that have anchors. -/
  anchors : List (String × Nat)
  /-- What the handles of tags stand for. -/
  handles : List (String × String)

/-- Reading that may stop. -/
abbrev Reader := StateT Reading (Except Stop)

/-- The next token. -/
def peek : Reader Token := do
  let s ← get
  match s.tokens with
  | t :: _ => return t
  | [] =>
    match s.fault with
    | some e => throw e
    | none => return ⟨.streamEnd, ⟨0, 0, 0⟩, ⟨0, 0, 0⟩⟩

/-- Goes on after the next token. -/
def take : Reader Token := do
  let t ← peek
  modify fun s => { s with tokens := s.tokens.tail }
  return t

/-- What the next token is. -/
def peekKind : Reader TokenKind := do
  return (← peek).kind

/-- Adds a node. -/
def add (n : Node) : Reader Nat := do
  let id := (← get).nodes.size
  modify fun s => { s with nodes := s.nodes.push n }
  return id

/-- Fills a node that was added before. -/
def fill (id : Nat) (content : Content) : Reader Unit :=
  modify fun s => { s with nodes := s.nodes.modify id fun n => { n with content := content } }

/-- Gives a node an anchor. -/
def bind (anchor : Option String) (id : Nat) : Reader Unit :=
  match anchor with
  | none => pure ()
  | some name => modify fun s => { s with anchors := (name, id) :: s.anchors }

/-- A text that is not written. -/
def addEmpty (m : Mark) : Reader Nat :=
  add ⟨Tag.ofPlain "", .scalar "", m⟩

/-- Tag and anchor in front of a node, with the place of the first of them. -/
structure Properties where
  /-- The anchor. -/
  anchor : Option String
  /-- The tag with its place. -/
  tag : Option (WrittenTag × Mark)
  /-- The place of the first. -/
  start : Option Mark

/-- Tag and anchor in either order. -/
def readProperties : Reader Properties := do
  let t ← peek
  match t.kind with
  | .anchor name =>
    let _ ← take
    match (← peek) with
    | ⟨.tag tag, m, _⟩ =>
      let _ ← take
      return ⟨some name, some (tag, m), some t.start⟩
    | _ => return ⟨some name, none, some t.start⟩
  | .tag tag =>
    let _ ← take
    match (← peek).kind with
    | .anchor name =>
      let _ ← take
      return ⟨some name, some (tag, t.start), some t.start⟩
    | _ => return ⟨none, some (tag, t.start), some t.start⟩
  | _ => return ⟨none, none, none⟩

/-- The tag in full; a single exclamation mark is no tag of its own. -/
def fullTag? (tag : Option (WrittenTag × Mark)) : Reader (Option String) :=
  match tag with
  | none => return none
  | some (t, m) => do
    match t.handle with
    | none => return some t.suffix
    | some h =>
      match (← get).handles.lookup h with
      | some front => return some (front ++ t.suffix)
      | none => throw (.problem .unknownHandle m)

/-- The tag of a collection. -/
def collectionTag (tag : Option String) (usual : String) : String :=
  match tag with
  | some t => if t = "!" then usual else t
  | none => usual

/-- The tag of a text. -/
def scalarTag (tag : Option String) (plain : Bool) (text : String) : String :=
  match tag with
  | some t => if t = "!" then Tag.ofPlain text else t
  | none => if plain then Tag.ofPlain text else Tag.str

/-- An anchor is given only once. -/
def checkAnchor (anchor : Option String) (m : Mark) : Reader Unit := do
  match anchor with
  | none => return
  | some name =>
    if ((← get).anchors.lookup name).isSome then throw (.problem .doubleAnchor m)

/-- How a node may be written where it stands. -/
structure Context where
  /-- It may be a collection by its indentation. -/
  block : Bool
  /-- It may be a sequence without an indentation of its own. -/
  indentless : Bool

/-- Within brackets. -/
def flow : Context := ⟨false, false⟩

/-- By indentation. -/
def block : Context := ⟨true, false⟩

/-- In a mapping by indentation. -/
def entry : Context := ⟨true, true⟩

/-- The tokens that end a part of a mapping by indentation. -/
def endsEntry : TokenKind → Bool
  | .key | .value | .blockEnd => true
  | _ => false

/-- The tokens that end a part of a pair in a sequence within brackets. -/
def endsPair : TokenKind → Bool
  | .flowEntry | .flowSequenceEnd => true
  | _ => false

/-- The tokens that end a part of a mapping within brackets. -/
def endsFlowEntry : TokenKind → Bool
  | .flowEntry | .flowMappingEnd => true
  | _ => false

mutual

/-- The node in front of the reader. -/
def readNode : Nat → Context → Reader Nat
  | 0, _ => do throw (.problem .noContent (← peek).start)
  | fuel + 1, ctx => do
    let first ← peek
    match first.kind with
    | .alias name =>
      let _ ← take
      match (← get).anchors.lookup name with
      | some id => return id
      | none => throw (.problem .unknownAnchor first.start)
    | _ =>
      let props ← readProperties
      let tag ← fullTag? props.tag
      let t ← peek
      let start := props.start.getD t.start
      let collection (usual : String) (read : Reader Content) : Reader Nat := do
        checkAnchor props.anchor start
        let id ← add ⟨collectionTag tag usual, .sequence [], start⟩
        bind props.anchor id
        fill id (← read)
        return id
      match t.kind, ctx.block, ctx.indentless with
      | .blockEntry, _, true =>
        collection Tag.seq (return .sequence (← readIndentless fuel))
      | .scalar plain text, _, _ =>
        let _ ← take
        checkAnchor props.anchor start
        let id ← add ⟨scalarTag tag plain text, .scalar text, start⟩
        bind props.anchor id
        return id
      | .flowSequenceStart, _, _ =>
        collection Tag.seq (do let _ ← take; return .sequence (← readFlowItems fuel true))
      | .flowMappingStart, _, _ =>
        collection Tag.map (do let _ ← take; return .mapping (← readFlowEntries fuel true))
      | .blockSequenceStart, true, _ =>
        collection Tag.seq (do let _ ← take; return .sequence (← readBlockItems fuel))
      | .blockMappingStart, true, _ =>
        collection Tag.map (do let _ ← take; return .mapping (← readBlockEntries fuel))
      | _, _, _ =>
        if props.anchor.isNone && tag.isNone then throw (.problem .noContent t.start)
        else
          checkAnchor props.anchor start
          let plain := tag.isNone
          let id ← add ⟨scalarTag tag plain "", .scalar "", start⟩
          bind props.anchor id
          return id

/-- A part of a collection: a node, or nothing if a token that ends the part comes at once. -/
def readPart : Nat → (TokenKind → Bool) → Context → Mark → Reader Nat
  | 0, _, _, m => throw (.problem .noContent m)
  | fuel + 1, ends, ctx, m => do
    if ends (← peekKind) then addEmpty m else readNode fuel ctx

/-- The value after a key: what follows the mark of a value, or nothing. -/
def readValue : Nat → (TokenKind → Bool) → Context → Reader Nat
  | 0, _, _ => do throw (.problem .noContent (← peek).start)
  | fuel + 1, ends, ctx => do
    let t ← peek
    match t.kind with
    | .value =>
      let _ ← take
      readPart fuel ends ctx t.stop
    | _ => addEmpty t.start

/-- The items of a sequence by indentation. -/
def readBlockItems : Nat → Reader (List Nat)
  | 0 => do throw (.problem .noBlockEnd (← peek).start)
  | fuel + 1 => do
    let t ← take
    match t.kind with
    | .blockEntry =>
      let id ← readPart fuel (fun k => k = .blockEntry || k = .blockEnd) block t.stop
      return id :: (← readBlockItems fuel)
    | .blockEnd => return []
    | _ => throw (.problem .noBlockEnd t.start)

/-- The items of a sequence without an indentation of its own. -/
def readIndentless : Nat → Reader (List Nat)
  | 0 => do throw (.problem .noBlockEnd (← peek).start)
  | fuel + 1 => do
    let t ← peek
    match t.kind with
    | .blockEntry =>
      let _ ← take
      let id ← readPart fuel (fun k => k = .blockEntry || endsEntry k) block t.stop
      return id :: (← readIndentless fuel)
    | _ => return []

/-- The entries of a mapping by indentation. -/
def readBlockEntries : Nat → Reader (List (Nat × Nat))
  | 0 => do throw (.problem .noBlockEnd (← peek).start)
  | fuel + 1 => do
    let t ← take
    match t.kind with
    | .key =>
      let k ← readPart fuel endsEntry entry t.stop
      let v ← readValue fuel endsEntry entry
      return (k, v) :: (← readBlockEntries fuel)
    | .blockEnd => return []
    | _ => throw (.problem .noBlockEnd t.start)

/-- The items of a sequence within brackets.  A pair counts as a mapping of its own. -/
def readFlowItems : Nat → Bool → Reader (List Nat)
  | 0, _ => do throw (.problem .noFlowEnd (← peek).start)
  | fuel + 1, first => do
    if (← peekKind) = .flowSequenceEnd then
      let _ ← take
      return []
    if !first then
      let t ← take
      if t.kind ≠ .flowEntry then throw (.problem .noFlowEnd t.start)
    let t ← peek
    match t.kind with
    | .key =>
      let id ← add ⟨Tag.map, .mapping [], t.start⟩
      let _ ← take
      let k ← readPart fuel (fun x => x = .value || endsPair x) flow t.stop
      let v ← readValue fuel endsPair flow
      fill id (.mapping [(k, v)])
      return id :: (← readFlowItems fuel false)
    | .flowSequenceEnd =>
      let _ ← take
      return []
    | _ =>
      let id ← readNode fuel flow
      return id :: (← readFlowItems fuel false)

/-- The entries of a mapping within brackets. -/
def readFlowEntries : Nat → Bool → Reader (List (Nat × Nat))
  | 0, _ => do throw (.problem .noFlowEnd (← peek).start)
  | fuel + 1, first => do
    if (← peekKind) = .flowMappingEnd then
      let _ ← take
      return []
    if !first then
      let t ← take
      if t.kind ≠ .flowEntry then throw (.problem .noFlowEnd t.start)
    let t ← peek
    match t.kind with
    | .key =>
      let _ ← take
      let k ← readPart fuel (fun x => x = .value || endsFlowEntry x) flow t.stop
      let v ← readValue fuel endsFlowEntry flow
      return (k, v) :: (← readFlowEntries fuel false)
    | .flowMappingEnd =>
      let _ ← take
      return []
    | _ =>
      let k ← readNode fuel flow
      let v ← addEmpty (← peek).start
      return (k, v) :: (← readFlowEntries fuel false)

end

/-! ## Documents -/

/-- The handles that every document has. -/
def usualHandles : List (String × String) :=
  [("!", "!"), ("!!", Tag.family)]

/-- The directives in front of a document, which say what its handles stand for. -/
def readDirectives : Nat → Bool → List (String × String) → Reader (List (String × String))
  | 0, _, handles => return handles
  | fuel + 1, versioned, handles => do
    let t ← peek
    match t.kind with
    | .directive d =>
      let _ ← take
      match d with
      | .version major _ =>
        if versioned then throw (.problem .doubleDirective t.start)
        if major ≠ 1 then throw (.problem .foreignVersion t.start)
        readDirectives fuel true handles
      | .handle h front =>
        if (handles.lookup h).isSome then throw (.problem .doubleDirective t.start)
        readDirectives fuel versioned (handles ++ [(h, front)])
      | .other => readDirectives fuel versioned handles
    | _ => return handles

/-- Skips the marks of ends of documents. -/
def skipDocumentEnds : Nat → Reader Unit
  | 0 => return
  | fuel + 1 => do
    if (← peekKind) = .documentEnd then
      let _ ← take
      skipDocumentEnds fuel

/-- The mark of the start of a document with its directives: where it starts, or nothing at the
end of the text. -/
def readDocumentStart (fuel : Nat) : Reader (Option Mark) := do
  skipDocumentEnds fuel
  let first ← peek
  if first.kind = .streamEnd then return none
  let handles ← readDirectives fuel false []
  modify fun s => { s with
    handles := handles ++ usualHandles.filter fun h => (handles.lookup h.1).isNone }
  let t ← peek
  if t.kind ≠ .documentStart then throw (.problem .noDocumentStart t.start)
  let _ ← take
  return some first.start

/-- The token may not start the content of a document. -/
def endsDocument : TokenKind → Bool
  | .directive _ | .documentStart | .documentEnd | .streamEnd => true
  | _ => false

/-- The content of a document after its start, if the text is not at its end. -/
def readContent (fuel : Nat) : Reader (Option Nat) := do
  match (← peekKind) with
  | .directive _ | .documentStart | .streamEnd =>
    match ← readDocumentStart fuel with
    | none => return none
    | some _ =>
      let t ← peek
      if endsDocument t.kind then return some (← addEmpty t.start)
      else return some (← readNode fuel block)
  | _ =>
    modify fun s => { s with handles := usualHandles }
    return some (← readNode fuel block)

/-- The only document of a text, if there is one. -/
def readDocument (fuel : Nat) : Reader (Option Document) := do
  match ← readContent fuel with
  | none => return none
  | some root =>
    if (← peekKind) = .documentEnd then
      let _ ← take
    match ← readDocumentStart fuel with
    | none => return some ⟨(← get).nodes, root⟩
    | some m => throw (.problem .secondDocument m)

end Node

/-- The only document of a text, if there is one. -/
def Document.ofExcerpt? (ex : Excerpt) : Except Stop (Option Document) :=
  let (tokens, fault) := Token.scan ex
  ((Node.readDocument (4 * tokens.length + 8)).run ⟨tokens, fault, #[], [], []⟩).map (·.1)

end LayeredConfig.Yaml
