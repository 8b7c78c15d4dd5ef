import LayeredConfig.Yaml.Excerpt
import LayeredConfig.Yaml.Token.Block
import LayeredConfig.Yaml.Token.Name
import LayeredConfig.Yaml.Token.Plain
import LayeredConfig.Yaml.Token.Quoted

/-!
# From text to tokens

Tokens are read one after the other.  Two kinds of them are not written: the
start and the end of a collection by its indentation, and the mark of a key
whose colon only comes after it.  A text that may turn out to be a key is
therefore kept back, with all tokens behind it, until its colon is found or can
no longer come.  A text that has a fault still gives the tokens that stand
clear before the fault.  A text that breaks off gives the tokens that end before
its end, and has the faults that are found before.
-/

namespace LayeredConfig.Yaml

/-- A token that may turn out to start a key. -/
structure PossibleKey where
  /-- The number of the token. -/
  number : Nat
  /-- It has to be a key. -/
  required : Bool
  /-- Where it starts. -/
  mark : Mark
deriving Inhabited

/-- The state between two tokens. -/
structure Scan where
  /-- Where the text goes on. -/
  cursor : Cursor
  /-- How many brackets are open; below zero after too many closing ones. -/
  depth : Int
  /-- Tokens that are kept back. -/
  held : List Token
  /-- How many tokens have been given away. -/
  given : Nat
  /-- The column of the innermost collection by indentation. -/
  indent : Int
  /-- The columns of those around it. -/
  outer : List Int
  /-- A key may start here. -/
  keyAllowed : Bool
  /-- The possible key of each depth. -/
  keys : List (Int × PossibleKey)
  /-- The end of the text has been read. -/
  done : Bool

namespace Scan

/-- The state at the start of a text. -/
def start (cs : List Char) : Scan :=
  ⟨.start cs, 0, [], 0, -1, [], true, [], false⟩

/-- Some bracket is open. -/
def inFlow (s : Scan) : Bool :=
  decide (s.depth ≠ 0)

/-- The place of the cursor. -/
def mark (s : Scan) : Mark :=
  s.cursor.mark

/-- The greatest length of a key that is not marked as one. -/
def maxKeyLength : Nat := 1024

/-- Adds a token. -/
def push (t : Token) (s : Scan) : Scan :=
  { s with held := s.held ++ [t] }

/-- Adds a token that takes no room. -/
def pushHere (kind : TokenKind) (s : Scan) : Scan :=
  s.push ⟨kind, s.mark, s.mark⟩

/-- Adds a token of the given number of characters. -/
def pushMark (kind : TokenKind) (length : Nat) (s : Scan) : Scan :=
  let c := s.cursor.advance length
  { s.push ⟨kind, s.mark, c.mark⟩ with cursor := c }

/-- Adds a token that ends where the given cursor stands. -/
def pushTo (kind : TokenKind) (c : Cursor) (s : Scan) : Scan :=
  { s.push ⟨kind, s.mark, c.mark⟩ with cursor := c }

/-- Drops the possible keys that can no longer become keys. -/
def dropStale (s : Scan) : Except Stop Scan :=
  let stale (k : PossibleKey) : Bool :=
    decide (k.mark.line ≠ s.mark.line) || decide (maxKeyLength < s.mark.index - k.mark.index)
  if s.keys.any fun k => stale k.2 && k.2.required then
    .error (.problem .keyWithoutColon s.mark)
  else .ok { s with keys := s.keys.filter fun k => !stale k.2 }

/-- Drops the possible key of the present depth. -/
def dropKey (s : Scan) : Except Stop Scan :=
  match s.keys.lookup s.depth with
  | none => .ok s
  | some k =>
    if k.required then .error (.problem .keyWithoutColon s.mark)
    else .ok { s with keys := s.keys.filter fun k => decide (k.1 ≠ s.depth) }

/-- The next token may turn out to start a key. -/
def noteKey (s : Scan) : Except Stop Scan :=
  if !s.keyAllowed then .ok s
  else do
    let s ← s.dropKey
    let required := !s.inFlow && decide (s.indent = s.cursor.column)
    return { s with
      keys := (s.depth, ⟨s.given + s.held.length, required, s.mark⟩) :: s.keys }

/-- Ends the collections that are indented further than a column. -/
def unwind (column : Int) (s : Scan) : Scan :=
  if s.inFlow then s else go s.outer s
where
  /-- Ends collections, innermost first, given the columns of those around. -/
  go : List Int → Scan → Scan
    | [], s => s
    | o :: os, s =>
      if column < s.indent then go os { s.pushHere .blockEnd with indent := o, outer := os } else s

/-- Starts a collection at a column, if the text is indented that far: the new state and whether
one starts. -/
def nest (column : Nat) (s : Scan) : Scan × Bool :=
  if s.indent < (column : Int) then
    ({ s with outer := s.indent :: s.outer, indent := column }, true)
  else (s, false)

/-- Starts a collection at the cursor, if the text is indented that far. -/
def nestHere (kind : TokenKind) (s : Scan) : Scan :=
  match s.nest s.cursor.column with
  | (s, true) => s.pushHere kind
  | (s, false) => s

/-- Goes on to the next token over spaces, remarks and line breaks.  After a line break a key may
start. -/
def skipToToken (s : Scan) : Scan :=
  let c := s.cursor
  let c := if c.mark.index = 0 ∧ c.peek = '\ufeff' then c.next else c
  go (c.rest.length + 1) { s with cursor := c }
where
  /-- Goes on over at most the given number of lines. -/
  go : Nat → Scan → Scan
    | 0, s => s
    | fuel + 1, s =>
      let c := s.cursor.skipSpaces.skipRemark
      match c.readBreak with
      | none => { s with cursor := c }
      | some (_, c) => go fuel { s with cursor := c, keyAllowed := s.keyAllowed || !s.inFlow }

/-! ## The kinds of tokens -/

/-- The end of the text. -/
def readEnd (s : Scan) : Except Stop Scan := do
  let s ← (s.unwind (-1)).dropKey
  return { s.pushHere .streamEnd with keyAllowed := false, keys := [], done := true }

/-- A directive. -/
def readDirective (s : Scan) : Except Stop Scan := do
  let s ← (s.unwind (-1)).dropKey
  let (d, stop, c) ← Name.readDirective s.cursor
  return { s.push ⟨.directive d, s.mark, stop⟩ with cursor := c, keyAllowed := false }

/-- The mark at the start or at the end of a document. -/
def readSeparator (kind : TokenKind) (s : Scan) : Except Stop Scan := do
  let s ← (s.unwind (-1)).dropKey
  return { s.pushMark kind 3 with keyAllowed := false }

/-- An opening bracket. -/
def readOpening (kind : TokenKind) (s : Scan) : Except Stop Scan := do
  let s ← s.noteKey
  return { s.pushMark kind 1 with depth := s.depth + 1, keyAllowed := true }

/-- A closing bracket. -/
def readClosing (kind : TokenKind) (s : Scan) : Except Stop Scan := do
  let s ← s.dropKey
  return { s.pushMark kind 1 with depth := s.depth - 1, keyAllowed := false }

/-- A comma. -/
def readComma (s : Scan) : Except Stop Scan := do
  let s ← s.dropKey
  return { s.pushMark .flowEntry 1 with keyAllowed := true }

/-- A dash in front of an entry. -/
def readEntry (s : Scan) : Except Stop Scan := do
  if !s.inFlow && !s.keyAllowed then throw (.problem .entryNotAllowed s.mark)
  let s := if s.inFlow then s else s.nestHere .blockSequenceStart
  let s ← s.dropKey
  return { s.pushMark .blockEntry 1 with keyAllowed := true }

/-- A question mark in front of a key. -/
def readKey (s : Scan) : Except Stop Scan := do
  if !s.inFlow && !s.keyAllowed then throw (.problem .keyNotAllowed s.mark)
  let s := if s.inFlow then s else s.nestHere .blockMappingStart
  let s ← s.dropKey
  return { s.pushMark .key 1 with keyAllowed := !s.inFlow }

/-- Puts a token among those that are held. -/
def insertAt (place : Nat) (t : Token) (s : Scan) : Scan :=
  { s with held := s.held.take place ++ t :: s.held.drop place }

/-- A colon, which may make a key of a token before it. -/
def readValue (s : Scan) : Except Stop Scan := do
  match s.keys.lookup s.depth with
  | some k =>
    let s := { s with keys := s.keys.filter fun k => decide (k.1 ≠ s.depth) }
    let place := k.number - s.given
    let s := s.insertAt place ⟨.key, k.mark, k.mark⟩
    let s :=
      if s.inFlow then s
      else
        match s.nest k.mark.column with
        | (s, true) => s.insertAt place ⟨.blockMappingStart, k.mark, k.mark⟩
        | (s, false) => s
    return { s.pushMark .value 1 with keyAllowed := false }
  | none =>
    if !s.inFlow && !s.keyAllowed then throw (.problem .valueNotAllowed s.mark)
    let s := if s.inFlow then s else s.nestHere .blockMappingStart
    let s ← { s with keyAllowed := !s.inFlow }.dropKey
    return s.pushMark .value 1

/-- An anchor or a reference to one. -/
def readAnchor (kind : String → TokenKind) (s : Scan) : Except Stop Scan := do
  let s ← s.noteKey
  let (name, c) ← Name.readAnchor s.cursor
  return { s.pushTo (kind name) c with keyAllowed := false }

/-- A tag. -/
def readTag (s : Scan) : Except Stop Scan := do
  let s ← s.noteKey
  let (t, c) ← Name.readTag s.cursor
  return { s.pushTo (.tag t) c with keyAllowed := false }

/-- A block of text. -/
def readBlock (folded : Bool) (s : Scan) : Except Stop Scan := do
  let s ← { s with keyAllowed := true }.dropKey
  let (text, c) ← Block.read folded s.indent s.cursor
  return s.pushTo (.scalar false (String.ofList text)) c

/-- A text in quotes. -/
def readQuoted (s : Scan) : Except Stop Scan := do
  let s ← s.noteKey
  let (text, c) ← Quoted.read s.cursor
  return { s.pushTo (.scalar false (String.ofList text)) c with keyAllowed := false }

/-- A plain text. -/
def readPlain (s : Scan) : Except Stop Scan := do
  let s ← s.noteKey
  let r := Plain.read s.inFlow (s.indent + 1) s.cursor
  return { s.push ⟨.scalar true (String.ofList r.text), s.mark, r.stop⟩ with
    cursor := r.after, keyAllowed := r.broken }

/-- A plain text may start here. -/
def atPlain (s : Scan) : Bool :=
  let x := s.cursor.peek
  !(isBlankOrEnd x || "-?:,[]\x7b\x7d#&*!|>'\"%@`".toList.contains x) ||
    (!isBlankOrEnd (s.cursor.peekAt 1) &&
      (decide (x = '-') || (!s.inFlow && (decide (x = '?') || decide (x = ':')))))

/-- The next token. -/
def readToken (s : Scan) : Except Stop Scan :=
  let c := s.cursor
  let x := c.peek
  let blankNext := isBlankOrEnd (c.peekAt 1)
  let atStart := decide (c.column = 0)
  if x = endChar then s.readEnd
  else if x = '%' ∧ atStart then s.readDirective
  else if x = '-' ∧ atStart ∧ c.atSeparator then s.readSeparator .documentStart
  else if x = '.' ∧ atStart ∧ c.atSeparator then s.readSeparator .documentEnd
  else if x = '[' then s.readOpening .flowSequenceStart
  else if x = '\x7b' then s.readOpening .flowMappingStart
  else if x = ']' then s.readClosing .flowSequenceEnd
  else if x = '\x7d' then s.readClosing .flowMappingEnd
  else if x = ',' then s.readComma
  else if x = '-' ∧ blankNext then s.readEntry
  else if x = '?' ∧ (s.inFlow ∨ blankNext) then s.readKey
  else if x = ':' ∧ (s.inFlow ∨ blankNext) then s.readValue
  else if x = '*' then s.readAnchor .alias
  else if x = '&' then s.readAnchor .anchor
  else if x = '!' then s.readTag
  else if x = '|' ∧ !s.inFlow then s.readBlock false
  else if x = '>' ∧ !s.inFlow then s.readBlock true
  else if x = '\'' ∨ x = '"' then s.readQuoted
  else if s.atPlain then s.readPlain
  else .error (.problem .noToken c.mark)

/-- Goes on to the next token and reads it. -/
def step (s : Scan) : Except Stop Scan := do
  let s ← s.skipToToken.dropStale
  (s.unwind s.cursor.column).readToken

/-- The number of characters of the text. -/
def size (s : Scan) : Nat :=
  s.mark.index + s.cursor.rest.length

/-- Goes on to the next token and reads it, unless that leads to the place where the text breaks
off. -/
def advance (cut : Option Cut) (s : Scan) : Except Stop Scan :=
  match cut with
  | none => s.step
  | some c =>
    match s.step with
    | .ok s' => if s'.cursor.rest.isEmpty then .error (.cut c) else .ok s'
    | .error (.problem p m) => .error (if m.index < s.size then .problem p m else .cut c)
    | .error e => .error e

/-- The number of the first token that may turn out to start a key. -/
def firstKey? (s : Scan) : Option Nat :=
  (s.keys.map fun k => k.2.number).min?

/-- Reads on until the first token that is held is certain. -/
def settle (cut : Option Cut) : Nat → Scan → Except Stop Scan
  | 0, s => .ok s
  | fuel + 1, s =>
    if s.done then .ok s
    else if s.held.isEmpty then
      match s.advance cut with
      | .ok s => settle cut fuel s
      | .error e => .error e
    else do
      let s ← s.dropStale
      if s.firstKey? = some s.given then settle cut fuel (← s.advance cut) else return s

/-- The tokens of a text from a state on, and what stops the reading, if anything does.  No more
than `limit` tokens are read to settle one. -/
def tokensFrom (cut : Option Cut) (limit : Nat) : Nat → Scan → List Token × Option Stop
  | 0, _ => ([], none)
  | fuel + 1, s =>
    match s.settle cut limit with
    | .error e => ([], some e)
    | .ok s =>
      match s.held with
      | [] => ([], none)
      | t :: held =>
        let (ts, e) := tokensFrom cut limit fuel { s with held := held, given := s.given + 1 }
        (t :: ts, e)

end Scan

/-- The tokens of a text, and what stops the reading, if anything does. -/
def Token.scan (ex : Excerpt) : List Token × Option Stop :=
  Scan.tokensFrom ex.cut (ex.chars.length + 2) (5 * ex.chars.length + 10) (.start ex.chars)

end LayeredConfig.Yaml
