import LayeredConfig.Text.Utf8
import LayeredConfig.Yaml.Token

/-!
# Names: anchors, tags and directives

Anchors are words of Latin letters and digits.  A tag has a handle between
exclamation marks and a rest in which bytes may be written in hexadecimal; it
may also stand in full between angles.
-/

namespace LayeredConfig.Yaml.Name

/-- The character may stand in a name. -/
def isNameChar (x : Char) : Bool :=
  x.isAlphanum || decide (x = '-') || decide (x = '_')

/-- The character may stand in the rest of a tag. -/
def isUriChar (x : Char) : Bool :=
  x.isAlphanum || "-;/?:@&=+$,_.!~*'()[]%".toList.contains x

/-- The name after the mark of an anchor or of a reference to one. -/
def readAnchor (c : Cursor) : Except Stop (String × Cursor) :=
  let (name, c) := c.next.span isNameChar
  let x := c.peek
  if name.isEmpty || !(isBlankOrEnd x || "?:,]\x7d%@`".toList.contains x) then
    .error (.problem .badAnchor c.mark)
  else .ok (String.ofList name, c)

/-- Bytes that are written in hexadecimal, each after a percent sign. -/
def readBytes : Nat → Cursor → Except Stop (List UInt8 × Cursor)
  | 0, c => .ok ([], c)
  | fuel + 1, c =>
    if c.peek ≠ '%' then .ok ([], c)
    else
      let c := c.next
      match (Numeral.digitOf? 16 (c.peekAt 0)).filter (fun _ => (c.peekAt 0).toNat < 128),
          (Numeral.digitOf? 16 (c.peekAt 1)).filter (fun _ => (c.peekAt 1).toNat < 128) with
      | some a, some b => (readBytes fuel (c.advance 2)).map fun (bs, c) =>
        (UInt8.ofNat (16 * a + b) :: bs, c)
      | _, _ => .error (.problem .badTag c.mark)

/-- The characters that written bytes stand for. -/
def readEscapes (c : Cursor) : Except Stop (List Char × Cursor) := do
  let (bytes, after) ← readBytes (c.rest.length + 1) c
  match Text.Utf8.decode bytes with
  | .ok cs => return (cs, after)
  | .error _ => throw (.problem .badTag c.mark)

/-- The rest of a tag, of which at most the given number of parts is read. -/
def readUriParts : Nat → Cursor → Except Stop (List Char × Cursor)
  | 0, c => .ok ([], c)
  | fuel + 1, c => do
    let (front, c) := c.span fun x => isUriChar x && decide (x ≠ '%')
    if c.peek = '%' then
      let (cs, c) ← readEscapes c
      let (more, c) ← readUriParts fuel c
      return (front ++ cs ++ more, c)
    else return (front, c)

/-- The rest of a tag, which is not empty. -/
def readUri (c : Cursor) : Except Stop (String × Cursor) := do
  let (cs, after) ← readUriParts (c.rest.length + 1) c
  if after.mark = c.mark then throw (.problem .badTag c.mark)
  else return (String.ofList cs, after)

/-- The handle of a tag. -/
def readHandle (c : Cursor) : Except Stop (String × Cursor) :=
  if c.peek ≠ '!' then .error (.problem .badTag c.mark)
  else if c.peekAt 1 = ' ' then .ok ("!", c.next)
  else
    let (name, after) := c.next.span isNameChar
    if after.peek ≠ '!' then .error (.problem .badTag after.mark)
    else .ok ("!" ++ String.ofList name ++ "!", after.next)

/-- The tag in front of the cursor. -/
def readTag (c : Cursor) : Except Stop (WrittenTag × Cursor) := do
  let x := c.peekAt 1
  let (tag, c) ←
    if x = '<' then do
      let (suffix, c) ← readUri (c.advance 2)
      if c.peek ≠ '>' then throw (Stop.problem .badTag c.mark)
      pure ((⟨none, suffix⟩ : WrittenTag), c.next)
    else if isBlankOrEnd x then pure (⟨none, "!"⟩, c.next)
    else do
      let word := (c.rest.drop 1).takeWhile fun x => !isSpaceOrEnd x
      let (handle, c) ← if word.contains '!' then readHandle c else pure ("!", c.next)
      let (suffix, c) ← readUri c
      pure (⟨some handle, suffix⟩, c)
  if isSpaceOrEnd c.peek then return (tag, c)
  else throw (.problem .badTag c.mark)

/-- A number of a version. -/
def readVersionNumber (c : Cursor) : Except Stop (Nat × Cursor) :=
  let (digits, after) := c.span Char.isDigit
  if digits.isEmpty then .error (.problem .badDirective c.mark)
  else if NumeralError.maxDigits < digits.length then
    .error (.value (.numeral (.tooLong digits.length)))
  else .ok (Double.digitsNat digits, after)

/-- The version after the name of its directive. -/
def readVersion (c : Cursor) : Except Stop (Directive × Cursor) := do
  let (major, c) ← readVersionNumber c.skipSpaces
  if c.peek ≠ '.' then throw (.problem .badDirective c.mark)
  let (minor, c) ← readVersionNumber c.next
  if isSpaceOrEnd c.peek then return (.version major minor, c)
  else throw (.problem .badDirective c.mark)

/-- The handle after the name of its directive, and what it stands for. -/
def readHandleDirective (c : Cursor) : Except Stop (Directive × Cursor) := do
  let (handle, c) ← readHandle c.skipSpaces
  if c.peek ≠ ' ' then throw (.problem .badDirective c.mark)
  let (expansion, c) ← readUri c.skipSpaces
  if isSpaceOrEnd c.peek then return (.handle handle expansion, c)
  else throw (.problem .badDirective c.mark)

/-- The directive in front of the cursor, and the cursor before the break that ends it. -/
def readDirective (c : Cursor) : Except Stop (Directive × Mark × Cursor) := do
  let (name, c) := c.next.span isNameChar
  if name.isEmpty || !isSpaceOrEnd c.peek then throw (.problem .badDirective c.mark)
  let (d, c) ←
    match String.ofList name with
    | "YAML" => readVersion c
    | "TAG" => readHandleDirective c
    | _ => pure (Directive.other, c.skip fun x => !isBreak x)
  let stop := c.mark
  let c := c.skipSpaces.skipRemark
  if !isBreakOrEnd c.peek then throw (.problem .badDirective c.mark)
  match c.readBreak with
  | some (_, c) => return (d, stop, c)
  | none => return (d, stop, c)

end LayeredConfig.Yaml.Name
