import LayeredConfig.Proofs.Value.Tags

/-!
# What JSON makes of a tree

The JSON text of a tree is a row of parts: texts, which stand in quotes, and between
them the marks, the words and the numbers.  Some scalars and keys have no written form.
A tree is written from left to right, each key before what it leads to, and the first of
these that is met is the error.

* `Json.Token` — a part of a JSON text, and `Json.tokens` those of a tree.
* `Json.faults` — what in a tree has no written form.
* `Json.chars?_eq` — the text of a tree, or its first fault.
* `Json.exists_chars_iff` — a tree has a JSON text if it has no faults.
-/

namespace LayeredConfig.Json

variable {α : Type}

/-! ## Parts of a JSON text -/

/-- A part of a JSON text. -/
inductive Token where
  /-- A text, which is written in quotes. -/
  | text (cs : List Char)
  /-- A mark, a word or a number, which is written as it is. -/
  | mark (cs : List Char)

/-- The part as it is written. -/
def Token.chars : Token → List Char
  | text cs => quote cs
  | mark cs => cs

/-- A scalar as a part.  What JSON does not know becomes a text. -/
def atomToken : Atom → Token
  | .null => .mark "null".toList
  | .bool b => .mark (if b then "true" else "false").toList
  | .int n => .mark (toString n).toList
  | .float x => .mark (floatText x).toList
  | a => .text a.text.toList

theorem chars_atomToken (a : Atom) : (atomToken a).chars = atomText a := by
  cases a <;> rfl

/-- The text that JSON makes of a key. -/
def keyName : Key → String
  | .atom .null => "null"
  | .atom (.bool b) => if b then "true" else "false"
  | .atom (.float x) => floatText x
  | k => k.text

mutual

/-- The parts of the JSON text of a tree. -/
def tokens : Tree α → List Token
  | .atom a => [atomToken a]
  | .list _ items => .mark ['['] :: (itemTokens items ++ [.mark [']']])
  | .tuple items => .mark ['['] :: (itemTokens items ++ [.mark [']']])
  | .map _ es => .mark ['{'] :: (entryTokens es ++ [.mark ['}']])
  | .set members => [.text (setText members).toList]

/-- The parts of items, with commas between these. -/
def itemTokens : List (Tree α) → List Token
  | [] => []
  | [x] => tokens x
  | x :: xs => tokens x ++ .mark [',', ' '] :: itemTokens xs

/-- The parts of entries, with commas between these. -/
def entryTokens : List (Key × Tree α) → List Token
  | [] => []
  | [(k, v)] => .text (keyName k).toList :: .mark [':', ' '] :: tokens v
  | (k, v) :: es =>
    .text (keyName k).toList :: .mark [':', ' '] ::
      (tokens v ++ .mark [',', ' '] :: entryTokens es)

end

theorem itemTokens_cons (x y : Tree α) (ys : List (Tree α)) :
    itemTokens (x :: y :: ys) = tokens x ++ .mark [',', ' '] :: itemTokens (y :: ys) := by
  rw [itemTokens]
  simp

theorem entryTokens_cons (k : Key) (v : Tree α) (e : Key × Tree α) (es : List (Key × Tree α)) :
    entryTokens ((k, v) :: e :: es) =
      .text (keyName k).toList :: .mark [':', ' '] ::
        (tokens v ++ .mark [',', ' '] :: entryTokens (e :: es)) := by
  rw [entryTokens]
  simp

/-! ## What has no written form -/

/-- A scalar has one unless it is a number with too many digits. -/
def atomFaults (a : Atom) : List Unwritable :=
  if a.isWritable then [] else [.number]

/-- A key has one if it is a text, null, a truth value or a number, and no number with too many
digits. -/
def keyFaults : Key → List Unwritable
  | .atom (.str _) => []
  | .atom .null => []
  | .atom (.bool _) => []
  | .atom (.int n) => atomFaults (.int n)
  | .atom (.float _) => []
  | k => [.key k.qualifiedTypeName]

/-- A set is shown with all its members. -/
def setFaults (members : List Key) : List Unwritable :=
  if Key.areWritable members then [] else [.number]

mutual

/-- What in a tree has no written form, in the order in which the tree is written. -/
def faults : Tree α → List Unwritable
  | .atom a => atomFaults a
  | .list _ items => itemFaults items
  | .tuple items => itemFaults items
  | .map _ es => entryFaults es
  | .set members => setFaults members

/-- What in items has no written form. -/
def itemFaults : List (Tree α) → List Unwritable
  | [] => []
  | x :: xs => faults x ++ itemFaults xs

/-- What in entries has no written form: each key comes before its value. -/
def entryFaults : List (Key × Tree α) → List Unwritable
  | [] => []
  | (k, v) :: es => keyFaults k ++ (faults v ++ entryFaults es)

end

/-- The first fault is the error. -/
def check : List Unwritable → Except Unwritable Unit
  | [] => .ok ()
  | e :: _ => .error e

theorem check_append (es fs : List Unwritable) :
    check (es ++ fs) = (do check es; check fs) := by
  cases es <;> rfl

theorem check_eq_ok_iff {es : List Unwritable} : check es = .ok () ↔ es = [] := by
  cases es <;> simp [check]

theorem atomText?_eq (a : Atom) :
    atomText? a = (check (atomFaults a)).map fun _ => (atomToken a).chars := by
  rw [atomText?, atomFaults, chars_atomToken]
  cases a.isWritable <;> rfl

theorem keyText?_eq (k : Key) :
    keyText? k = (check (keyFaults k)).map fun _ => (Token.text (keyName k).toList).chars := by
  cases k with
  | atom a =>
    cases a with
    | int n =>
      have hwritable : (Atom.int n).isWritable = Numeral.isWritable n := rfl
      rw [keyText?, keyFaults, atomFaults, hwritable]
      cases Numeral.isWritable n <;> rfl
    | _ => rfl
  | tuple ks => rfl

theorem setText?_eq (members : List Key) :
    setText? members = (check (setFaults members)).map fun _ => setText members := by
  rw [setText?, setFaults]
  cases Key.areWritable members <;> rfl

/-! ## The text of a tree -/

/-- Parts one after the other. -/
def written (ts : List Token) : List Char :=
  ts.flatMap Token.chars

mutual

/-- A tree is written part by part, if nothing in it is without a written form. -/
theorem chars?_eq : (t : Tree α) →
    chars? t = (check (faults t)).map fun _ => written (tokens t)
  | .atom a => by
    rw [chars?, atomText?_eq, faults, tokens]
    simp [written]
  | .list _ items => by
    rw [chars?, itemChars?_eq items, faults, tokens]
    cases check (itemFaults items) <;> simp [written, Token.chars] <;> rfl
  | .tuple items => by
    rw [chars?, itemChars?_eq items, faults, tokens]
    cases check (itemFaults items) <;> simp [written, Token.chars] <;> rfl
  | .map _ es => by
    rw [chars?, entryChars?_eq es, faults, tokens]
    cases check (entryFaults es) <;> simp [written, Token.chars] <;> rfl
  | .set members => by
    rw [chars?, setText?_eq, faults, tokens]
    cases check (setFaults members) <;> simp [written, Token.chars, quoteText, Except.map]

theorem itemChars?_eq : (items : List (Tree α)) →
    itemChars? items = (check (itemFaults items)).map fun _ => written (itemTokens items)
  | [] => rfl
  | [x] => by
    rw [itemChars?, chars?_eq x, itemFaults, itemFaults, List.append_nil, itemTokens]
  | x :: y :: ys => by
    have hfaults : itemFaults (x :: y :: ys) = faults x ++ itemFaults (y :: ys) := rfl
    rw [itemChars?_cons, chars?_eq x, itemChars?_eq (y :: ys), itemTokens_cons, hfaults,
      check_append]
    cases check (faults x) <;> cases check (itemFaults (y :: ys)) <;>
      simp [written, Token.chars] <;> rfl

theorem entryChars?_eq : (es : List (Key × Tree α)) →
    entryChars? es = (check (entryFaults es)).map fun _ => written (entryTokens es)
  | [] => rfl
  | [(k, v)] => by
    rw [entryChars?, chars?_eq v, keyText?_eq, entryFaults, entryFaults, List.append_nil,
      check_append, entryTokens]
    cases check (keyFaults k) <;> cases check (faults v) <;> simp [written, Token.chars] <;> rfl
  | (k, v) :: e :: es => by
    have hfaults : entryFaults ((k, v) :: e :: es) =
      keyFaults k ++ (faults v ++ entryFaults (e :: es)) := rfl
    rw [entryChars?_cons, chars?_eq v, entryChars?_eq (e :: es), keyText?_eq, entryTokens_cons,
      hfaults, check_append, check_append]
    cases check (keyFaults k) <;> cases check (faults v) <;>
      cases check (entryFaults (e :: es)) <;> simp [written, Token.chars] <;> rfl

end

/-- A tree has a JSON text if and only if it has no faults. -/
theorem exists_chars_iff {t : Tree α} : (∃ cs, chars? t = .ok cs) ↔ faults t = [] := by
  rw [← check_eq_ok_iff, chars?_eq]
  cases check (faults t) <;> simp [Except.map]

end LayeredConfig.Json
