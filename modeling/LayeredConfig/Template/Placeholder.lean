/-!
# Placeholders in a text

A placeholder is a dollar or an at sign, then in braces a namespace, a colon
and a body.  The namespace holds no brace, colon or sign, the body no brace, so
that a placeholder found in a text holds no other one: of nested placeholders
only the innermost are found.  `scan` cuts a text into placeholders and single
characters that belong to none, and nothing of the text is lost (`chars_scan`).
-/

namespace LayeredConfig.Template

/-- What a placeholder asks for. -/
inductive Sigil where
  /-- A dollar: the value at a path. -/
  | lookup
  /-- An at sign: the result of a function. -/
  | call
deriving DecidableEq, Inhabited

namespace Sigil

/-- The sign of a placeholder. -/
def char : Sigil → Char
  | lookup => '$'
  | call => '@'

/-- The sigil that a character stands for. -/
def ofChar? (c : Char) : Option Sigil :=
  if c = '$' then some lookup else if c = '@' then some call else none

end Sigil

/-- A placeholder by its parts, blanks included. -/
structure Placeholder where
  /-- What it asks for. -/
  sigil : Sigil
  /-- All up to the colon. -/
  space : List Char
  /-- All between the colon and the closing brace. -/
  body : List Char
deriving DecidableEq, Inhabited

/-- The placeholder as it is written. -/
def Placeholder.chars (p : Placeholder) : List Char :=
  p.sigil.char :: '{' :: (p.space ++ ':' :: (p.body ++ ['}']))

/-- The character may stand in a namespace. -/
def isSpaceChar (c : Char) : Bool :=
  decide (c ≠ '{') && decide (c ≠ '}') && decide (c ≠ ':') && decide (c ≠ '$') && decide (c ≠ '@')

/-- The character may stand in a body. -/
def isBodyChar (c : Char) : Bool :=
  decide (c ≠ '{') && decide (c ≠ '}')

/-- The body that a text starts with, up to its closing brace. -/
def bodyAt? (cs : List Char) : Option (List Char) :=
  match cs.dropWhile isBodyChar with
  | '}' :: _ => some (cs.takeWhile isBodyChar)
  | _ => none

/-- The placeholder that a text starts with. -/
def placeholderAt? : List Char → Option Placeholder
  | c :: '{' :: rest =>
    match Sigil.ofChar? c, rest.dropWhile isSpaceChar with
    | some sigil, ':' :: rest' =>
      (bodyAt? rest').map fun body => ⟨sigil, rest.takeWhile isSpaceChar, body⟩
    | _, _ => none
  | _ => none

/-- A part of a text. -/
inductive Piece where
  /-- A character that stands for itself. -/
  | char (c : Char)
  /-- A placeholder. -/
  | hole (p : Placeholder)
deriving DecidableEq, Inhabited

/-- The pieces of a text, of which the given number of characters is still part of the
placeholder before. -/
def scanFrom : Nat → List Char → List Piece
  | _, [] => []
  | skip + 1, _ :: cs => scanFrom skip cs
  | 0, c :: cs =>
    match placeholderAt? (c :: cs) with
    | some p => .hole p :: scanFrom (p.chars.length - 1) cs
    | none => .char c :: scanFrom 0 cs

/-- The pieces of a text. -/
def scan (cs : List Char) : List Piece :=
  scanFrom 0 cs

/-- The piece is a placeholder. -/
def Piece.isHole : Piece → Bool
  | char _ => false
  | hole _ => true

/-- Some part of the text is a placeholder (`has_placeholder`). -/
def hasPlaceholder (cs : List Char) : Bool :=
  (scan cs).any Piece.isHole

/-- A placeholder with the places where it starts and where it ends. -/
structure Span where
  /-- The number of characters before it. -/
  start : Nat
  /-- The number of characters up to its end. -/
  stop : Nat
  /-- The placeholder. -/
  placeholder : Placeholder
deriving DecidableEq

/-- The placeholders of pieces that start at the given place. -/
def spansFrom : Nat → List Piece → List Span
  | _, [] => []
  | n, .char _ :: ps => spansFrom (n + 1) ps
  | n, .hole p :: ps =>
    let stop := n + p.chars.length
    ⟨n, stop, p⟩ :: spansFrom stop ps

/-- The placeholders of a text from left to right. -/
def spans (cs : List Char) : List Span :=
  spansFrom 0 (scan cs)

/-! ## Nothing of a text is lost -/

/-- A sigil is written as the character that stands for it. -/
theorem Sigil.char_ofChar? {c : Char} {s : Sigil} (h : Sigil.ofChar? c = some s) : s.char = c := by
  unfold Sigil.ofChar? at h
  split at h
  · cases h; simp_all [Sigil.char]
  · split at h
    · cases h; simp_all [Sigil.char]
    · cases h

/-- A text with a body in front is the body, a closing brace and a rest. -/
theorem bodyAt?_eq {cs body : List Char} (h : bodyAt? cs = some body) :
    ∃ rest, cs = body ++ '}' :: rest := by
  unfold bodyAt? at h
  split at h
  · rename_i rest hd
    cases h
    exact ⟨rest, by rw [← hd, List.takeWhile_append_dropWhile]⟩
  · cases h

/-- A text with a placeholder in front is the placeholder as it is written and a rest. -/
theorem placeholderAt?_eq {cs : List Char} {p : Placeholder} (h : placeholderAt? cs = some p) :
    ∃ rest, cs = p.chars ++ rest := by
  unfold placeholderAt? at h
  split at h
  · rename_i c rest
    split at h
    · rename_i sigil rest' hs hd
      obtain ⟨body, hb, rfl⟩ := Option.map_eq_some_iff.1 h
      obtain ⟨tail, ht⟩ := bodyAt?_eq hb
      refine ⟨tail, ?_⟩
      have := List.takeWhile_append_dropWhile (p := isSpaceChar) (l := rest)
      rw [hd, ht] at this
      simp only [Placeholder.chars, Sigil.char_ofChar? hs, List.cons_append, List.append_assoc,
        List.nil_append]
      exact congrArg (fun l => c :: '{' :: l) this.symm
    · cases h
  · cases h

/-- The characters of a piece. -/
def Piece.chars : Piece → List Char
  | char c => [c]
  | hole p => p.chars

/-- The pieces of a text are what is left of it after the characters that are skipped. -/
theorem chars_scanFrom (skip : Nat) (cs : List Char) :
    (scanFrom skip cs).flatMap Piece.chars = cs.drop skip := by
  induction cs generalizing skip with
  | nil => cases skip <;> simp [scanFrom]
  | cons c cs ih =>
    cases skip with
    | succ n => simp [scanFrom, ih]
    | zero =>
      simp only [scanFrom]
      split
      · rename_i p h
        obtain ⟨rest, hr⟩ := placeholderAt?_eq h
        simp only [List.flatMap_cons, ih, Piece.chars, List.drop_zero]
        have hl : cs.drop (p.chars.length - 1) = (c :: cs).drop p.chars.length := by
          have : p.chars.length = (p.chars.length - 1) + 1 := by simp [Placeholder.chars]
          conv => rhs; rw [this, List.drop_succ_cons]
        rw [hl, hr]
        simp
      · simp [ih, Piece.chars]

/-- The pieces of a text make up the text. -/
theorem chars_scan (cs : List Char) : (scan cs).flatMap Piece.chars = cs := by
  simp [scan, chars_scanFrom]

end LayeredConfig.Template
