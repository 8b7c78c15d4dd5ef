import LayeredConfig.Template.Placeholder

/-!
# Patterns of texts

A pattern says what a text may start with.  Where it leaves a choice, taking more
is tried before taking less: `ways` lists all ways to match, in the order in which
they are tried.  A text is searched from left to right for the first way of each
place, and the search goes on behind what it has found.

The pattern of a placeholder is
`([$@])\{([^{}:$@]*):((?:(?![$@]\{)[^{}])*)\}`: a sign and an opening brace, a
namespace, a colon, a body in which nothing looks like the start of a placeholder,
and a closing brace.
-/

namespace LayeredConfig.Template

/-- What a text may start with. -/
inductive Pattern where
  /-- A character that passes a test. -/
  | one (test : Char → Bool)
  /-- One pattern and then another. -/
  | seq (p q : Pattern)
  /-- A pattern, which takes something, as often as it matches or less often. -/
  | many (p : Pattern)
  /-- A pattern whose text is kept. -/
  | group (p : Pattern)
  /-- Nothing, where a pattern does not match. -/
  | absent (p : Pattern)

/-- A way to match a pattern. -/
structure Way where
  /-- The characters that are taken. -/
  taken : List Char
  /-- The texts that are kept, from left to right. -/
  groups : List (List Char)
  /-- The characters that follow. -/
  rest : List Char

namespace Way

/-- Nothing is taken. -/
def idle (cs : List Char) : Way :=
  ⟨[], [], cs⟩

/-- One way, and another from where the first one ends. -/
def andThen (w v : Way) : Way :=
  ⟨w.taken ++ v.taken, w.groups ++ v.groups, v.rest⟩

end Way

namespace Pattern

/-- The ways to repeat a step, so many times at most, of which those with more steps come first. -/
def repeated (step : List Char → List Way) : Nat → List Char → List Way
  | 0, cs => [.idle cs]
  | n + 1, cs =>
    ((step cs).flatMap fun w => (repeated step n w.rest).map w.andThen) ++ [.idle cs]

/-- The ways to match what a text starts with, in the order in which they are tried. -/
def ways : Pattern → List Char → List Way
  | one _, [] => []
  | one test, c :: cs => if test c then [⟨[c], [], cs⟩] else []
  | seq p q, cs => (p.ways cs).flatMap fun w => (q.ways w.rest).map w.andThen
  | many p, cs => repeated p.ways cs.length cs
  | group p, cs => (p.ways cs).map fun w => { w with groups := w.taken :: w.groups }
  | absent p, cs => if (p.ways cs).isEmpty then [.idle cs] else []

/-- A match in a text. -/
structure Hit where
  /-- The number of characters before it. -/
  start : Nat
  /-- The number of characters up to its end. -/
  stop : Nat
  /-- The texts that are kept. -/
  groups : List (List Char)
deriving DecidableEq

/-- The matches in a text that starts at the given place, of which the given number of characters
is still part of the match before. -/
def hitsFrom (p : Pattern) : Nat → Nat → List Char → List Hit
  | _, _, [] => []
  | n, skip + 1, _ :: cs => hitsFrom p (n + 1) skip cs
  | n, 0, c :: cs =>
    match (p.ways (c :: cs)).head? with
    | some w =>
      ⟨n, n + w.taken.length, w.groups⟩ :: hitsFrom p (n + 1) (w.taken.length - 1) cs
    | none => hitsFrom p (n + 1) 0 cs

/-- The matches in a text from left to right. -/
def hits (p : Pattern) (cs : List Char) : List Hit :=
  p.hitsFrom 0 0 cs

end Pattern

open Pattern

/-- A sign that starts a placeholder. -/
def signPattern : Pattern :=
  one fun c => (Sigil.ofChar? c).isSome

/-- A character that may stand in a body, and with which no placeholder seems to start. -/
def bodyPattern : Pattern :=
  seq (absent (seq signPattern (one (· == '{')))) (one isBodyChar)

/-- A placeholder, of which the sign, the namespace and the body are kept (`PLACEHOLDER_PATTERN`). -/
def placeholderPattern : Pattern :=
  seq (group signPattern) (seq (one (· == '{')) (seq (group (many (one isSpaceChar)))
    (seq (one (· == ':')) (seq (group (many bodyPattern)) (one (· == '}'))))))

end LayeredConfig.Template
