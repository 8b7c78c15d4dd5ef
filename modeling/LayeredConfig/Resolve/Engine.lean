import LayeredConfig.Resolve.Pass
import LayeredConfig.Text.Blank

/-!
# Substituting placeholders

A text is substituted from the inside out: one pass replaces every innermost
placeholder from left to right, and the result is scanned again until nothing
is left to replace or the passes are used up.  `left` counts the passes that
are left, so every evaluation of a placeholder happens with fewer of them than
the text around it had.

A text that is exactly one placeholder takes the placeholder's value with its
type; otherwise every value becomes part of the text.  A value that a dollar
placeholder finds is already substituted, and what a function returns is
substituted again if it is a text.

What a step may do besides giving a result is left open here: an engine says
how functions are called, how a reference to a container is followed, and what
happens when no pass is left.
-/

namespace LayeredConfig

open Template

/-- The parts of a placeholder's body without the blanks around them. -/
def Template.Placeholder.tokens (p : Placeholder) : List String :=
  (p.body.splitOn ',').map fun cs => String.ofList (Text.trim cs)

/-- The namespace that a placeholder names. -/
def Template.Placeholder.spaceName (p : Placeholder) : String :=
  String.ofList (Text.trim p.space)

/-- The first default that says something, else the undefined value. -/
def firstDefault {α : Type} : List String → Tree α
  | [] => Tree.undefined
  | t :: ts => if t = "" ∨ t = "undefined" then firstDefault ts else .str t

/-- A reference as it is written without defaults. -/
def referenceText (space path : String) : String :=
  "$\x7b" ++ space ++ ":" ++ path ++ "\x7d"

/-- What carries out a substitution in a monad `m` whose results are trees with tags in `α`. -/
structure Engine (m : Type → Type) (α : Type) where
  /-- The namespaces. -/
  registry : Registry
  /-- The answer to a text with placeholders when no pass is left. -/
  exhausted : String → m (Tree α)
  /-- Takes note that no function has the name. -/
  unregistered : String → m Unit
  /-- Calls a function. -/
  apply : FnHandle → List (Tree α) → m (Tree α)
  /-- The value of a reference to a container, given how values are resolved behind it, the passes
  left, where the container stands, the container and the reference as it is written. -/
  container : (Value → m (Tree α)) → Nat → Address → Value → String → m (Tree α)

variable {m : Type → Type} {α φ : Type} [Monad m] [Inhabited α]

mutual

/-- A value with every text in it resolved (`resolve_value`); rows become lists. -/
def resolveWith (text : String → m (Tree α)) : Value → m (Tree α)
  | .atom (.str s) => text s
  | .atom a => pure (.atom a)
  | .list _ items => do return .list default (← resolveItems text items)
  | .tuple items => do return .list default (← resolveItems text items)
  | .map _ es => do return .map default (← resolveEntries text es)
  | .set members => pure (.set members)

/-- Items resolved from first to last. -/
def resolveItems (text : String → m (Tree α)) : List Value → m (List (Tree α))
  | [] => pure []
  | x :: xs => do
    let first ← resolveWith text x
    let rest ← resolveItems text xs
    return first :: rest

/-- The values of entries resolved from first to last. -/
def resolveEntries (text : String → m (Tree α)) :
    List (Key × Value) → m (List (Key × Tree α))
  | [] => pure []
  | (k, v) :: es => do
    let first ← resolveWith text v
    let rest ← resolveEntries text es
    return (k, first) :: rest

end

/-- A text resolved: substituted, and given its type. -/
def resolveText (sub : String → m (Tree α)) (s : String) : m (Tree α) := do
  return coerce (.str s : Value) (← sub s)

namespace Engine

variable [MonadExcept (ResolveError φ) m] (e : Engine m α)

/-- The value of a dollar placeholder (`_lookup`).  A value found wins, unless it is undefined or a
placeholder that resolves to nothing; then the first default counts. -/
def lookup (sub : String → m (Tree α)) (left : Nat) (space path : String)
    (defaults : List String) : m (Tree α) := do
  let found ← ResolveError.ofExcept .index <|
    match e.registry.get? space with
    | some v => Tree.find? path v
    | none => .ok none
  match found with
  | none => return firstDefault defaults
  | some (_, .atom .missing) => return firstDefault defaults
  | some (_, .atom .undefined) => return firstDefault defaults
  | some (_, .atom (.str s)) =>
    if hasPlaceholder s.toList then
      let out ← sub s
      if (coerce (.str s : Value) out).isUndefined then return firstDefault defaults
      else return out
    else return .str s
  | some (_, .atom a) => return .atom a
  | some (_, .set members) => return .set members
  | some (steps, v) =>
    e.container (resolveWith (resolveText sub)) left ⟨space, steps⟩ v (referenceText space path)

/-- An argument of a function (`_resolve_argument`): the value at that path of the definition, else the
word itself. -/
def argument (sub : String → m (Tree α)) (token : String) : m (Tree α) := do
  match ← ResolveError.ofExcept .index (Tree.find? token e.registry.definition) with
  | none => return .str token
  | some (_, .atom .missing) => return .str token
  | some (_, v) => resolveWith (resolveText sub) v

/-- The value of an at placeholder (`_call`). -/
def call (sub : String → m (Tree α)) (space : String) (tokens : List String) : m (Tree α) := do
  match e.registry.get? space with
  | some (.atom (.fn f)) => e.apply f (← tokens.mapM (e.argument sub))
  | _ =>
    e.unregistered space
    return Tree.undefined

/-- The value of a placeholder that holds no other (`_evaluate`). -/
def evaluate (sub : String → m (Tree α)) (left : Nat) (p : Placeholder) : m (Tree α) :=
  match p.sigil with
  | .call => e.call sub p.spaceName p.tokens
  | .lookup => e.lookup sub left p.spaceName (p.tokens.headD "") p.tokens.tail

/-- A piece of a text with its placeholder replaced. -/
def fill (sub : String → m (Tree α)) (left : Nat) : Piece → m (List Char)
  | .char c => pure [c]
  | .hole p => do
    let v ← e.evaluate sub left p
    return (← ResolveError.ofExcept .unwritable (Template.text v)).toList

/-- A text substituted with the given number of passes left (`substitute`). -/
def substitute : Nat → String → m (Tree α)
  | 0, s => if hasPlaceholder s.toList then e.exhausted s else pure (.str s)
  | left + 1, s =>
    let pieces := scan s.toList
    if !pieces.any Piece.isHole then pure (.str s)
    else
      match pieces with
      | [.hole p] => do
        let v ← e.evaluate (substitute left) left p
        match p.sigil, v with
        | .call, .atom (.str t) => substitute left t
        | _, _ => return v
      | _ => do
        let parts ← pieces.mapM (e.fill (substitute left) left)
        substitute left (String.ofList parts.flatten)

/-- A value resolved with the given number of passes left. -/
def resolve (left : Nat) (v : Value) : m (Tree α) :=
  resolveWith (resolveText (e.substitute left)) v

end Engine

end LayeredConfig
