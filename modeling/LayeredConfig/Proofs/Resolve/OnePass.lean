import LayeredConfig.Resolve.Engine

/-!
# One pass over a text

A pass meets one of three kinds of text: one without placeholders, which is left
alone however many passes are left; one that is exactly one placeholder; and any
other, in which every placeholder becomes part of the text.

* `onePass` — a pass over a text with placeholders, whatever evaluates these.
* `Engine.substitute_succ` — substituting a text is one pass over it, and then others.
-/

namespace LayeredConfig

open Template

variable {m : Type → Type} {α φ : Type} [Monad m]

/-- A piece of a text with its placeholder replaced, given how placeholders are evaluated. -/
def fillWith [MonadExcept (ResolveError φ) m] (evaluate : Placeholder → m (Tree α)) :
    Piece → m (List Char)
  | .char c => pure [c]
  | .hole p => do
    let v ← evaluate p
    return (← ResolveError.ofExcept .unwritable (Template.text v)).toList

/-- One pass over a text with placeholders, given how these are evaluated and what becomes of the
text that comes out. -/
def onePass [MonadExcept (ResolveError φ) m] (evaluate : Placeholder → m (Tree α))
    (again : String → m (Tree α)) (s : String) : m (Tree α) :=
  match scan s.toList with
  | [.hole p] => do
    let v ← evaluate p
    match p.sigil, v with
    | .call, .atom (.str t) => again t
    | _, _ => return v
  | pieces => do
    let parts ← pieces.mapM (fillWith evaluate)
    again (String.ofList parts.flatten)

namespace Engine

variable [Inhabited α] [MonadExcept (ResolveError φ) m] (e : Engine m α)

/-- A text without placeholders is left alone. -/
theorem substitute_of_not_hasPlaceholder {s : String} (h : hasPlaceholder s.toList = false)
    (left : Nat) : e.substitute left s = pure (.str s) := by
  have hany : (scan s.toList).any Piece.isHole = false := h
  cases left with
  | zero => simp [substitute, h]
  | succ n => simp [substitute, hany]

/-- A text that comes out as it went in is not taken for a literal. -/
theorem resolveText_of_not_hasPlaceholder [LawfulMonad m] {s : String}
    (h : hasPlaceholder s.toList = false) (left : Nat) :
    resolveText (e.substitute left) s = pure (.str s) := by
  have hself : coerce (.str s : Value) (.str s : Tree α) = .str s := by
    simp [coerce]
  rw [resolveText, e.substitute_of_not_hasPlaceholder h, pure_bind, hself]

/-- Without any pass left, a text with placeholders is at its end. -/
theorem substitute_zero {s : String} (h : hasPlaceholder s.toList = true) :
    e.substitute 0 s = e.exhausted s := by
  simp [substitute, h]

/-- A text that is exactly one placeholder takes its value; what a function says is substituted
again if it is a text. -/
theorem substitute_exact {s : String} {p : Placeholder} (h : scan s.toList = [.hole p])
    (left : Nat) :
    e.substitute (left + 1) s = (do
      let v ← e.evaluate (e.substitute left) left p
      match p.sigil, v with
      | .call, .atom (.str t) => e.substitute left t
      | _, _ => return v) := by
  simp only [substitute, h, List.any_cons, Piece.isHole, Bool.true_or, Bool.not_true]
  rfl

omit [Inhabited α] in
/-- What a function says is taken as it is unless it is a text. -/
theorem again_of_ne_str (sub : String → m (Tree α)) {v : Tree α} (hv : ∀ s, v ≠ .str s) :
    (match Sigil.call, v with
      | .call, .atom (.str t) => sub t
      | _, _ => pure v) = pure v := by
  cases v with
  | atom a =>
    cases a with
    | str s => exact absurd rfl (hv s)
    | _ => rfl
  | _ => rfl

/-- In any other text every placeholder becomes part of the text. -/
theorem substitute_mixed {s : String} (h : hasPlaceholder s.toList = true)
    (hne : ∀ p, scan s.toList ≠ [.hole p]) (left : Nat) :
    e.substitute (left + 1) s = (do
      let parts ← (scan s.toList).mapM (e.fill (e.substitute left) left)
      e.substitute left (String.ofList parts.flatten)) := by
  have hany : (scan s.toList).any Piece.isHole = true := h
  simp only [substitute, hany, Bool.not_true, Bool.false_eq_true, if_false]

/-- Substituting a text with placeholders is one pass over it, with a pass less for all that
follows. -/
theorem substitute_succ {s : String} (h : hasPlaceholder s.toList = true) (left : Nat) :
    e.substitute (left + 1) s =
      onePass (e.evaluate (e.substitute left) left) (e.substitute left) s := by
  by_cases hexact : ∃ p, scan s.toList = [.hole p]
  · obtain ⟨p, hp⟩ := hexact
    rw [e.substitute_exact hp, onePass, hp]
  · have hne : ∀ p, scan s.toList ≠ [.hole p] := fun p hp => hexact ⟨p, hp⟩
    rw [e.substitute_mixed h hne, onePass]
    split
    · rename_i p hp
      exact absurd hp (hne p)
    · rfl

/-- An at placeholder calls the function that has its name, if any. -/
theorem call_cases (sub : String → m (Tree α)) (space : String) (tokens : List String) :
    (∃ f, e.registry.get? space = some (.atom (.fn f)) ∧
      e.call sub space tokens = (do e.apply f (← tokens.mapM (e.argument sub)))) ∨
    (∀ f, e.registry.get? space ≠ some (.atom (.fn f))) ∧
      e.call sub space tokens = (do
        e.unregistered space
        return Tree.undefined) := by
  unfold call
  split
  · rename_i f hf
    exact Or.inl ⟨f, hf, rfl⟩
  · rename_i hne
    exact Or.inr ⟨hne, rfl⟩

end Engine

end LayeredConfig
