import LayeredConfig.Number.Numeral
import Mathlib.Data.List.TakeWhile

/-!
# How readers end

A reader of a text gives a value or stops with an error.  What is told of both is put
together from the steps of the reader, which may pass on a state.

* `Ends` — what a value is, and what an error.
* `Ends.bind` — two steps in a row.
* `Maintains`, `Maintains.bind` — the same for steps that pass on a state.
* `NumeralError.TooLongIn` — more digits than may be read stand in a text.
-/

namespace LayeredConfig

section Ends

variable {ε α β : Type} {E : ε → Prop} {P Q : α → Prop} {R : β → Prop}

/-- A value is as told, and so is an error. -/
def Ends (E : ε → Prop) (Q : α → Prop) : Except ε α → Prop
  | .ok a => Q a
  | .error e => E e

theorem ends_pure {a : α} (h : Q a) : Ends E Q (pure a : Except ε α) :=
  h

theorem ends_throw {e : ε} (h : E e) : Ends E Q (throw e : Except ε α) :=
  h

namespace Ends

variable {x : Except ε α}

/-- Less may be told of the value. -/
theorem mono (h : Ends E P x) (hPQ : ∀ a, P a → Q a) : Ends E Q x := by
  cases x with
  | ok a => exact hPQ a h
  | error e => exact h

/-- What follows a step starts from a value as told. -/
theorem bind {f : α → Except ε β} (h : Ends E Q x) (hf : ∀ a, Q a → Ends E R (f a)) :
    Ends E R (x >>= f) := by
  cases x with
  | ok a => exact hf a h
  | error e => exact h

theorem map {f : α → β} (h : Ends E Q x) (hf : ∀ a, Q a → R (f a)) : Ends E R (x.map f) := by
  cases x with
  | ok a => exact hf a h
  | error e => exact h

theorem mapError {ε' : Type} {E' : ε' → Prop} {g : ε → ε'} (h : Ends E Q x)
    (hg : ∀ e, E e → E' (g e)) : Ends E' Q (x.mapError g) := by
  cases x with
  | ok a => exact h
  | error e => exact hg e h

theorem ite {c : Prop} [Decidable c] {y : Except ε α} (hx : Ends E Q x) (hy : Ends E Q y) :
    Ends E Q (if c then x else y) := by
  split
  · exact hx
  · exact hy

theorem of_eq_error {e : ε} (h : Ends E Q x) (hx : x = .error e) : E e := by
  rw [hx] at h
  exact h

theorem of_eq_ok {a : α} (h : Ends E Q x) (hx : x = .ok a) : Q a := by
  rw [hx] at h
  exact h

end Ends

end Ends

/-! ## Readers with a state -/

section Maintains

variable {ε σ α β : Type} {E : ε → Prop} {I : σ → Prop} {P Q : α → Prop} {R : β → Prop}
  {x : StateT σ (Except ε) α}

/-- From a state as told the reader gets to such a state and to a value as told, or to an error as
told. -/
def Maintains (E : ε → Prop) (I : σ → Prop) (Q : α → Prop) (x : StateT σ (Except ε) α) : Prop :=
  ∀ s, I s → Ends E (fun r => Q r.1 ∧ I r.2) (x.run s)

theorem maintains_pure {a : α} (h : Q a) : Maintains E I Q (pure a) :=
  fun _ hs => ends_pure ⟨h, hs⟩

theorem maintains_throw {e : ε} (h : E e) : Maintains E I Q (throw e) :=
  fun _ _ => ends_throw h

theorem maintains_get : Maintains E I I (get : StateT σ (Except ε) σ) :=
  fun _ hs => ends_pure ⟨hs, hs⟩

theorem maintains_modify {f : σ → σ} (h : ∀ s, I s → I (f s)) :
    Maintains E I (fun _ => True) (modify f : StateT σ (Except ε) Unit) :=
  fun s hs => ends_pure ⟨trivial, h s hs⟩

namespace Maintains

theorem mono (h : Maintains E I P x) (hPQ : ∀ a, P a → Q a) : Maintains E I Q x :=
  fun s hs => (h s hs).mono fun _ hr => ⟨hPQ _ hr.1, hr.2⟩

/-- What follows a reader starts from a value as told. -/
theorem bind {f : α → StateT σ (Except ε) β} (h : Maintains E I Q x)
    (hf : ∀ a, Q a → Maintains E I R (f a)) : Maintains E I R (x >>= f) := by
  intro s hs
  rw [StateT.run_bind]
  exact (h s hs).bind fun r hr => hf r.1 hr.1 r.2 hr.2

theorem ite {c : Prop} [Decidable c] {y : StateT σ (Except ε) α} (hx : Maintains E I Q x)
    (hy : Maintains E I Q y) : Maintains E I Q (if c then x else y) := by
  split
  · exact hx
  · exact hy

theorem forM {items : List β} {f : β → StateT σ (Except ε) PUnit}
    (h : ∀ b, Maintains E I (fun _ => True) (f b)) :
    Maintains E I (fun _ => True) (items.forM f) := by
  induction items with
  | nil => exact maintains_pure trivial
  | cons b items ih => exact (h b).bind fun _ _ => ih

theorem forIn {items : List β} {f : β → StateT σ (Except ε) PUnit}
    (h : ∀ b, Maintains E I (fun _ => True) (f b)) :
    Maintains E I (fun _ => True) (ForIn.forIn items PUnit.unit fun b _ => do
      f b
      return ForInStep.yield PUnit.unit) := by
  induction items with
  | nil => exact maintains_pure trivial
  | cons b items ih =>
    rw [List.forIn_cons, bind_assoc]
    refine (h b).bind fun _ _ => ?_
    rw [pure_bind]
    exact ih

theorem mapM {items : List β} {f : β → StateT σ (Except ε) α} (h : ∀ b, Maintains E I Q (f b)) :
    Maintains E I (fun _ => True) (items.mapM f) := by
  induction items with
  | nil => exact maintains_pure trivial
  | cons b items ih =>
    rw [List.mapM_cons]
    exact (h b).bind fun _ _ => ih.bind fun _ _ => maintains_pure trivial

end Maintains

end Maintains

/-- More digits than may be read stand in a row in the text, and the error tells how many. -/
def NumeralError.TooLongIn (cs : List Char) (e : NumeralError) : Prop :=
  ∃ digits, digits <:+: cs ∧ (∀ d ∈ digits, d.isDigit = true) ∧
    NumeralError.maxDigits < digits.length ∧ e = .tooLong digits.length

end LayeredConfig
