import LayeredConfig.Proofs.Path.Places
import LayeredConfig.Proofs.Value.Tags
import LayeredConfig.Resolve.Resolver
import Mathlib.Data.Finset.Insert

/-!
# Resolving without a cache

A reference means something by itself if functions compute: if what they answer
depends on their arguments alone.  The direct engine follows every reference to a
container anew and has no state; it only knows which containers are being
resolved further up.

* `Host.Computes` — the functions compute.
* `Resolver.direct` — the engine without a cache.
-/

namespace LayeredConfig

variable {σ φ : Type}

/-- What the functions answer, or why they fail, depends on their arguments alone. -/
def Host.Computes (h : Host σ φ) (answer : FnHandle → List Value → Except φ Value) : Prop :=
  ∀ f args m, (h.call f args m).2.map Tree.erase = answer f (args.map Tree.erase)

/-- Functions that answer as told and count their calls. -/
def Host.ofAnswer (answer : FnHandle → List Value → Except φ Value) : Host Nat φ where
  call f args calls := (calls + 1, (answer f (args.map Tree.erase)).map Tree.unmarked)
  revise _ calls := calls

/-- What the functions count does not show in their answers. -/
theorem Host.computes_ofAnswer (answer : FnHandle → List Value → Except φ Value) :
    (Host.ofAnswer answer).Computes answer := by
  intro f args calls
  show ((answer f (args.map Tree.erase)).map Tree.unmarked).map Tree.erase = _
  cases answer f (args.map Tree.erase) with
  | ok v => exact congrArg Except.ok (Tree.erase_unmarked v)
  | error e => rfl

/-- A step that reads which containers are being resolved further up. -/
abbrev Below (φ β : Type) := ReaderT (Finset Address) (Except (ResolveError φ)) β

namespace Below

variable {β γ : Type}

theorem run_pure (b : β) (above : Finset Address) : (pure b : Below φ β) above = .ok b := rfl

theorem run_throw (e : ResolveError φ) (above : Finset Address) :
    (MonadExcept.throw e : Below φ β) above = .error e := rfl

theorem run_bind (d : Below φ β) (f : β → Below φ γ) (above : Finset Address) :
    (d >>= f) above = match d above with
      | .ok b => f b above
      | .error e => .error e := by
  change (d above >>= fun b => f b above) = _
  cases d above <;> rfl

/-- A result of two steps is one of the second after a result of the first. -/
theorem exists_of_bind {d : Below φ β} {f : β → Below φ γ} {above : Finset Address} {c : γ}
    (h : (d >>= f) above = .ok c) : ∃ b, d above = .ok b ∧ f b above = .ok c := by
  rw [run_bind] at h
  cases hd : d above with
  | error e =>
    rw [hd] at h
    cases h
  | ok b =>
    rw [hd] at h
    exact ⟨b, rfl, h⟩

/-- A result taken over is there only if it was there. -/
theorem exists_of_ofExcept {ε : Type} {wrap : ε → ResolveError φ} {x : Except ε β}
    {above : Finset Address} {b : β}
    (h : (ResolveError.ofExcept wrap x : Below φ β) above = .ok b) : x = .ok b := by
  cases x with
  | error e => cases h
  | ok c =>
    cases h
    rfl

/-- Inside a container, it is one of those being resolved further up. -/
def inside (a : Address) (d : Below φ β) : Below φ β :=
  fun above => d (insert a above)

end Below

namespace Resolver

variable (r : Resolver σ φ) (answer : FnHandle → List Value → Except φ Value)

/-- The answer to a text when no pass is left. -/
def directExhausted (s : String) : Below φ Value :=
  if r.strict then throw (.depth s r.maxDepth) else pure (.str s)

/-- A container, resolved anew unless it refers back to one further up. -/
def directContainer (resolve : Value → Below φ Value) (a : Address) (v : Value)
    (reference : String) : Below φ Value := do
  if a ∈ (← read) then
    if r.strict then throw (.depth reference r.maxDepth) else return v.copy
  else Below.inside a (resolve v)

/-- The resolver as an engine without a state, given what the functions answer. -/
def direct : Engine (Below φ) Unit where
  registry := r.registry
  exhausted := r.directExhausted
  unregistered _ := pure ()
  apply f args := ResolveError.ofExcept .fault (answer f args)
  container resolve _ a v reference := r.directContainer resolve a v reference

/-- The value of a reference to a container depends on what stands further up only in so far as it
is not resolved again. -/
theorem run_directContainer (resolve : Value → Below φ Value) (a : Address) (v : Value)
    (reference : String) (above : Finset Address) :
    r.directContainer resolve a v reference above =
      if a ∈ above then
        if r.strict then .error (.depth reference r.maxDepth) else .ok v.copy
      else resolve v (insert a above) := by
  unfold directContainer
  rw [Below.run_bind]
  change (if a ∈ above then _ else _ : Below φ Value) above = _
  split
  · split <;> rfl
  · rfl

end Resolver

end LayeredConfig
