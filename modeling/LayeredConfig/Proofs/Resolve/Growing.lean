import LayeredConfig.Proofs.Resolve.Runs

/-!
# Numbers only grow

The results of references are numbered one after the other, so the number of the
next one never falls, whatever is resolved.  To have this at hand wherever a run
goes on, it is made part of the steps: a growing run is a run with the fact that
numbers do not fall in it, and the engine of a resolver does nothing but growing
runs.

* `Run.Grows`, `Growing` — runs in which numbers only grow.
* `Resolver.growing` — the engine of a resolver, in growing runs.
* `Resolver.run_resolve_growing` — it is the same engine.
-/

namespace LayeredConfig

variable {σ φ β γ : Type}

namespace Run

/-- The number of the next result does not fall in the run. -/
def Grows (x : Run σ φ β) : Prop :=
  ∀ s, s.fresh ≤ (x.run s).2.fresh

theorem grows_pure (b : β) : (pure b : Run σ φ β).Grows :=
  fun _ => Nat.le_refl _

theorem grows_throw (e : ResolveError φ) : (throw e : Run σ φ β).Grows :=
  fun _ => Nat.le_refl _

theorem grows_report (e : LogEntry) : (report e : Run σ φ Unit).Grows :=
  fun _ => Nat.le_refl _

theorem grows_bind {x : Run σ φ β} {f : β → Run σ φ γ} (hx : x.Grows) (hf : ∀ b, (f b).Grows) :
    (x >>= f).Grows := by
  intro s
  have h := hx s
  rw [run_bind]
  generalize x.run s = xs at h ⊢
  obtain ⟨e | b, t⟩ := xs
  · exact h
  · exact Nat.le_trans h (hf b t)

theorem grows_withActive (a : Address) {x : Run σ φ β} (hx : x.Grows) : (withActive a x).Grows :=
  fun s => hx { s with active := a :: s.active }

theorem grows_withCache {x : Run σ φ β} (hx : x.Grows) : (withCache x).Grows :=
  fun s => hx { s with cache := some [] }

end Run

/-- A run in which the number of the next result does not fall. -/
structure Growing (σ φ β : Type) where
  /-- The run. -/
  run : Run σ φ β
  /-- The number of the next result does not fall in it. -/
  grows : run.Grows

namespace Growing

instance : Monad (Growing σ φ) where
  pure b := ⟨pure b, Run.grows_pure b⟩
  bind x f := ⟨x.run >>= fun b => (f b).run, Run.grows_bind x.grows fun b => (f b).grows⟩

/-- A run that goes on after an error grows if what it goes on with does. -/
theorem grows_tryCatch (x : Growing σ φ β) (f : ResolveError φ → Growing σ φ β) :
    (tryCatch x.run fun e => (f e).run : Run σ φ β).Grows := by
  intro s
  have h : s.fresh ≤ (x.run s).2.fresh := x.grows s
  change s.fresh ≤ ((ExceptT.tryCatch x.run fun e => (f e).run).run s).2.fresh
  unfold ExceptT.tryCatch
  rw [ExceptT.run_mk]
  rcases hx : x.run s with ⟨e | b, t⟩ <;> rw [hx] at h <;>
    simp only [bind, StateT.bind, hx]
  · exact Nat.le_trans h ((f e).grows t)
  · exact h

instance : MonadExcept (ResolveError φ) (Growing σ φ) where
  throw e := ⟨throw e, Run.grows_throw e⟩
  tryCatch x f := ⟨tryCatch x.run fun e => (f e).run, grows_tryCatch x f⟩

/-- A run and a growing run that end alike from every state. -/
def same : Relator (Run σ φ) (Growing σ φ) where
  rel Q x y := (Run.sideBySide Eq fun _ => False).rel Q x y.run
  rel_pure hQ := Relator.rel_pure _ hQ
  rel_bind hx hf := Relator.rel_bind _ hx hf
  rel_mono hQ hx := Relator.rel_mono _ hQ hx

theorem rel_same_run (y : Growing σ φ β) : same.rel Eq y.run y := by
  rintro s _ rfl
  rcases y.run.run s with ⟨_ | b, t⟩
  · exact .error rfl
  · exact .ok rfl rfl

theorem run_eq_of_rel {x : Run σ φ β} {y : Growing σ φ β} (h : same.rel Eq x y) : y.run = x := by
  funext s
  have hs := h s s rfl
  change y.run.run s = x.run s
  generalize x.run s = xs at hs ⊢
  generalize y.run.run s = ys at hs ⊢
  cases hs with
  | ok hb ht => rw [hb, ht]
  | error ht => rw [ht]
  | excused he => exact he.elim

end Growing

namespace Resolver

variable (r : Resolver σ φ)

theorem grows_exhausted (s : String) : (r.exhausted s).Grows := by
  unfold exhausted
  split
  · exact Run.grows_throw _
  · exact Run.grows_bind (Run.grows_report _) fun _ => Run.grows_pure _

theorem grows_circular (v : Value) (reference : String) : (r.circular v reference).Grows := by
  unfold circular
  split
  · exact Run.grows_throw _
  · exact Run.grows_bind (Run.grows_report _) fun _ => Run.grows_pure _

theorem grows_apply (f : FnHandle) (args : List Shared) : (r.apply f args).Grows := by
  intro s
  rw [run_apply]

theorem grows_cachedContainer {resolve : Value → Run σ φ Shared} (h : ∀ v, (resolve v).Grows)
    (left : Nat) (a : Address) (v : Value) (reference : String) :
    (r.cachedContainer resolve left a v reference).Grows := by
  intro s
  rw [run_cachedContainer]
  split
  · exact r.grows_circular v reference s
  · split
    · exact Nat.le_refl _
    · have hrun : s.fresh ≤ ((Run.withActive a (resolve v)).run s).2.fresh :=
        Run.grows_withActive a (h v) s
      generalize (Run.withActive a (resolve v)).run s = xs at hrun ⊢
      obtain ⟨e | plain, t⟩ := xs
      · exact hrun
      · exact Nat.le_succ_of_le hrun

theorem grows_container {resolve : Value → Run σ φ Shared} (h : ∀ v, (resolve v).Grows)
    (left : Nat) (a : Address) (v : Value) (reference : String) :
    (r.container resolve left a v reference).Grows := by
  intro s
  rw [run_container]
  split
  · exact r.grows_cachedContainer h left a v reference s
  · exact Run.grows_withCache (r.grows_cachedContainer h left a v reference) s

/-- The resolver as an engine of growing runs. -/
def growing : Engine (Growing σ φ) (Option Share) where
  registry := r.registry
  exhausted s := ⟨r.exhausted s, r.grows_exhausted s⟩
  unregistered name := ⟨unregistered name, Run.grows_report _⟩
  apply f args := ⟨r.apply f args, r.grows_apply f args⟩
  container resolve left a v reference :=
    ⟨r.container (fun u => (resolve u).run) left a v reference,
      r.grows_container (fun u => (resolve u).grows) left a v reference⟩

/-- The engine of growing runs does what the resolver does. -/
theorem growing_simulates :
    Engine.Simulates Growing.same Eq 0 r.engine r.growing where
  trees := treeRelation_eq
  registry := rfl
  throw _ _ := by
    rintro s _ rfl
    exact .error rfl
  exhausted s hs := by
    rw [Engine.substitute_zero _ hs]
    exact Growing.rel_same_run (r.growing.exhausted s)
  unregistered name :=
    Relator.rel_mono _ (fun _ _ _ => trivial) (Growing.rel_same_run (r.growing.unregistered name))
  apply f args args' hargs := by
    rw [List.forall₂_eq_eq_eq] at hargs
    rw [hargs]
    exact Relator.rel_mono _ (fun _ _ h => Or.inl h)
      (Growing.rel_same_run (r.growing.apply f args'))
  container left a v reference _ hr := by
    have hsame : (fun u => (r.growing.resolve left u).run) = r.engine.resolve left :=
      funext fun u => Growing.run_eq_of_rel (hr u)
    have h := Growing.rel_same_run (r.growing.container (r.growing.resolve left) left a v reference)
    change Growing.same.rel Eq (r.container _ left a v reference) _ at h
    rw [hsame] at h
    exact h

/-- In growing runs every text is substituted as it is in others. -/
theorem run_substitute_growing (left : Nat) (s : String) :
    (r.growing.substitute left s).run = r.engine.substitute left s :=
  Growing.run_eq_of_rel (r.growing_simulates.substitute left s)

/-- In growing runs every value is resolved as it is in others. -/
theorem run_resolve_growing (left : Nat) (v : Value) :
    (r.growing.resolve left v).run = r.engine.resolve left v :=
  Growing.run_eq_of_rel (r.growing_simulates.resolve left v)

/-! ## Definitions -/

theorem grows_resolveAt (depth : Int) (v : Value) : (r.resolveAt depth v).Grows := by
  rw [resolveAt, ← r.run_resolve_growing]
  exact (r.growing.resolve (r.passesLeft depth) v).grows

theorem fresh_writeLeaf (es : List (Key × Shared)) (path : String) (v : Shared) (s : Scratch σ) :
    ((r.writeLeaf es path v).run s).2.fresh = s.fresh := by
  rw [run_writeLeaf]
  split <;> rfl

theorem grows_resolveLeaves (leaves : Flat Unit) (es : List (Key × Shared)) :
    (r.resolveLeaves leaves es).Grows := by
  induction leaves generalizing es with
  | nil => exact Run.grows_pure es
  | cons leaf rest ih =>
    refine Run.grows_bind (r.grows_resolveAt 0 leaf.2) fun v => ?_
    exact Run.grows_bind (fun s => Nat.le_of_eq (r.fresh_writeLeaf es leaf.1 v s).symm) ih

/-- The number of the next result does not fall while a definition is resolved. -/
theorem grows_resolveTree (definition : Value) : (r.resolveTree definition).Grows := by
  intro s
  rw [run_resolveTree]
  cases definition.flatten "" with
  | error e => exact Nat.le_refl _
  | ok leaves =>
    have h := r.grows_resolveLeaves leaves [] (begin leaves.length s)
    dsimp only
    generalize (r.resolveLeaves leaves []).run (begin leaves.length s) = xs at h ⊢
    obtain ⟨e | es, t⟩ := xs <;> exact h

end Resolver

end LayeredConfig
