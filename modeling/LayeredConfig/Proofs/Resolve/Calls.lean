import LayeredConfig.Proofs.Resolve.Cached
import LayeredConfig.Proofs.Resolve.Renumbered

/-!
# Calls one after the other

A resolver is called again and again, for whole definitions, for values and for
texts, and any call may fail at any point.  A container that is being resolved
counts as such until it is left again, by an error too, and so does an open
cache.  So nothing of a call is left over but what the functions remember, and
the next call ends as it would on a resolver that is set up anew.

* `Run.restoring` — steps that leave the state behind as they have found it.
* `Resolver.restoring_simulates` — the engine of a resolver takes no others.
* `Resolver.carryOut_of_idle` — one call, whatever becomes of it.
* `Resolver.after_eq_renewed` — any calls, and the one after them.
-/

namespace LayeredConfig

variable {σ φ : Type}

/-! ## States between calls -/

/-- The states differ at most in what was reported and in the changes noted. -/
structure Scratch.Alike (s s' : Scratch σ) : Prop where
  memory : s'.memory = s.memory
  cache : s'.cache = s.cache
  active : s'.active = s.active
  fresh : s'.fresh = s.fresh

/-- The same containers are being resolved as before, and a cache is open only if one was. -/
structure Scratch.Restores (s t : Scratch σ) : Prop where
  active : t.active = s.active
  isSome : t.cache.isSome = s.cache.isSome

theorem Scratch.Restores.trans {s t u : Scratch σ} (hst : s.Restores t) (htu : t.Restores u) :
    s.Restores u :=
  ⟨htu.active.trans hst.active, htu.isSome.trans hst.isSome⟩

/-- No container is being resolved, and no cache is open. -/
structure Scratch.Idle (s : Scratch σ) : Prop where
  active : s.active = []
  cache : s.cache = none

theorem Scratch.Restores.idle {s t : Scratch σ} (h : s.Restores t) (hs : s.Idle) : t.Idle :=
  ⟨h.active.trans hs.active, by simpa [hs.cache] using h.isSome⟩

/-- The state of a resolver that is set up anew, while the functions go on with what they remember
and no number is given twice. -/
def Scratch.renewed (s : Scratch σ) : Scratch σ :=
  { Scratch.start s.memory with fresh := s.fresh }

theorem Scratch.Idle.alike_renewed {s : Scratch σ} (h : s.Idle) : s.Alike s.renewed :=
  ⟨rfl, h.cache.symm, h.active.symm, rfl⟩

/-! ## Steps that restore the state -/

/-- Steps from states that are alike end alike, in states that are alike again, and leave behind
what was there before them. -/
def Run.restoring : Relator (Run σ φ) (Run σ φ) where
  rel Q x y := ∀ s s' : Scratch σ, s.Alike s' →
    SameEnd Q (x.run s).1 (y.run s').1 ∧ (x.run s).2.Alike (y.run s').2 ∧ s.Restores (x.run s).2
  rel_pure hQ _ _ hs := ⟨.ok hQ, hs, rfl, rfl⟩
  rel_bind {_ _ _ _ P Q x y f g} hx hf s s' hs := by
    obtain ⟨hend, halike, hrestores⟩ := hx s s' hs
    rw [run_bind, run_bind]
    generalize x.run s = xs at hend halike hrestores ⊢
    generalize y.run s' = ys at hend halike ⊢
    obtain ⟨first, t⟩ := xs
    obtain ⟨second, t'⟩ := ys
    cases hend with
    | ok hP =>
      obtain ⟨hend, halike, hrestores'⟩ := hf _ _ hP t t' halike
      exact ⟨hend, halike, hrestores.trans hrestores'⟩
    | error e => exact ⟨.error e, halike, hrestores⟩
  rel_mono {_ _ _ _ x y} hQ hx s s' hs := by
    obtain ⟨hend, hrest⟩ := hx s s' hs
    refine ⟨?_, hrest⟩
    generalize (x.run s).1 = out at hend ⊢
    generalize (y.run s').1 = out' at hend ⊢
    cases hend with
    | ok h => exact .ok (hQ _ _ h)
    | error e => exact .error e

theorem Run.restoring_throw {β γ : Type} (Q : β → γ → Prop) (e : ResolveError φ) :
    (restoring (σ := σ)).rel Q (throw e) (throw e) :=
  fun _ _ hs => ⟨.error e, hs, rfl, rfl⟩

theorem Run.restoring_report (entry : LogEntry) :
    (restoring (σ := σ) (φ := φ)).rel (fun _ _ => True) (report entry) (report entry) :=
  fun _ _ hs => ⟨.ok trivial, ⟨hs.memory, hs.cache, hs.active, hs.fresh⟩, rfl, rfl⟩

namespace Resolver

variable (r : Resolver σ φ)

theorem restoring_exhausted (s : String) :
    Run.restoring.rel Eq (r.exhausted s) (r.exhausted s) := by
  unfold exhausted
  split
  · exact Run.restoring_throw _ _
  · exact Relator.rel_bind _ (Run.restoring_report _) fun _ _ _ => Relator.rel_pure _ rfl

theorem restoring_circular (v : Value) (reference : String) :
    Run.restoring.rel Eq (r.circular v reference) (r.circular v reference) := by
  unfold circular
  split
  · exact Run.restoring_throw _ _
  · exact Relator.rel_bind _ (Run.restoring_report _) fun _ _ _ => Relator.rel_pure _ rfl

theorem restoring_apply (f : FnHandle) (args : List Shared) :
    Run.restoring.rel Eq (r.apply f args) (r.apply f args) := by
  intro s s' hs
  rw [run_apply, run_apply, hs.memory]
  refine ⟨?_, ⟨rfl, hs.cache, hs.active, hs.fresh⟩, rfl, rfl⟩
  cases (r.host.call f args s.memory).2 with
  | ok v => exact .ok rfl
  | error e => exact .error _

/-- A container is left again after an error too. -/
theorem restoring_cachedContainer {resolve : Value → Run σ φ Shared}
    (hr : ∀ u, Run.restoring.rel Eq (resolve u) (resolve u)) (left : Nat) (a : Address) (v : Value)
    (reference : String) :
    Run.restoring.rel Eq (r.cachedContainer resolve left a v reference)
      (r.cachedContainer resolve left a v reference) := by
  intro s s' hs
  rw [run_cachedContainer, run_cachedContainer, hs.active, hs.cache]
  split
  · exact r.restoring_circular v reference s s' hs
  · cases (s.cache.getD []).find? ⟨a, left, s.active⟩ with
    | some held => exact ⟨.ok rfl, hs, rfl, rfl⟩
    | none =>
      obtain ⟨hend, halike, hrestores⟩ := hr v { s with active := a :: s.active }
        { s' with active := a :: s'.active }
        ⟨hs.memory, hs.cache, congrArg (a :: ·) hs.active, hs.fresh⟩
      dsimp only
      rw [Run.withActive, Run.run_between, Run.run_between]
      generalize (resolve v).run { s with active := a :: s.active } = xs
        at hend halike hrestores ⊢
      generalize (resolve v).run { s' with active := a :: s'.active } = ys at hend halike ⊢
      obtain ⟨first, t⟩ := xs
      obtain ⟨second, t'⟩ := ys
      have hleave : t.active.erase a = s.active := by
        rw [hrestores.active, List.erase_cons_head]
      have hactive : t'.active.erase a = t.active.erase a := congrArg (·.erase a) halike.active
      cases hend with
      | error e =>
        exact ⟨.error e, ⟨halike.memory, halike.cache, hactive, halike.fresh⟩, hleave,
          hrestores.isSome⟩
      | ok h =>
        cases h
        refine ⟨.ok ?_, ⟨halike.memory, ?_, hactive, congrArg (· + 1) halike.fresh⟩, hleave, ?_⟩
        · rw [halike.fresh]
        · rw [halike.fresh, halike.cache]
        · rw [Option.isSome_map]
          exact hrestores.isSome

/-- A cache that a reference opens is closed again after an error too. -/
theorem restoring_container {resolve : Value → Run σ φ Shared}
    (hr : ∀ u, Run.restoring.rel Eq (resolve u) (resolve u)) (left : Nat) (a : Address) (v : Value)
    (reference : String) :
    Run.restoring.rel Eq (r.container resolve left a v reference)
      (r.container resolve left a v reference) := by
  intro s s' hs
  have hcached := r.restoring_cachedContainer hr left a v reference
  rw [run_container, run_container, hs.cache]
  split
  · exact hcached s s' hs
  · rename_i hclosed
    obtain ⟨hend, halike, hrestores⟩ := hcached { s with cache := some [] }
      { s' with cache := some [] } ⟨hs.memory, rfl, hs.active, hs.fresh⟩
    exact ⟨hend, ⟨halike.memory, rfl, halike.active, halike.fresh⟩, hrestores.active,
      (Bool.eq_false_iff.2 hclosed).symm⟩

/-- The engine of a resolver restores the state, whatever it resolves. -/
theorem restoring_simulates :
    Engine.Simulates Run.restoring Eq 0 r.engine r.engine where
  trees := treeRelation_eq
  registry := rfl
  throw Q e := Run.restoring_throw Q e
  exhausted s hs := by
    rw [Engine.substitute_zero _ hs]
    exact r.restoring_exhausted s
  unregistered name := Run.restoring_report _
  apply f args args' hargs := by
    rw [List.forall₂_eq_eq_eq] at hargs
    rw [hargs]
    exact Relator.rel_mono _ (fun _ _ h => Or.inl h) (r.restoring_apply f args')
  container left a v reference _ hr := r.restoring_container hr left a v reference

theorem restoring_resolveAt (depth : Int) (v : Value) :
    Run.restoring.rel Eq (r.resolveAt depth v) (r.resolveAt depth v) :=
  r.restoring_simulates.resolve (r.passesLeft depth) v

theorem restoring_substituteAt (depth : Int) (v : Value) :
    Run.restoring.rel Eq (r.substituteAt depth v) (r.substituteAt depth v) := by
  unfold substituteAt
  split
  · exact r.restoring_simulates.substitute (r.passesLeft depth) _
  · exact Relator.rel_pure _ rfl

theorem restoring_writeLeaf (es : List (Key × Shared)) (path : String) (v : Shared) :
    Run.restoring.rel Eq (r.writeLeaf es path v) (r.writeLeaf es path v) := by
  intro s s' hs
  rw [run_writeLeaf, run_writeLeaf]
  cases Tree.writeRevision? v (Path.split path) es with
  | none => exact ⟨.ok rfl, hs, rfl, rfl⟩
  | some rev =>
    refine ⟨.ok rfl, ⟨?_, ?_, hs.active, hs.fresh⟩, rfl, Option.isSome_map⟩
    · exact congrArg (r.host.revise rev) hs.memory
    · exact congrArg (Option.map _) hs.cache

theorem restoring_resolveLeaves (leaves : Flat Unit) (es : List (Key × Shared)) :
    Run.restoring.rel Eq (r.resolveLeaves leaves es) (r.resolveLeaves leaves es) := by
  induction leaves generalizing es with
  | nil => exact Relator.rel_pure _ rfl
  | cons leaf rest ih =>
    refine Relator.rel_bind _ (r.restoring_resolveAt 0 leaf.2) ?_
    rintro v _ rfl
    refine Relator.rel_bind _ (r.restoring_writeLeaf es leaf.1 v) ?_
    rintro es _ rfl
    exact ih es

end Resolver

/-- Functions that answer as told are pure: they build their answers anew, and see no marks. -/
theorem Host.pure_ofAnswer (answer : FnHandle → List Value → Except φ Value) :
    (Host.ofAnswer answer).Pure fun f args =>
      (answer f (args.map Tree.erase)).map Tree.unmarked where
  call _ _ _ := rfl
  remark {ρ} _ f args := by
    have herase : (args.map (Tree.remark ρ)).map Tree.erase = args.map Tree.erase := by
      rw [List.map_map]
      exact List.map_congr_left fun v _ => Tree.erase_remark ρ v
    rw [herase]
    cases answer f (args.map Tree.erase) with
    | ok v => exact congrArg Except.ok (Tree.remark_unmarked ρ v).symm
    | error e => rfl
  marks {P f args v} _ h := by
    obtain ⟨w, rfl⟩ : ∃ w : Value, w.unmarked = v := by
      cases hw : answer f (args.map Tree.erase) with
      | ok w =>
        rw [hw] at h
        exact ⟨w, Except.ok.inj h⟩
      | error e =>
        rw [hw] at h
        cases h
    exact Tree.allMarks_unmarked w

namespace Resolver

variable (r : Resolver σ φ)

/-! ## Calls -/

/-- What a resolver may be called for. -/
inductive Request where
  /-- The tree of a definition. -/
  | tree (definition : Value)
  /-- A value, resolved at a depth. -/
  | value (depth : Int) (v : Value)
  /-- A text, substituted at a depth; any other value stays as it is. -/
  | text (depth : Int) (v : Value)

/-- Carries a call out. -/
def carryOut : Request → Run σ φ Shared
  | .tree definition => r.resolveTree definition
  | .value depth v => r.resolveAt depth v
  | .text depth v => r.substituteAt depth v

/-- The state after calls, of which each one takes over what the one before has left, even if that
one has failed. -/
def after (requests : List Request) (s : Scratch σ) : Scratch σ :=
  requests.foldl (fun s q => ((r.carryOut q).run s).2) s

/-- A call between calls leaves the state idle, and ends alike from states that are alike. -/
theorem carryOut_of_idle (q : Request) {s s' : Scratch σ} (hs : s.Idle) (halike : s.Alike s') :
    SameEnd Eq ((r.carryOut q).run s).1 ((r.carryOut q).run s').1 ∧
      ((r.carryOut q).run s).2.Alike ((r.carryOut q).run s').2 ∧
      ((r.carryOut q).run s).2.Idle := by
  cases q with
  | value depth v =>
    obtain ⟨hend, ht, hrestores⟩ := r.restoring_resolveAt depth v s s' halike
    exact ⟨hend, ht, hrestores.idle hs⟩
  | text depth v =>
    obtain ⟨hend, ht, hrestores⟩ := r.restoring_substituteAt depth v s s' halike
    exact ⟨hend, ht, hrestores.idle hs⟩
  | tree definition =>
    rw [carryOut, run_resolveTree, run_resolveTree]
    cases definition.flatten "" with
    | error e => exact ⟨.error _, halike, hs⟩
    | ok leaves =>
      -- the pass opens a cache of its own, and closes it whatever becomes of the leaves
      obtain ⟨hend, ht, hrestores⟩ := r.restoring_resolveLeaves leaves [] (begin leaves.length s)
        (begin leaves.length s') ⟨halike.memory, rfl, halike.active, halike.fresh⟩
      dsimp only
      generalize (r.resolveLeaves leaves []).run (begin leaves.length s) = xs
        at hend ht hrestores ⊢
      generalize (r.resolveLeaves leaves []).run (begin leaves.length s') = ys at hend ht ⊢
      obtain ⟨first, t⟩ := xs
      obtain ⟨second, t'⟩ := ys
      have htop : t.active = [] := hrestores.active.trans hs.active
      cases hend with
      | error e => exact ⟨.error e, ⟨ht.memory, rfl, ht.active, ht.fresh⟩, htop, rfl⟩
      | ok h =>
        cases h
        exact ⟨.ok rfl, ⟨ht.memory, rfl, ht.active, ht.fresh⟩, htop, rfl⟩

/-- Between calls the state is idle. -/
theorem idle_after (requests : List Request) {s : Scratch σ} (hs : s.Idle) :
    (r.after requests s).Idle := by
  induction requests generalizing s with
  | nil => exact hs
  | cons q requests ih => exact ih (r.carryOut_of_idle q hs ⟨rfl, rfl, rfl, rfl⟩).2.2

/-- Runs that do not look at numbers give the same value wherever these have got to, and whatever
the functions remember. -/
theorem map_erase_of_within {x : Run σ φ Shared} {n : Nat}
    (h : ∀ hi, Run.Within hi (Scratch.Moved n hi) (Tree.Moved n hi) x x) (memory memory' : σ) :
    (x.run { Scratch.start memory' with fresh := n }).1.map Tree.erase =
      (x.run (Scratch.start memory)).1.map Tree.erase := by
  have hrun := h _ (Scratch.start memory) { Scratch.start memory' with fresh := n }
    ⟨rfl, (Nat.zero_add n).symm, rfl, nofun, nofun⟩ (Nat.le_refl _)
  generalize x.run (Scratch.start memory) = xs at hrun ⊢
  generalize x.run { Scratch.start memory' with fresh := n } = ys at hrun ⊢
  cases hrun with
  | ok hv _ => exact congrArg Except.ok (Tree.treeRelation_moved.erase hv).symm
  | error _ => rfl
  | excused he => exact he.elim

/-- With pure functions a call gives the same value on every resolver that is set up anew. -/
theorem map_erase_carryOut {answer : FnHandle → List Shared → Except φ Shared}
    (h : r.host.Pure answer) (q : Request) (s : Scratch σ) (memory : σ) :
    ((r.carryOut q).run s.renewed).1.map Tree.erase =
      ((r.carryOut q).run (Scratch.start memory)).1.map Tree.erase := by
  cases q with
  | tree definition => exact ((r.resolveTree_renumbered h rfl).1 memory).symm
  | value depth v => exact map_erase_of_within (fun _ => r.within_resolveAt h depth v) memory _
  | text depth v => exact map_erase_of_within (fun _ => r.within_substituteAt h depth v) memory _

/-- After any calls, whatever has become of them, no container is being resolved and no cache is
open.  The next call gives the result, or the error, that it gives on a resolver that is set up
anew, and the functions remember the same after it; if they are pure, it does not matter what they
remembered before. -/
theorem after_eq_renewed (requests : List Request) (memory : σ) {t : Scratch σ}
    (ht : r.after requests (Scratch.start memory) = t) :
    t.active = [] ∧ t.cache = none ∧ ∀ q : Request,
      ((r.carryOut q).run t).1 = ((r.carryOut q).run t.renewed).1 ∧
      ((r.carryOut q).run t).2.memory = ((r.carryOut q).run t.renewed).2.memory ∧
      ∀ answer, r.host.Pure answer → ∀ memory',
        ((r.carryOut q).run t).1.map Tree.erase =
          ((r.carryOut q).run (Scratch.start memory')).1.map Tree.erase := by
  have hidle : t.Idle := ht ▸ r.idle_after requests ⟨rfl, rfl⟩
  refine ⟨hidle.active, hidle.cache, fun q => ?_⟩
  obtain ⟨hend, halike, -⟩ := r.carryOut_of_idle q hidle hidle.alike_renewed
  have hout : ((r.carryOut q).run t).1 = ((r.carryOut q).run t.renewed).1 := by
    generalize ((r.carryOut q).run t).1 = out at hend ⊢
    generalize ((r.carryOut q).run t.renewed).1 = out' at hend ⊢
    cases hend with
    | ok h => rw [h]
    | error e => rfl
  refine ⟨hout, halike.memory.symm, fun answer hpure memory' => ?_⟩
  rw [hout]
  exact r.map_erase_carryOut hpure q t memory'

/-- What a function answers that gives back its first argument. -/
def firstOf (_ : FnHandle) : List Value → Except Unit Value
  | [] => .error ()
  | v :: _ => .ok v

/-- A strict resolver of two containers that refer to each other, and of a third one that they refer
to. -/
def tangle : Resolver Nat Unit where
  registry := ⟨.map () [(.str "a", .map () [(.str "next", .str "$\x7bself:b\x7d")]),
      (.str "b", .list () [.str "$\x7bself:c\x7d", .str "$\x7bself:a\x7d"]),
      (.str "c", .map () [(.str "x", .str "@\x7bfirst:a.none, 1\x7d")])],
    [(.str "first", .atom (.fn ⟨0, "first"⟩))]⟩
  host := .ofAnswer firstOf
  maxDepth := 6
  strict := true

/-- Calls that fail: in the circle by way of a reference, in the whole definition, and at the end of
the passes. -/
def tangleCalls : List Request :=
  [.value 0 (.str "$\x7bself:a\x7d"), .tree tangle.registry.definition,
    .text 6 (.str "$\x7bself:c\x7d")]

/-- After calls that all fail, a reference that goes into no circle is resolved as if nothing had
been called before. -/
theorem after_eq_renewed_tangle :
    let t := tangle.after tangleCalls (Scratch.start 0)
    let q := Request.value 0 (.str "$\x7bself:c\x7d")
    (tangleCalls.all fun q => !((tangle.carryOut q).run (Scratch.start 0)).1.isOk) = true ∧
      t.active = [] ∧ t.cache = none ∧
      ((tangle.carryOut q).run t).1.map Tree.erase =
        ((tangle.carryOut q).run (Scratch.start 7)).1.map Tree.erase ∧
      ((tangle.carryOut q).run t).1.isOk = true := by
  intro t q
  obtain ⟨hactive, hcache, hnext⟩ := tangle.after_eq_renewed tangleCalls 0 (t := t) rfl
  exact ⟨by decide +kernel, hactive, hcache, (hnext q).2.2 _ (Host.pure_ofAnswer firstOf) 7,
    by decide +kernel⟩

end Resolver

end LayeredConfig
