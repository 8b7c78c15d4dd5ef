import LayeredConfig.Proofs.Resolve.Runs

/-!
# More passes change nothing

A strict resolution consults its limit only to give up.  So one that succeeds
gives the same tree, with the same calls of functions and the same reports, under
every higher limit, strict or not; and a lenient resolution differs from the
strict one with the same limit only where that one gives up.

* `Resolver.strict_keepsStep` — a strict resolver keeps step with every resolver
  whose limit is at least as high, until it gives up.
* `Resolver.resolveTree_limits` — what this means for definitions.
-/

namespace LayeredConfig

variable {σ φ : Type}

/-! ## States that differ in the passes left -/

/-- The key of the same reference with more passes left. -/
def CacheKey.shift (k : Nat) (key : CacheKey) : CacheKey :=
  { key with left := key.left + k }

/-- The results of the same references with more passes left. -/
def Cache.shift (k : Nat) (c : Cache) : Cache :=
  c.map fun e => (e.1.shift k, e.2)

/-- The state of a resolution with more passes left. -/
def Scratch.shift (k : Nat) (s : Scratch σ) : Scratch σ :=
  { s with cache := s.cache.map (Cache.shift k) }

theorem CacheKey.agrees_shift (k : Nat) (key l : CacheKey) :
    (key.shift k).agrees (l.shift k) = key.agrees l := by
  rw [Bool.eq_iff_iff, agrees_iff, agrees_iff]
  simp [shift]

theorem Cache.find?_shift (k : Nat) (key : CacheKey) (c : Cache) :
    find? (key.shift k) (shift k c) = find? key c := by
  induction c with
  | nil => rfl
  | cons e c ih =>
    obtain ⟨l, v⟩ := e
    change (if (key.shift k).agrees (l.shift k) then some v
      else find? (key.shift k) (shift k c)) = _
    rw [CacheKey.agrees_shift, ih]
    rfl

/-- Passes more or less do not matter to anything that a resolution does to its state. -/
theorem stateRelation_shift (k : Nat) :
    StateRelation Eq k fun s s' : Scratch σ => s' = s.shift k where
  active h := by rw [h]; rfl
  isSome h := by rw [h]; simp [Scratch.shift]
  report _ h := by rw [h]; rfl
  enter _ h := by rw [h]; rfl
  leave _ h := by rw [h]; rfl
  openCache h := by rw [h]; rfl
  closeCache h := by rw [h]; rfl
  find? {s _} a left h := by
    subst h
    have hc : (s.shift k).cache.getD [] = Cache.shift k (s.cache.getD []) := by
      unfold Scratch.shift
      cases s.cache <;> rfl
    have hfind := Cache.find?_shift k ⟨a, left, s.active⟩ (s.cache.getD [])
    rw [hc]
    change Option.Rel Eq _
      (Cache.find? (CacheKey.shift k ⟨a, left, s.active⟩) (Cache.shift k (s.cache.getD [])))
    rw [hfind]
    cases Cache.find? ⟨a, left, s.active⟩ (s.cache.getD []) with
    | none => exact .none
    | some v => exact .some rfl
  mark hs hv := by rw [hs, hv]; rfl
  insert {s _ _ _} a left active hs hv := by
    subst hs hv
    unfold Scratch.shift
    cases s.cache <;> rfl

/-! ## Strict resolvers and higher limits -/

/-- The error of a strict resolver that gives up. -/
def Resolver.GivesUp (r : Resolver σ φ) (e : ResolveError φ) : Prop :=
  ∃ value, e = .depth value r.maxDepth

namespace Resolver

variable {r r' : Resolver σ φ}

/-- A strict resolver keeps step with one that works on the same namespaces and functions, with
`k` passes more, until it gives up. -/
theorem strict_keepsStep (hstrict : r.strict = true) (hreg : r'.registry = r.registry)
    (hhost : r'.host = r.host) (k : Nat) :
    KeepsStep (fun s s' => s' = s.shift k) r.GivesUp Eq k r r' where
  states := stateRelation_shift k
  trees := treeRelation_eq
  registry := hreg
  exhausted s _ := by
    intro t t' _
    rw [exhausted, hstrict]
    exact .excused ⟨s, rfl⟩
  circular v reference := by
    intro t t' _
    rw [circular, hstrict]
    exact .excused ⟨reference, rfl⟩
  apply f args args' hargs := by
    rw [List.forall₂_eq_eq_eq] at hargs
    rintro s _ rfl
    rw [run_apply, run_apply, hhost, hargs]
    change Run.Agree _ _ _ _ ((r.host.call f args' s.memory).2.mapError .fault, _)
    cases (r.host.call f args' s.memory).2 with
    | ok v => exact .ok (Or.inl rfl) rfl
    | error e => exact .error rfl

theorem strict_writeLeaf (hhost : r'.host = r.host) (k : Nat) {es es' : List (Key × Shared)}
    (path : String) {v w : Shared} (hes : es = es') (hv : v = w) :
    (Run.sideBySide (fun s s' => s' = s.shift k) r.GivesUp).rel Eq (r.writeLeaf es path v)
      (r'.writeLeaf es' path w) := by
  subst hes hv
  rintro s _ rfl
  rw [run_writeLeaf, run_writeLeaf, hhost]
  cases Tree.writeRevision? v (Path.split path) es with
  | none => exact .ok rfl rfl
  | some rev =>
    refine .ok rfl ?_
    unfold Scratch.shift
    cases s.cache with
    | none => rfl
    | some c => simp [Cache.shift]

/-- A strict resolution gives up, or ends exactly as every resolution with a limit that is at least
as high. -/
theorem resolveTree_of_strict (r r' : Resolver σ φ) (hstrict : r.strict = true)
    (hreg : r'.registry = r.registry) (hhost : r'.host = r.host) (hle : r.maxDepth ≤ r'.maxDepth)
    (definition : Value) (s : Scratch σ) :
    (∃ e t, (r.resolveTree definition).run s = (.error e, t) ∧ r.GivesUp e) ∨
      (r'.resolveTree definition).run s = (r.resolveTree definition).run s := by
  rw [run_resolveTree, run_resolveTree]
  cases definition.flatten "" with
  | error e => exact Or.inr rfl
  | ok leaves =>
    have hk : r'.passesLeft 0 = r.passesLeft 0 + (r'.passesLeft 0 - r.passesLeft 0) := by
      unfold passesLeft
      omega
    -- a pass begins with an empty cache, so the two states are the same one
    have hnil : ([] : List (Key × Shared)) = [] := rfl
    have h := (strict_keepsStep hstrict hreg hhost _).resolveLeaves hk
      (fun path _ _ hes hv => strict_writeLeaf hhost _ path hes hv) leaves hnil
      (begin leaves.length s) (begin leaves.length s) rfl
    dsimp only
    generalize (r.resolveLeaves leaves []).run (begin leaves.length s) = xs at h ⊢
    generalize (r'.resolveLeaves leaves []).run (begin leaves.length s) = ys at h ⊢
    cases h with
    | ok hes ht =>
      right
      rw [ht, hes]
      rfl
    | error ht =>
      right
      rw [ht]
      rfl
    | excused he => exact Or.inl ⟨_, _, rfl, he⟩

/-- A tree that a strict resolution gives is given under every higher limit, strict or not, and in
the same state; and where a lenient resolution gives a tree, the strict one with the same limit
gives it too or gives up. -/
theorem resolveTree_limits (r : Resolver σ φ) (definition : Value) (s : Scratch σ) :
    (∀ tree t, ({ r with strict := true }.resolveTree definition).run s = (.ok tree, t) →
      ∀ limit strict, r.maxDepth ≤ limit →
        ({ r with maxDepth := limit, strict := strict }.resolveTree definition).run s =
          (.ok tree, t)) ∧
    ∀ tree t, ({ r with strict := false }.resolveTree definition).run s = (.ok tree, t) →
      ({ r with strict := true }.resolveTree definition).run s = (.ok tree, t) ∨
        ∃ value t', ({ r with strict := true }.resolveTree definition).run s =
          (.error (.depth value r.maxDepth), t') := by
  constructor
  · intro tree t h limit strict hle
    rcases resolveTree_of_strict { r with strict := true }
      { r with maxDepth := limit, strict := strict } rfl rfl rfl hle definition s
      with ⟨e, t', he, -⟩ | heq
    · rw [h] at he
      cases he
    · rw [heq, h]
  · intro tree t h
    rcases resolveTree_of_strict { r with strict := true }
      { r with strict := false } rfl rfl rfl (Int.le_refl r.maxDepth) definition s
      with ⟨e, t', he, value, rfl⟩ | heq
    · exact Or.inr ⟨value, t', he⟩
    · exact Or.inl (heq ▸ h)

/-- A definition in which a text refers to a text that refers to a number. -/
def chain : Value :=
  .map () [(.str "a", .str "$\x7bself:b\x7d"), (.str "b", .str "$\x7bself:c\x7d"),
    (.str "c", .atom (.int 1))]

/-- A resolver of the chain that calls no function. -/
def chainResolver (limit : Int) (strict : Bool) : Resolver Unit Unit :=
  ⟨.ofDefinition chain, ⟨fun _ _ m => (m, .ok Tree.undefined), fun _ m => m⟩, limit, strict⟩

/-- Two passes are enough for the chain, so every higher limit gives the same tree. -/
theorem resolveTree_limits_chain :
    ∃ tree t, ∀ limit strict, 2 ≤ limit →
      ((chainResolver limit strict).resolveTree chain).run (Scratch.start ()) = (.ok tree, t) := by
  have hok : (((chainResolver 2 true).resolveTree chain).run (Scratch.start ())).1.isOk = true := by
    decide +kernel
  obtain ⟨tree, t, h⟩ := Run.exists_of_isOk hok
  exact ⟨tree, t, (resolveTree_limits (chainResolver 2 true) chain (Scratch.start ())).1 tree t h⟩

end Resolver

end LayeredConfig
