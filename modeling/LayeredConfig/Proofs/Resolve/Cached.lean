import LayeredConfig.Proofs.Resolve.Direct
import LayeredConfig.Proofs.Resolve.Runs
import Mathlib.Data.Finset.Card
import Mathlib.Data.Finset.Dedup

/-!
# The cache does not show

Results of references are held within a pass and used again for the same
container, as many passes left and the same containers further up.  These three
are all that a result depends on if functions compute, so every value resolved
in a pass is what it is without a cache, whatever was resolved before it and
even if that failed.

* `Scratch.Sound` — every result held is what its reference means.
* `Resolver.direct_simulates` — a resolver with a sound cache keeps step with the
  direct engine, and its cache stays sound.
* `Resolver.outcomes_eq_direct` — what this means for the values of a pass.
-/

namespace LayeredConfig

variable {σ φ : Type}

/-! ## Sound caches -/

/-- Every result held is the value that its container has by itself, with as many passes left and
below the same containers. -/
structure Scratch.Sound (e : Engine (Below φ) Unit) (s : Scratch σ) : Prop where
  nodup : s.active.Nodup
  cache : ∀ entry ∈ s.cache.getD [], ∀ v, e.registry.at? entry.1.address = some v →
    Below.inside entry.1.address (e.resolve entry.1.left v) entry.1.active.toFinset =
      .ok entry.2.erase

/-- No container is being resolved, and no result is held. -/
structure Scratch.Clear (s : Scratch σ) : Prop where
  active : s.active = []
  cache : s.cache.getD [] = []

theorem Scratch.Clear.sound {s : Scratch σ} (h : s.Clear) (e : Engine (Below φ) Unit) :
    s.Sound e :=
  ⟨by simp [h.active], by simp [h.cache]⟩

/-- Keys that agree say the same about what stands further up. -/
theorem CacheKey.toFinset_active_of_agrees {k l : CacheKey} (h : k.agrees l = true)
    (hk : k.active.Nodup) : k.active.toFinset = l.active.toFinset := by
  obtain ⟨-, -, hlen, hsub⟩ := agrees_iff.1 h
  have hsubset : k.active.toFinset ⊆ l.active.toFinset := fun a ha =>
    List.mem_toFinset.2 (hsub a (List.mem_toFinset.1 ha))
  refine Finset.eq_of_subset_of_card_le hsubset ?_
  calc l.active.toFinset.card ≤ l.active.length := List.toFinset_card_le l.active
    _ = k.active.length := hlen.symm
    _ = k.active.toFinset.card := (List.toFinset_card_of_nodup hk).symm

/-- A result that a sound cache holds for a key is the value of the container below those that the
key counts. -/
theorem Scratch.Sound.resolve_of_find? {e : Engine (Below φ) Unit} {s : Scratch σ}
    (h : s.Sound e) {a : Address} {left : Nat} {v : Value} {held : Shared}
    (hv : e.registry.at? a = some v)
    (hfind : (s.cache.getD []).find? ⟨a, left, s.active⟩ = some held) :
    e.resolve left v (insert a s.active.toFinset) = .ok held.erase := by
  obtain ⟨l, hl, hagrees⟩ := Cache.exists_mem_of_find? hfind
  have hactive : s.active.toFinset = l.active.toFinset :=
    CacheKey.toFinset_active_of_agrees hagrees h.nodup
  obtain ⟨hleft, haddress, -, -⟩ := CacheKey.agrees_iff.1 hagrees
  cases hleft
  cases haddress
  rw [hactive]
  exact h.cache _ hl v hv

/-! ## Runs and direct steps -/

/-- A run and a direct step end alike: in related results, or with the same error. -/
inductive SameEnd {β γ : Type} (Q : β → γ → Prop) :
    Except (ResolveError φ) β → Except (ResolveError φ) γ → Prop
  /-- Both give a result. -/
  | ok {b : β} {c : γ} : Q b c → SameEnd Q (.ok b) (.ok c)
  /-- Both fail. -/
  | error (e : ResolveError φ) : SameEnd Q (.error e) (.error e)

/-- A run that starts with a sound cache, and where the functions remember something that satisfies
`I`, ends so too, below the same containers as it started, and like the direct step. -/
def Run.unaided (I : σ → Prop) (e : Engine (Below φ) Unit) : Relator (Run σ φ) (Below φ) where
  rel Q x d := ∀ s : Scratch σ, s.Sound e ∧ I s.memory →
    SameEnd Q (x.run s).1 (d s.active.toFinset) ∧
      ((x.run s).2.Sound e ∧ I (x.run s).2.memory) ∧ (x.run s).2.active = s.active
  rel_pure hQ s hs := ⟨.ok hQ, hs, rfl⟩
  rel_bind {_ _ _ _ P Q x d f g} hx hf s hs := by
    obtain ⟨hend, ht, hactive⟩ := hx s hs
    rw [run_bind, Below.run_bind]
    generalize x.run s = xs at hend ht hactive ⊢
    generalize d s.active.toFinset = out at hend ⊢
    obtain ⟨first, t⟩ := xs
    cases hend with
    | ok hP =>
      have h := hf _ _ hP t ht
      rw [hactive] at h
      exact h
    | error err => exact ⟨.error err, ht, hactive⟩
  rel_mono {_ _ _ _ x d} hQ hx s hs := by
    obtain ⟨hend, ht⟩ := hx s hs
    refine ⟨?_, ht⟩
    generalize (x.run s).1 = out at hend ⊢
    generalize d s.active.toFinset = out' at hend ⊢
    cases hend with
    | ok h => exact .ok (hQ _ _ h)
    | error err => exact .error err

theorem Run.rel_report_unaided {I : σ → Prop} {e : Engine (Below φ) Unit} (entry : LogEntry) :
    (unaided I e).rel (fun _ _ => True) (report entry : Run σ φ Unit) (pure ()) :=
  fun _ hs => ⟨.ok trivial, ⟨⟨hs.1.nodup, hs.1.cache⟩, hs.2⟩, rfl⟩

/-- A tree without its marks. -/
theorem treeRelation_erase : TreeRelation fun (v : Shared) (w : Value) => v.erase = w where
  erase {v w} h := by
    rw [← h]
    exact (Tree.mapTag_id v.erase).symm
  str _ := rfl
  unquote _ _ := rfl
  atom _ := rfl
  set _ := rfl
  list {items items'} h := by
    have hitems : Tree.mapTagItems (fun _ => ()) items = items' := by
      induction h with
      | nil => rfl
      | cons hx _ ih => rw [Tree.mapTagItems, ih, ← hx]; rfl
    rw [Tree.erase_list, hitems]
  map {es es'} h := by
    have hes : Tree.mapTagEntries (fun _ => ()) es = es' := by
      induction h with
      | nil => rfl
      | @cons e e' es es' he _ ih =>
        obtain ⟨k, v⟩ := e
        obtain ⟨k', w⟩ := e'
        obtain ⟨rfl, rfl⟩ := he
        rw [Tree.mapTagEntries, ih]
        rfl
    rw [Tree.erase_map, hes]

theorem map_erase_of_forall₂ {vs : List Shared} {ws : List Value}
    (h : List.Forall₂ (fun v w => v.erase = w) vs ws) : vs.map Tree.erase = ws := by
  rwa [← List.forall₂_eq_eq_eq, List.forall₂_map_left_iff]

namespace Resolver

variable (r : Resolver σ φ) {answer : FnHandle → List Value → Except φ Value} {I : σ → Prop}

theorem rel_exhausted (s : String) :
    (Run.unaided I (r.direct answer)).rel (fun v w => v.erase = w) (r.exhausted s)
      (r.directExhausted s) := by
  unfold exhausted directExhausted
  split
  · exact fun t ht => ⟨.error _, ht, rfl⟩
  · exact fun t ht => ⟨.ok rfl, ⟨⟨ht.1.nodup, ht.1.cache⟩, ht.2⟩, rfl⟩

/-- A container taken from a sound cache is what it is when it is resolved anew, and so the cache
is sound with a new result in it. -/
theorem rel_cachedContainer {resolve : Value → Run σ φ Shared} (left : Nat) {a : Address}
    {v : Value} (reference : String) (hv : r.registry.at? a = some v)
    (hr : ∀ u, (Run.unaided I (r.direct answer)).rel (fun v w => v.erase = w) (resolve u)
      ((r.direct answer).resolve left u)) :
    (Run.unaided I (r.direct answer)).rel (fun v w => v.erase = w)
      (r.cachedContainer resolve left a v reference)
      (r.directContainer ((r.direct answer).resolve left) a v reference) := by
  rintro s ⟨hs, hI⟩
  rw [run_cachedContainer, run_directContainer]
  by_cases ha : a ∈ s.active
  · rw [if_pos (List.contains_iff_mem.2 ha), if_pos (List.mem_toFinset.2 ha)]
    unfold circular
    split
    · exact ⟨.error _, ⟨hs, hI⟩, rfl⟩
    · exact ⟨.ok (Tree.erase_unmarked v.copy), ⟨⟨hs.nodup, hs.cache⟩, hI⟩, rfl⟩
  · rw [if_neg (mt List.contains_iff_mem.1 ha), if_neg (mt List.mem_toFinset.1 ha)]
    cases hfind : (s.cache.getD []).find? ⟨a, left, s.active⟩ with
    | some held =>
      rw [hs.resolve_of_find? hv hfind]
      exact ⟨.ok rfl, ⟨hs, hI⟩, rfl⟩
    | none =>
      -- the container is not among those further up, so these stay without repetition
      have hrun := hr v { s with active := a :: s.active }
        ⟨⟨List.nodup_cons.2 ⟨ha, hs.nodup⟩, hs.cache⟩, hI⟩
      rw [List.toFinset_cons] at hrun
      dsimp only
      rw [Run.withActive, Run.run_between]
      generalize (resolve v).run { s with active := a :: s.active } = xs at hrun ⊢
      generalize hout : (r.direct answer).resolve left v (insert a s.active.toFinset) = out
        at hrun ⊢
      obtain ⟨first, t⟩ := xs
      obtain ⟨hend, ⟨ht, htI⟩, hactive⟩ := hrun
      have hleave : t.active.erase a = s.active := by
        rw [hactive, List.erase_cons_head]
      cases hend with
      | error err => exact ⟨.error err, ⟨⟨hleave ▸ hs.nodup, ht.cache⟩, htI⟩, hleave⟩
      | @ok plain w hplain =>
        refine ⟨.ok ((Tree.erase_withMark _ plain).trans hplain),
          ⟨⟨hleave ▸ hs.nodup, ?_⟩, htI⟩, hleave⟩
        have hcache := ht.cache
        cases hc : t.cache with
        | none => simp
        | some c =>
          rw [hc] at hcache
          refine List.forall_mem_cons.2 ⟨fun u hu => ?_, hcache⟩
          obtain rfl : v = u := Option.some.inj (hv.symm.trans hu)
          rw [Tree.erase_withMark, hplain]
          exact hout

theorem rel_container {resolve : Value → Run σ φ Shared} (left : Nat) {a : Address} {v : Value}
    (reference : String) (hv : r.registry.at? a = some v)
    (hr : ∀ u, (Run.unaided I (r.direct answer)).rel (fun v w => v.erase = w) (resolve u)
      ((r.direct answer).resolve left u)) :
    (Run.unaided I (r.direct answer)).rel (fun v w => v.erase = w)
      (r.container resolve left a v reference)
      (r.directContainer ((r.direct answer).resolve left) a v reference) := by
  rintro s ⟨hs, hI⟩
  have h := r.rel_cachedContainer left reference hv hr
  rw [run_container]
  split
  · exact h s ⟨hs, hI⟩
  · obtain ⟨hend, ⟨ht, htI⟩, hactive⟩ := h { s with cache := some [] } ⟨⟨hs.nodup, by simp⟩, hI⟩
    exact ⟨hend, ⟨⟨ht.nodup, by simp [Run.withCache, Run.run_between]⟩, htI⟩, hactive⟩

/-- Functions that compute answer alike, and may remember anything that satisfies `I`. -/
theorem rel_apply (h : r.host.Computes answer) (f : FnHandle) {args : List Shared}
    {args' : List Value} (hargs : List.Forall₂ (fun v w => v.erase = w) args args')
    (hI : ∀ m, I m → I (r.host.call f args m).1) :
    (Run.unaided I (r.direct answer)).rel (OrSameText fun v w => v.erase = w) (r.apply f args)
      (ResolveError.ofExcept .fault (answer f args')) := by
  have hsame := map_erase_of_forall₂ hargs
  rintro s ⟨hs, hm⟩
  have hanswer := h f args s.memory
  have hcall := hI s.memory hm
  rw [hsame] at hanswer
  rw [run_apply, ← hanswer]
  generalize r.host.call f args s.memory = result at hcall ⊢
  obtain ⟨m, out⟩ := result
  refine ⟨?_, ⟨⟨hs.nodup, hs.cache⟩, hcall⟩, rfl⟩
  cases out with
  | ok v => exact .ok (Or.inl rfl)
  | error err => exact .error _

/-- With functions that compute, a resolver with a sound cache keeps step with the direct engine. -/
theorem direct_simulates (h : r.host.Computes answer) :
    Engine.Simulates (Run.unaided (fun _ => True) (r.direct answer)) (fun v w => v.erase = w) 0
      r.engine (r.direct answer) where
  trees := treeRelation_erase
  registry := rfl
  throw _ err := fun _ hs => ⟨.error err, hs, rfl⟩
  exhausted s hs := by
    rw [Engine.substitute_zero _ hs]
    exact r.rel_exhausted s
  unregistered _ := Run.rel_report_unaided _
  apply f _ _ hargs := r.rel_apply h f hargs fun _ _ => trivial
  container left a v reference hv hr := r.rel_container left reference hv hr

/-! ## The values of a pass -/

/-- A value that the direct engine gives at a depth, or why it gives none. -/
def directAt (answer : FnHandle → List Value → Except φ Value) (depth : Int) (v : Value) :
    Except (ResolveError φ) Value :=
  (r.direct answer).resolve (r.passesLeft depth) v ∅

/-- The outcomes of values that are resolved one after the other, each at its depth.  One that
fails leaves the state to the next one. -/
def outcomes : List (Int × Value) → Scratch σ → List (Except (ResolveError φ) Shared)
  | [], _ => []
  | (depth, v) :: rest, s =>
    ((r.resolveAt depth v).run s).1 :: outcomes rest ((r.resolveAt depth v).run s).2

omit r in
theorem map_erase_of_sameEnd {out : Except (ResolveError φ) Shared}
    {out' : Except (ResolveError φ) Value} (h : SameEnd (fun v w => v.erase = w) out out') :
    out.map Tree.erase = out' := by
  cases h with
  | ok h => exact congrArg Except.ok h
  | error e => rfl

/-- Resolving a value with a sound cache is what it is without one. -/
theorem resolveAt_of_sound (h : r.host.Computes answer) (depth : Int) (v : Value) {s : Scratch σ}
    (hs : s.Sound (r.direct answer)) (hactive : s.active = []) :
    ((r.resolveAt depth v).run s).1.map Tree.erase = r.directAt answer depth v ∧
      ((r.resolveAt depth v).run s).2.Sound (r.direct answer) ∧
      ((r.resolveAt depth v).run s).2.active = [] := by
  obtain ⟨hend, ⟨ht, -⟩, htop⟩ :=
    (r.direct_simulates h).resolve (r.passesLeft depth) v s ⟨hs, trivial⟩
  rw [hactive] at hend htop
  exact ⟨map_erase_of_sameEnd hend, ht, htop⟩

theorem outcomes_of_sound (h : r.host.Computes answer) (tasks : List (Int × Value)) {s : Scratch σ}
    (hs : s.Sound (r.direct answer)) (hactive : s.active = []) :
    (r.outcomes tasks s).map (Except.map Tree.erase) =
      tasks.map fun task => r.directAt answer task.1 task.2 := by
  induction tasks generalizing s with
  | nil => rfl
  | cons task rest ih =>
    obtain ⟨depth, v⟩ := task
    obtain ⟨hfirst, ht, htop⟩ := r.resolveAt_of_sound h depth v hs hactive
    rw [outcomes, List.map_cons, List.map_cons, hfirst, ih ht htop]

/-- With functions that compute, every value resolved in a pass is what it is without a cache,
errors included. -/
theorem outcomes_eq_direct (h : r.host.Computes answer) (tasks : List (Int × Value))
    {s : Scratch σ} (hs : s.Clear) :
    (r.outcomes tasks s).map (Except.map Tree.erase) =
      tasks.map fun task => r.directAt answer task.1 task.2 :=
  r.outcomes_of_sound h tasks (hs.sound _) hs.active

/-- Two containers that refer to each other. -/
def ring : Value :=
  .map () [(.str "a", .map () [(.str "next", .str "$\x7bself:b\x7d")]),
    (.str "b", .list () [.str "$\x7bself:a\x7d", .str "@\x7becho:a.next\x7d"])]

/-- What a function answers that gives back its only argument. -/
def echo (_ : FnHandle) : List Value → Except Unit Value
  | [v] => .ok v
  | _ => .error ()

/-- A lenient resolver of the ring. -/
def ringResolver : Resolver Nat Unit where
  registry := ⟨ring, [(.str "echo", .atom (.fn ⟨0, "echo"⟩))]⟩
  host := .ofAnswer echo
  maxDepth := 6
  strict := false

/-- The cache does not show in the ring, whatever is asked for first. -/
theorem outcomes_eq_direct_ring :
    (ringResolver.outcomes [(0, ring), (1, .str "$\x7bself:b\x7d"), (0, .str "$\x7bself:a\x7d")]
      { Scratch.start 0 with cache := some [] }).map (Except.map Tree.erase) =
    [ringResolver.directAt echo 0 ring, ringResolver.directAt echo 1 (.str "$\x7bself:b\x7d"),
      ringResolver.directAt echo 0 (.str "$\x7bself:a\x7d")] := by
  exact ringResolver.outcomes_eq_direct (Host.computes_ofAnswer echo)
    [(0, ring), (1, .str "$\x7bself:b\x7d"), (0, .str "$\x7bself:a\x7d")] ⟨rfl, rfl⟩

end Resolver

end LayeredConfig
