import LayeredConfig.Proofs.Path.Legible
import LayeredConfig.Proofs.Resolve.Relation
import LayeredConfig.Resolve.Resolver

/-!
# Runs side by side

Two resolvers keep step if their runs do: from related states both end alike, in
related states again, unless the first one ends with an error that is excused.
What has to be shown of two resolvers is how their states are related
(`StateRelation`), what functions answer, and what happens at the end of the
passes and in a circle (`Resolver.KeepsStep`).

* `Resolver.KeepsStep.simulates` — the engines of two such resolvers keep step.
* `Resolver.KeepsStep.inStep` — and evaluate placeholders alike.
* `Resolver.KeepsStep.treeWith`, `Resolver.KeepsStep.resolveLeaves` — so do the resolutions of whole
  definitions.
-/

namespace LayeredConfig

/-! ## Runs -/

namespace Run

variable {σ φ β γ : Type}

theorem run_bind (x : Run σ φ β) (f : β → Run σ φ γ) (s : Scratch σ) :
    (x >>= f).run s = match x.run s with
      | (.ok b, t) => (f b).run t
      | (.error e, t) => (.error e, t) := by
  rw [ExceptT.run_bind]
  rcases h : x.run s with ⟨out, t⟩
  simp only [bind, StateT.bind, h]
  cases out <;> rfl

/-- A result of two runs is one of the second after a result of the first. -/
theorem exists_of_bind {x : Run σ φ β} {f : β → Run σ φ γ} {s t : Scratch σ} {c : γ}
    (h : (x >>= f).run s = (.ok c, t)) :
    ∃ b t', x.run s = (.ok b, t') ∧ (f b).run t' = (.ok c, t) := by
  rw [run_bind] at h
  rcases hx : x.run s with ⟨_ | b, t'⟩
  · rw [hx] at h
    cases h
  · rw [hx] at h
    exact ⟨b, t', rfl, h⟩

/-- A run that does not fail has a result. -/
theorem exists_of_isOk {out : Except (ResolveError φ) β × Scratch σ} (h : out.1.isOk = true) :
    ∃ b t, out = (.ok b, t) := by
  obtain ⟨_ | b, t⟩ := out
  · cases h
  · exact ⟨b, t, rfl⟩

theorem run_between (enter leave : Scratch σ → Scratch σ) (x : Run σ φ β) (s : Scratch σ) :
    (between enter leave x).run s = ((x.run (enter s)).1, leave (x.run (enter s)).2) := rfl

end Run

namespace Resolver

variable {σ φ : Type} (r : Resolver σ φ)

/-- A container is taken from the cache, or resolved and put there. -/
theorem run_cachedContainer (resolve : Value → Run σ φ Shared) (left : Nat) (a : Address)
    (v : Value) (reference : String) (s : Scratch σ) :
    (r.cachedContainer resolve left a v reference).run s =
      if s.active.contains a then (r.circular v reference).run s
      else
        match (s.cache.getD []).find? ⟨a, left, s.active⟩ with
        | some held => (.ok held, s)
        | none =>
          match (Run.withActive a (resolve v)).run s with
          | (.error e, t) => (.error e, t)
          | (.ok plain, t) =>
            (.ok (plain.withMark (.result t.fresh)), { t with
              cache := t.cache.map ((⟨a, left, s.active⟩, plain.withMark (.result t.fresh)) :: ·)
              fresh := t.fresh + 1 }) := by
  unfold cachedContainer
  rw [Run.run_bind]
  change (if s.active.contains a then r.circular v reference else _ : Run σ φ Shared).run s = _
  split
  · rfl
  · cases hfind : (s.cache.getD []).find? ⟨a, left, s.active⟩ with
    | some held =>
      simp only [hfind]
      rfl
    | none =>
      simp only [hfind]
      rw [Run.run_bind]
      rcases (Run.withActive a (resolve v)).run s with ⟨_ | plain, t⟩ <;> rfl

/-- Outside a pass a reference opens a cache of its own. -/
theorem run_container (resolve : Value → Run σ φ Shared) (left : Nat) (a : Address)
    (v : Value) (reference : String) (s : Scratch σ) :
    (r.container resolve left a v reference).run s =
      if s.cache.isSome then (r.cachedContainer resolve left a v reference).run s
      else (Run.withCache (r.cachedContainer resolve left a v reference)).run s := by
  unfold container
  rw [Run.run_bind]
  have hget : (get : Run σ φ (Scratch σ)).run s = (.ok s, s) := rfl
  rw [hget]
  dsimp only
  cases s.cache <;> rfl

/-- A call changes what the functions remember, and nothing else. -/
theorem run_apply (f : FnHandle) (args : List Shared) (s : Scratch σ) :
    (r.apply f args).run s =
      ((r.host.call f args s.memory).2.mapError .fault,
        { s with memory := (r.host.call f args s.memory).1 }) := by
  unfold apply
  rw [Run.run_bind]
  change (do
    set { s with memory := (r.host.call f args s.memory).1 }
    ResolveError.ofExcept .fault (r.host.call f args s.memory).2 : Run σ φ Shared).run s = _
  rw [Run.run_bind]
  cases (r.host.call f args s.memory).2 <;> rfl

/-- A leaf written through a marked mapping changes that mapping wherever it is held. -/
theorem run_writeLeaf (es : List (Key × Shared)) (path : String) (v : Shared) (s : Scratch σ) :
    (r.writeLeaf es path v).run s =
      match Tree.writeRevision? v (Path.split path) es with
      | none => (.ok (Tree.writeEntries v (Path.split path) es), s)
      | some rev => (.ok (Tree.replaceShareEntries rev.share rev.content es), { s with
          memory := r.host.revise rev s.memory
          cache := s.cache.map fun c => c.map fun e => (e.1, e.2.revise rev)
          revisions := rev :: s.revisions }) := by
  unfold writeLeaf
  cases Tree.writeRevision? v (Path.split path) es <;> rfl

/-- Leaves resolved one after the other into a tree, given how a leaf is resolved. -/
def leavesWith (resolve : Value → Run σ φ Shared) :
    Flat Unit → List (Key × Shared) → Run σ φ (List (Key × Shared))
  | [], es => pure es
  | (path, leaf) :: rest, es => do
    let v ← resolve leaf
    leavesWith resolve rest (← r.writeLeaf es path v)

/-- The tree of a definition in one pass, given how a leaf is resolved. -/
def treeWith (resolve : Value → Run σ φ Shared) (definition : Value) : Run σ φ Shared := do
  let leaves ← ResolveError.ofExcept .flatten (definition.flatten "")
  Run.report ⟨.debug, .placeholders, "Resolving " ++ toString leaves.length ++ " leaves"⟩
  let es ← Run.withCache (r.leavesWith resolve leaves [])
  return .map none es

theorem leavesWith_resolveAt (leaves : Flat Unit) (es : List (Key × Shared)) :
    r.leavesWith (r.resolveAt 0) leaves es = r.resolveLeaves leaves es := by
  induction leaves generalizing es with
  | nil => rfl
  | cons leaf rest ih => simp only [leavesWith, resolveLeaves, ih]

theorem treeWith_resolveAt (definition : Value) :
    r.treeWith (r.resolveAt 0) definition = r.resolveTree definition := by
  simp only [treeWith, resolveTree, leavesWith_resolveAt]

/-- Leaves are resolved one part after the other. -/
theorem resolveLeaves_append (front back : Flat Unit) (es : List (Key × Shared)) :
    r.resolveLeaves (front ++ back) es = r.resolveLeaves front es >>= r.resolveLeaves back := by
  induction front generalizing es with
  | nil => simp [resolveLeaves]
  | cons leaf front ih =>
    obtain ⟨path, v⟩ := leaf
    simp [resolveLeaves, ih]

/-- The state in which the first of so many leaves is resolved. -/
def begin (leaves : Nat) (s : Scratch σ) : Scratch σ :=
  { s with
    cache := some []
    log := ⟨.debug, .placeholders, "Resolving " ++ toString leaves ++ " leaves"⟩ :: s.log }

/-- A definition is resolved in a pass of its own, whatever is left of the one before. -/
theorem run_treeWith (resolve : Value → Run σ φ Shared) (definition : Value) (s : Scratch σ) :
    (r.treeWith resolve definition).run s =
      match definition.flatten "" with
      | .error e => (.error (.flatten e), s)
      | .ok leaves =>
        match (r.leavesWith resolve leaves []).run (begin leaves.length s) with
        | (.error e, t) => (.error e, { t with cache := none })
        | (.ok es, t) => (.ok (.map none es), { t with cache := none }) := by
  unfold treeWith
  rw [Run.run_bind]
  cases definition.flatten "" with
  | error e => rfl
  | ok leaves =>
    let s' := { s with
      log := ⟨.debug, .placeholders, "Resolving " ++ toString leaves.length ++ " leaves"⟩ :: s.log }
    change (Run.withCache (r.leavesWith resolve leaves []) >>= fun es => pure (.map none es) :
      Run σ φ Shared).run s' = _
    have hpass : (Run.withCache (r.leavesWith resolve leaves [])).run s' =
        (((r.leavesWith resolve leaves []).run (begin leaves.length s)).1,
          { ((r.leavesWith resolve leaves []).run (begin leaves.length s)).2 with
            cache := none }) := rfl
    rw [Run.run_bind, hpass]
    dsimp only
    rcases (r.leavesWith resolve leaves []).run (begin leaves.length s) with ⟨_ | es, t⟩ <;> rfl

theorem run_resolveTree (definition : Value) (s : Scratch σ) :
    (r.resolveTree definition).run s =
      match definition.flatten "" with
      | .error e => (.error (.flatten e), s)
      | .ok leaves =>
        match (r.resolveLeaves leaves []).run (begin leaves.length s) with
        | (.error e, t) => (.error e, { t with cache := none })
        | (.ok es, t) => (.ok (.map none es), { t with cache := none }) := by
  simp only [← treeWith_resolveAt, run_treeWith, leavesWith_resolveAt]

/-- Only a legible mapping has a tree. -/
theorem exists_map_of_treeWith {resolve : Value → Run σ φ Shared} {definition : Value}
    {s t : Scratch σ} {tree : Shared}
    (h : (r.treeWith resolve definition).run s = (.ok tree, t)) :
    ∃ es, definition = .map () es ∧ Tree.areLegible es = true := by
  rw [run_treeWith] at h
  cases hflat : definition.flatten "" with
  | error e =>
    rw [hflat] at h
    cases h
  | ok leaves =>
    obtain ⟨_, es, rfl, hes, -⟩ := Tree.flatten_eq_ok_iff.1 hflat
    exact ⟨es, rfl, hes⟩

theorem exists_map_of_resolveTree {definition : Value} {s t : Scratch σ} {tree : Shared}
    (h : (r.resolveTree definition).run s = (.ok tree, t)) :
    ∃ es, definition = .map () es ∧ Tree.areLegible es = true := by
  rw [← treeWith_resolveAt] at h
  exact r.exists_map_of_treeWith h

/-- The tree of a definition holds its leaves, resolved one after the other. -/
theorem exists_of_treeWith_map {resolve : Value → Run σ φ Shared} {es : List (Key × Value)}
    {s t : Scratch σ} {tree : Shared}
    (h : (r.treeWith resolve (.map () es)).run s = (.ok tree, t)) :
    ∃ es' t', (r.leavesWith resolve (Tree.flattenEntries "" es) []).run
        (begin (Tree.flattenEntries "" es).length s) = (.ok es', t') ∧
      tree = .map none es' ∧ t = { t' with cache := none } := by
  obtain ⟨_, hmap, hlegible⟩ := r.exists_map_of_treeWith h
  cases hmap
  rw [run_treeWith, Tree.flatten_of_areLegible () hlegible] at h
  dsimp only at h
  generalize (r.leavesWith resolve (Tree.flattenEntries "" es) []).run
    (begin (Tree.flattenEntries "" es).length s) = xs at h ⊢
  obtain ⟨_ | es', t'⟩ := xs
  · cases h
  · cases h
    exact ⟨es', t', rfl, rfl, rfl⟩

theorem exists_of_resolveTree_map {es : List (Key × Value)} {s t : Scratch σ} {tree : Shared}
    (h : (r.resolveTree (.map () es)).run s = (.ok tree, t)) :
    ∃ es' t', (r.resolveLeaves (Tree.flattenEntries "" es) []).run
        (begin (Tree.flattenEntries "" es).length s) = (.ok es', t') ∧
      tree = .map none es' ∧ t = { t' with cache := none } := by
  rw [← treeWith_resolveAt] at h
  simpa only [leavesWith_resolveAt] using r.exists_of_treeWith_map h

end Resolver

/-- Keys agree if they name the same container, with as many passes left, and the same containers
further up. -/
theorem CacheKey.agrees_iff {k l : CacheKey} :
    k.agrees l = true ↔ k.left = l.left ∧ k.address = l.address ∧
      k.active.length = l.active.length ∧ ∀ a ∈ k.active, a ∈ l.active := by
  unfold agrees
  simp only [Bool.and_eq_true, decide_eq_true_eq, List.all_eq_true, List.contains_iff_mem,
    and_assoc]

/-- A result held for a key is held under one that agrees with it. -/
theorem Cache.exists_mem_of_find? {key : CacheKey} {c : Cache} {v : Shared}
    (h : find? key c = some v) : ∃ l, (l, v) ∈ c ∧ key.agrees l = true := by
  induction c with
  | nil => cases h
  | cons e c ih =>
    obtain ⟨l, w⟩ := e
    simp only [find?] at h
    split at h
    · rename_i hagrees
      cases h
      exact ⟨l, List.mem_cons_self, hagrees⟩
    · obtain ⟨l', hl', hagrees⟩ := ih h
      exact ⟨l', List.mem_cons_of_mem _ hl', hagrees⟩

/-! ## Outcomes side by side -/

variable {σ σ' φ : Type}

/-- Two runs end alike in related states, unless the error of the first one is excused. -/
inductive Run.Agree {β γ : Type} (St : Scratch σ → Scratch σ' → Prop)
    (excused : ResolveError φ → Prop) (Q : β → γ → Prop) :
    Except (ResolveError φ) β × Scratch σ → Except (ResolveError φ) γ × Scratch σ' → Prop
  /-- Both give a result. -/
  | ok {b : β} {c : γ} {t : Scratch σ} {t' : Scratch σ'} :
    Q b c → St t t' → Agree St excused Q (.ok b, t) (.ok c, t')
  /-- Both end with the same error. -/
  | error {e : ResolveError φ} {t : Scratch σ} {t' : Scratch σ'} :
    St t t' → Agree St excused Q (.error e, t) (.error e, t')
  /-- The first one ends with an error that is excused. -/
  | excused {e : ResolveError φ} {t : Scratch σ} {out : Except (ResolveError φ) γ × Scratch σ'} :
    excused e → Agree St excused Q (.error e, t) out

section Agree

variable {β γ : Type} {St : Scratch σ → Scratch σ' → Prop} {excused : ResolveError φ → Prop}
  {Q Q' : β → γ → Prop} {out : Except (ResolveError φ) β × Scratch σ}
  {out' : Except (ResolveError φ) γ × Scratch σ'}

theorem Run.Agree.mono (hQ : ∀ b c, Q b c → Q' b c) (h : Agree St excused Q out out') :
    Agree St excused Q' out out' := by
  cases h with
  | ok h ht => exact .ok (hQ _ _ h) ht
  | error ht => exact .error ht
  | excused he => exact .excused he

/-- Runs that end alike still do so after a change of their states that keeps these related. -/
theorem Run.Agree.leave {St' : Scratch σ → Scratch σ' → Prop} {leave : Scratch σ → Scratch σ}
    {leave' : Scratch σ' → Scratch σ'} (hleave : ∀ t t', St t t' → St' (leave t) (leave' t'))
    (h : Agree St excused Q out out') :
    Agree St' excused Q (out.1, leave out.2) (out'.1, leave' out'.2) := by
  cases h with
  | ok h ht => exact .ok h (hleave _ _ ht)
  | error ht => exact .error (hleave _ _ ht)
  | excused he => exact .excused he

end Agree

/-- Runs related by how they end when they start in related states. -/
def Run.sideBySide (St : Scratch σ → Scratch σ' → Prop) (excused : ResolveError φ → Prop) :
    Relator (Run σ φ) (Run σ' φ) where
  rel Q x y := ∀ s s', St s s' → Agree St excused Q (x.run s) (y.run s')
  rel_pure hQ s s' hs := .ok hQ hs
  rel_bind {_ _ _ _ P Q x y f g} hxy hfg s s' hs := by
    rw [run_bind, run_bind]
    have h := hxy s s' hs
    generalize x.run s = xs at h ⊢
    generalize y.run s' = ys at h ⊢
    cases h with
    | ok hP ht => exact hfg _ _ hP _ _ ht
    | error ht => exact .error ht
    | excused he => exact .excused he
  rel_mono hQ hxy s s' hs := (hxy s s' hs).mono hQ

/-- What a relation between the states of two resolutions has to respect. -/
structure StateRelation (V : Shared → Shared → Prop) (k : Nat)
    (St : Scratch σ → Scratch σ' → Prop) : Prop where
  active {s s'} : St s s' → s'.active = s.active
  isSome {s s'} : St s s' → s'.cache.isSome = s.cache.isSome
  report {s s'} (e : LogEntry) :
    St s s' → St { s with log := e :: s.log } { s' with log := e :: s'.log }
  enter {s s'} (a : Address) :
    St s s' → St { s with active := a :: s.active } { s' with active := a :: s'.active }
  leave {s s'} (a : Address) :
    St s s' → St { s with active := s.active.erase a } { s' with active := s'.active.erase a }
  openCache {s s'} : St s s' → St { s with cache := some [] } { s' with cache := some [] }
  closeCache {s s'} : St s s' → St { s with cache := none } { s' with cache := none }
  find? {s s'} (a : Address) (left : Nat) : St s s' →
    Option.Rel V ((s.cache.getD []).find? ⟨a, left, s.active⟩)
      ((s'.cache.getD []).find? ⟨a, left + k, s'.active⟩)
  mark {s s'} {v w : Shared} : St s s' → V v w →
    V (v.withMark (.result s.fresh)) (w.withMark (.result s'.fresh))
  insert {s s'} {v w : Shared} (a : Address) (left : Nat) (active : List Address) :
    St s s' → V v w →
      St { s with cache := s.cache.map ((⟨a, left, active⟩, v) :: ·), fresh := s.fresh + 1 }
        { s' with
          cache := s'.cache.map ((⟨a, left + k, active⟩, w) :: ·), fresh := s'.fresh + 1 }

namespace Run

variable {St : Scratch σ → Scratch σ' → Prop} {excused : ResolveError φ → Prop}

/-- Steps between two changes of the state keep step if the changes do. -/
theorem rel_between {St' : Scratch σ → Scratch σ' → Prop} {β γ : Type} {Q : β → γ → Prop}
    {x : Run σ φ β} {y : Run σ' φ γ} {enter leave : Scratch σ → Scratch σ}
    {enter' leave' : Scratch σ' → Scratch σ'}
    (henter : ∀ s s', St s s' → St' (enter s) (enter' s'))
    (hleave : ∀ s s', St' s s' → St (leave s) (leave' s'))
    (h : (sideBySide St' excused).rel Q x y) :
    (sideBySide St excused).rel Q (between enter leave x) (between enter' leave' y) :=
  fun s s' hs => (h _ _ (henter s s' hs)).leave hleave

variable {V : Shared → Shared → Prop} {k : Nat} (hSt : StateRelation V k St)

include hSt

theorem rel_report (e : LogEntry) :
    (sideBySide St excused).rel (fun _ _ => True) (report e) (report e) :=
  fun _ _ hs => .ok trivial (hSt.report e hs)

theorem rel_withActive {β γ : Type} {Q : β → γ → Prop} {x : Run σ φ β} {y : Run σ' φ γ}
    (a : Address) (h : (sideBySide St excused).rel Q x y) :
    (sideBySide St excused).rel Q (withActive a x) (withActive a y) :=
  rel_between (fun _ _ hs => hSt.enter a hs) (fun _ _ hs => hSt.leave a hs) h

theorem rel_withCache {β γ : Type} {Q : β → γ → Prop} {x : Run σ φ β} {y : Run σ' φ γ}
    (h : (sideBySide St excused).rel Q x y) :
    (sideBySide St excused).rel Q (withCache x) (withCache y) :=
  rel_between (fun _ _ hs => hSt.openCache hs) (fun _ _ hs => hSt.closeCache hs) h

end Run

/-! ## Resolvers that keep step -/

/-- Two resolvers answer alike wherever they do not work alike: at the end of the passes, in a
circle, and when they call functions.  The second one may have `k` passes more. -/
structure Resolver.KeepsStep (St : Scratch σ → Scratch σ' → Prop) (excused : ResolveError φ → Prop)
    (V : Shared → Shared → Prop) (k : Nat) (r : Resolver σ φ) (r' : Resolver σ' φ) : Prop where
  states : StateRelation V k St
  trees : TreeRelation V
  registry : r'.registry = r.registry
  exhausted (s : String) : Template.hasPlaceholder s.toList = true →
    (Run.sideBySide St excused).rel V (r.exhausted s) (r'.substitute k s)
  circular (v : Value) (reference : String) :
    (Run.sideBySide St excused).rel V (r.circular v reference) (r'.circular v reference)
  apply (f : FnHandle) {args args' : List Shared} : List.Forall₂ V args args' →
    (Run.sideBySide St excused).rel (OrSameText V) (r.apply f args) (r'.apply f args')

namespace Resolver.KeepsStep

variable {St : Scratch σ → Scratch σ' → Prop} {excused : ResolveError φ → Prop}
  {V : Shared → Shared → Prop} {k : Nat} {r : Resolver σ φ} {r' : Resolver σ' φ}
  (h : KeepsStep St excused V k r r')

include h

theorem cachedContainer {resolve : Value → Run σ φ Shared} {resolve' : Value → Run σ' φ Shared}
    (hr : ∀ v, (Run.sideBySide St excused).rel V (resolve v) (resolve' v)) (left : Nat)
    (a : Address) (v : Value) (reference : String) :
    (Run.sideBySide St excused).rel V (r.cachedContainer resolve left a v reference)
      (r'.cachedContainer resolve' (left + k) a v reference) := by
  intro s s' hs
  rw [run_cachedContainer, run_cachedContainer, h.states.active hs]
  split
  · exact h.circular v reference s s' hs
  · have hfind := h.states.find? a left hs
    rw [h.states.active hs] at hfind
    generalize (s.cache.getD []).find? ⟨a, left, s.active⟩ = held at hfind ⊢
    generalize (s'.cache.getD []).find? ⟨a, left + k, s.active⟩ = held' at hfind ⊢
    cases hfind with
    | some hv => exact .ok hv hs
    | none =>
      have hrun := Run.rel_withActive h.states a (hr v) s s' hs
      simp only
      generalize (Run.withActive a (resolve v)).run s = xs at hrun ⊢
      generalize (Run.withActive a (resolve' v)).run s' = ys at hrun ⊢
      cases hrun with
      | ok hv ht =>
        have hmark := h.states.mark ht hv
        exact .ok hmark (h.states.insert a left s.active ht hmark)
      | error ht => exact .error ht
      | excused he => exact .excused he

theorem container {resolve : Value → Run σ φ Shared} {resolve' : Value → Run σ' φ Shared}
    (hr : ∀ v, (Run.sideBySide St excused).rel V (resolve v) (resolve' v)) (left : Nat)
    (a : Address) (v : Value) (reference : String) :
    (Run.sideBySide St excused).rel V (r.container resolve left a v reference)
      (r'.container resolve' (left + k) a v reference) := by
  intro s s' hs
  rw [run_container, run_container, h.states.isSome hs]
  split
  · exact h.cachedContainer hr left a v reference s s' hs
  · exact Run.rel_withCache h.states (h.cachedContainer hr left a v reference) s s' hs

/-- The engines of resolvers that keep step do so. -/
theorem simulates :
    Engine.Simulates (Run.sideBySide St excused) V k r.engine r'.engine where
  trees := h.trees
  registry := h.registry
  throw _ _ := fun _ _ hs => .error hs
  exhausted := h.exhausted
  unregistered _ := Run.rel_report h.states _
  apply := h.apply
  container left a v reference _ hr := h.container hr left a v reference

/-- The engines of resolvers that keep step are in step wherever they substitute texts alike. -/
theorem inStep {sub : String → Run σ φ Shared} {sub' : String → Run σ' φ Shared}
    (hsub : ∀ s, (Run.sideBySide St excused).rel V (sub s) (sub' s)) (left : Nat) :
    Engine.InStep (Run.sideBySide St excused) V r.engine sub left r'.engine sub' (left + k) where
  trees := h.trees
  registry := h.registry
  throw _ _ := fun _ _ hs => .error hs
  unregistered _ := Run.rel_report h.states _
  apply := h.apply
  text := hsub
  container reference _ :=
    h.container (rel_resolveWith h.trees (rel_resolveText h.trees hsub)) left _ _ reference

omit h in
/-- Leaves resolved alike make up trees that are alike if they are written alike. -/
theorem leavesWith {resolve : Value → Run σ φ Shared} {resolve' : Value → Run σ' φ Shared}
    (hr : ∀ v, (Run.sideBySide St excused).rel V (resolve v) (resolve' v))
    {Q : List (Key × Shared) → List (Key × Shared) → Prop}
    (hwrite : ∀ {es es'} (path : String) {v w}, Q es es' → V v w →
      (Run.sideBySide St excused).rel Q (r.writeLeaf es path v) (r'.writeLeaf es' path w))
    (leaves : Flat Unit) {es es' : List (Key × Shared)} (hes : Q es es') :
    (Run.sideBySide St excused).rel Q (r.leavesWith resolve leaves es)
      (r'.leavesWith resolve' leaves es') := by
  induction leaves generalizing es es' with
  | nil => exact (Run.sideBySide St excused).rel_pure hes
  | cons leaf rest ih =>
    refine Relator.rel_bind _ (hr leaf.2) fun v w hvw => ?_
    exact Relator.rel_bind _ (hwrite leaf.1 hes hvw) fun es es' hes => ih hes

/-- Leaves resolved alike make up trees of definitions that are alike if they are written alike. -/
theorem treeWith {resolve : Value → Run σ φ Shared} {resolve' : Value → Run σ' φ Shared}
    (hr : ∀ v, (Run.sideBySide St excused).rel V (resolve v) (resolve' v))
    {Q : List (Key × Shared) → List (Key × Shared) → Prop} {W : Shared → Shared → Prop}
    (hwrite : ∀ {es es'} (path : String) {v w}, Q es es' → V v w →
      (Run.sideBySide St excused).rel Q (r.writeLeaf es path v) (r'.writeLeaf es' path w))
    (hnil : Q [] []) (hmap : ∀ es es', Q es es' → W (.map none es) (.map none es'))
    (definition : Value) :
    (Run.sideBySide St excused).rel W (r.treeWith resolve definition)
      (r'.treeWith resolve' definition) := by
  have hleaves : (Run.sideBySide St excused).rel (fun b c => b = c ∧ definition.flatten "" = .ok b)
      (ResolveError.ofExcept .flatten (definition.flatten ""))
      (ResolveError.ofExcept .flatten (definition.flatten "")) :=
    rel_ofExcept (fun _ _ _ _ ht => .error ht) .flatten (definition.flatten "")
  refine Relator.rel_bind _ hleaves ?_
  rintro leaves _ ⟨rfl, -⟩
  refine Relator.rel_bind _ (Run.rel_report h.states _) fun _ _ _ => ?_
  have hpass := Run.rel_withCache h.states (leavesWith hr hwrite leaves hnil)
  exact Relator.rel_bind _ hpass fun es es' hes => Relator.rel_pure _ (hmap es es' hes)

/-- Resolvers that keep step resolve the leaves of a definition alike if they write them alike. -/
theorem resolveLeaves {Q : List (Key × Shared) → List (Key × Shared) → Prop}
    (hk : r'.passesLeft 0 = r.passesLeft 0 + k)
    (hwrite : ∀ {es es'} (path : String) {v w}, Q es es' → V v w →
      (Run.sideBySide St excused).rel Q (r.writeLeaf es path v) (r'.writeLeaf es' path w))
    (leaves : Flat Unit) {es es' : List (Key × Shared)} (hes : Q es es') :
    (Run.sideBySide St excused).rel Q (r.resolveLeaves leaves es)
      (r'.resolveLeaves leaves es') := by
  have hr : ∀ v, (Run.sideBySide St excused).rel V (r.resolveAt 0 v) (r'.resolveAt 0 v) := by
    intro v
    rw [resolveAt, resolveAt, hk]
    exact h.simulates.resolve (r.passesLeft 0) v
  rw [← leavesWith_resolveAt, ← leavesWith_resolveAt]
  exact leavesWith hr hwrite leaves hes

end Resolver.KeepsStep

end LayeredConfig
