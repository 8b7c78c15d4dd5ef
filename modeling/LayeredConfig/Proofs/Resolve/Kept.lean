import LayeredConfig.Proofs.Path.Writes
import LayeredConfig.Proofs.Resolve.Calls

/-!
# Results that are kept

Within a pass the result of a reference is held under what it depends on: the
container, the passes left and the containers being resolved further up.  Whatever is
resolved in the meantime, the result that is held for a reference at the top stays the
same one: it changes only as that object changes.  So a text that is exactly such a
reference takes it from there from the second time on.

* `Scratch.Later` — what stays from one state to a later one.
* `Run.keeping`, `Resolver.keeping_simulates` — no step of a resolver takes anything away.
* `Resolver.target?` — the container that a text leads to.
* `Resolver.run_resolveAt_of_held` — a reference whose result is held does nothing.
* `Resolver.held_of_resolveAt` — once it has a result, this is held.
-/

namespace LayeredConfig

open Template

/-! ## Containers -/

namespace Tree

/-- The value is made up of others, each of which is resolved if the value is. -/
def isComposite {α : Type} : Tree α → Bool
  | list _ _ => true
  | map _ _ => true
  | tuple _ => true
  | _ => false

theorem isContainer_withMark (share : Share) {v : Shared} (h : v.isContainer = true) :
    (v.withMark share).isContainer = true := by
  cases v with
  | list m items => rfl
  | map m es => rfl
  | _ => cases h

theorem isContainer_revise {rev : Revision} (hrev : rev.content.isContainer = true) {v : Shared}
    (h : v.isContainer = true) : (v.revise rev).isContainer = true := by
  rw [revise]
  cases v with
  | list m items =>
    rw [replaceShare]
    split
    · exact hrev
    · rfl
  | map m es =>
    rw [replaceShare]
    split
    · exact hrev
    · rfl
  | _ => cases h

/-- What a write changes is a mapping. -/
theorem isContainer_of_writeRevision? {v : Shared} {segments : List String}
    {es : List (Key × Shared)} {rev : Revision} (h : writeRevision? v segments es = some rev) :
    rev.content.isContainer = true := by
  induction segments generalizing es with
  | nil => simp [writeRevision?] at h
  | cons s ss ih =>
    obtain ⟨_, _, m, sub, ⟨⟩, -, hdeeper | ⟨-, hcontent⟩⟩ := writeRevision?_cases h
    · exact ih hdeeper
    · rw [hcontent]
      rfl

theorem reviseAll_append (later earlier : List Revision) (v : Shared) :
    reviseAll (later ++ earlier) v = reviseAll later (reviseAll earlier v) :=
  List.foldr_append

end Tree

/-- A container is no text, so no literal is read off it. -/
theorem coerce_of_isContainer {γ : Type} (given : Tree γ) {v : Shared}
    (h : v.isContainer = true) : coerce given v = v := by
  cases v with
  | atom a => cases h
  | _ => rfl

variable {σ φ : Type}

/-- A composite value has a container for its result. -/
theorem isContainer_of_resolveWith {text : String → Run σ φ Shared} {v : Value}
    (hv : v.isComposite = true) {s t : Scratch σ} {w : Shared}
    (h : (resolveWith text v).run s = (.ok w, t)) : w.isContainer = true := by
  cases v with
  | atom a => cases hv
  | set members => cases hv
  | _ =>
    obtain ⟨_, _, -, hend⟩ := Run.exists_of_bind h
    cases hend
    rfl

/-! ## What stays -/

theorem CacheKey.agrees_self (key : CacheKey) : key.agrees key = true :=
  CacheKey.agrees_iff.2 ⟨rfl, rfl, rfl, fun _ ha => ha⟩

/-- At the top a key agrees with itself alone. -/
theorem CacheKey.eq_of_agrees {a : Address} {left : Nat} {l : CacheKey}
    (h : agrees ⟨a, left, []⟩ l = true) : l = ⟨a, left, []⟩ := by
  obtain ⟨b, n, active⟩ := l
  obtain ⟨hleft, haddress, hlength, -⟩ := CacheKey.agrees_iff.1 h
  cases hleft
  cases haddress
  obtain rfl : active = [] := List.eq_nil_of_length_eq_zero hlength.symm
  rfl

/-- A result under another key does not show at the top. -/
theorem Cache.find?_cons_of_ne {a : Address} {left : Nat} {key : CacheKey}
    (h : key ≠ ⟨a, left, []⟩) (v : Shared) (c : Cache) :
    find? ⟨a, left, []⟩ ((key, v) :: c) = find? ⟨a, left, []⟩ c := by
  rw [find?, if_neg fun hagrees => h (CacheKey.eq_of_agrees hagrees)]

/-- The results that are held of references to composite values are containers. -/
def Scratch.Built (registry : Registry) (s : Scratch σ) : Prop :=
  ∀ e ∈ s.cache.getD [], ∀ v, registry.at? e.1.address = some v → v.isComposite = true →
    e.2.isContainer = true

/-- What stays from one state to a later one: the containers being resolved, whether a cache is
open, and, but for the changes made to them, the results held for references at the top. -/
structure Scratch.Later (registry : Registry) (s t : Scratch σ) : Prop where
  active : t.active = s.active
  isSome : t.cache.isSome = s.cache.isSome
  built : s.Built registry → t.Built registry
  held : ∃ changes, t.revisions = changes ++ s.revisions ∧ ∀ a left v,
    (s.cache.getD []).find? ⟨a, left, []⟩ = some v →
      (t.cache.getD []).find? ⟨a, left, []⟩ = some (Tree.reviseAll changes v)

namespace Scratch.Later

variable {registry : Registry} {s t u : Scratch σ}

theorem refl (registry : Registry) (s : Scratch σ) : s.Later registry s :=
  ⟨rfl, rfl, id, [], rfl, fun _ _ _ h => h⟩

theorem trans (hst : s.Later registry t) (htu : t.Later registry u) : s.Later registry u := by
  obtain ⟨earlier, hearlier, hheld⟩ := hst.held
  obtain ⟨later, hlater, hheld'⟩ := htu.held
  refine ⟨htu.active.trans hst.active, htu.isSome.trans hst.isSome,
    fun h => htu.built (hst.built h), later ++ earlier, ?_, fun a left v h => ?_⟩
  · rw [hlater, hearlier, List.append_assoc]
  · rw [Tree.reviseAll_append]
    exact hheld' a left _ (hheld a left v h)

/-- A container that has been resolved is left again. -/
theorem leave {a : Address} (h : Later registry { s with active := a :: s.active } t) :
    s.Later registry { t with active := t.active.erase a } := by
  refine ⟨?_, h.isSome, h.built, h.held⟩
  rw [h.active, List.erase_cons_head]

/-- A result may be put where none was held. -/
theorem insert (h : s.Later registry t) {key : CacheKey} {v : Shared}
    (hnone : (s.cache.getD []).find? key = none)
    (hv : ∀ u, registry.at? key.address = some u → u.isComposite = true → v.isContainer = true) :
    s.Later registry { t with cache := t.cache.map ((key, v) :: ·), fresh := t.fresh + 1 } := by
  obtain ⟨changes, hchanges, hheld⟩ := h.held
  refine ⟨h.active, Option.isSome_map.trans h.isSome, fun hbuilt => ?_, changes, hchanges,
    fun a left w hw => ?_⟩
  · have hbuilt' := h.built hbuilt
    unfold Built at hbuilt' ⊢
    dsimp only
    cases hcache : t.cache with
    | none => simp
    | some c =>
      rw [hcache] at hbuilt'
      exact List.forall_mem_cons.2 ⟨hv, hbuilt'⟩
  · have hne : key ≠ ⟨a, left, []⟩ := by
      rintro rfl
      rw [hw] at hnone
      cases hnone
    have hheld' := hheld a left w hw
    dsimp only
    cases hcache : t.cache with
    | none =>
      rw [hcache] at hheld'
      cases hheld'
    | some c =>
      rw [hcache] at hheld'
      exact (Cache.find?_cons_of_ne hne v c).trans hheld'

end Scratch.Later

/-- Steps that are the same, and take nothing away. -/
def Run.keeping (registry : Registry) : Relator (Run σ φ) (Run σ φ) where
  rel Q x y := ∀ s : Scratch σ,
    SameEnd Q (x.run s).1 (y.run s).1 ∧ (y.run s).2 = (x.run s).2 ∧
      s.Later registry (x.run s).2
  rel_pure hQ s := ⟨.ok hQ, rfl, .refl registry s⟩
  rel_bind {_ _ _ _ P Q x y f g} hx hf s := by
    obtain ⟨hend, hsame, hlater⟩ := hx s
    rw [run_bind, run_bind]
    generalize x.run s = xs at hend hsame hlater ⊢
    generalize y.run s = ys at hend hsame ⊢
    obtain ⟨first, t⟩ := xs
    obtain ⟨second, t'⟩ := ys
    obtain rfl : t' = t := hsame
    cases hend with
    | ok hP =>
      obtain ⟨hend, hsame, hlater'⟩ := hf _ _ hP t'
      exact ⟨hend, hsame, hlater.trans hlater'⟩
    | error e => exact ⟨.error e, rfl, hlater⟩
  rel_mono {_ _ _ _ x y} hQ hx s := by
    obtain ⟨hend, hrest⟩ := hx s
    refine ⟨?_, hrest⟩
    generalize (x.run s).1 = out at hend ⊢
    generalize (y.run s).1 = out' at hend ⊢
    cases hend with
    | ok h => exact .ok (hQ _ _ h)
    | error e => exact .error e

namespace Run

variable {registry : Registry}

theorem keeping_throw {β γ : Type} (Q : β → γ → Prop) (e : ResolveError φ) :
    (keeping (σ := σ) registry).rel Q (throw e) (throw e) :=
  fun s => ⟨.error e, rfl, .refl registry s⟩

/-- A run takes nothing away if it is related to itself. -/
theorem keeping_self {β : Type} {x : Run σ φ β}
    (h : ∀ s : Scratch σ, s.Later registry (x.run s).2) :
    (keeping registry).rel Eq x x := by
  intro s
  refine ⟨?_, rfl, h s⟩
  cases (x.run s).1 with
  | ok b => exact .ok rfl
  | error e => exact .error e

theorem later_of_keeping {β γ : Type} {Q : β → γ → Prop} {x : Run σ φ β} {y : Run σ φ γ}
    (h : (keeping registry).rel Q x y) (s : Scratch σ) : s.Later registry (x.run s).2 :=
  (h s).2.2

theorem later_report (entry : LogEntry) (s : Scratch σ) :
    s.Later registry ((report entry : Run σ φ Unit).run s).2 :=
  ⟨rfl, rfl, id, [], rfl, fun _ _ _ h => h⟩

end Run

namespace Resolver

variable (r : Resolver σ φ)

theorem later_exhausted (text : String) (s : Scratch σ) :
    s.Later r.registry ((r.exhausted text).run s).2 := by
  unfold exhausted
  split
  · exact .refl _ s
  · exact Run.later_report (φ := φ) _ s

theorem later_circular (v : Value) (reference : String) (s : Scratch σ) :
    s.Later r.registry ((r.circular v reference).run s).2 := by
  unfold circular
  split
  · exact .refl _ s
  · exact Run.later_report (φ := φ) _ s

theorem later_apply (f : FnHandle) (args : List Shared) (s : Scratch σ) :
    s.Later r.registry ((r.apply f args).run s).2 := by
  rw [run_apply]
  exact ⟨rfl, rfl, id, [], rfl, fun _ _ _ h => h⟩

/-- A result is put into the cache only where none is held, so none is lost. -/
theorem later_cachedContainer {resolve : Value → Run σ φ Shared}
    (hr : ∀ u (s : Scratch σ), s.Later r.registry ((resolve u).run s).2) {v : Value}
    (hv : v.isComposite = true → ∀ s t w, (resolve v).run s = (.ok w, t) → w.isContainer = true)
    (left : Nat) {a : Address} (ha : r.registry.at? a = some v) (reference : String)
    (s : Scratch σ) :
    s.Later r.registry ((r.cachedContainer resolve left a v reference).run s).2 := by
  rw [run_cachedContainer]
  split
  · exact r.later_circular v reference s
  · cases hfind : (s.cache.getD []).find? ⟨a, left, s.active⟩ with
    | some held => exact .refl _ s
    | none =>
      have hlater := hr v { s with active := a :: s.active }
      have hcontainer := fun hcomposite => hv hcomposite { s with active := a :: s.active }
      dsimp only
      rw [Run.withActive, Run.run_between]
      generalize (resolve v).run { s with active := a :: s.active } = xs
        at hlater hcontainer ⊢
      obtain ⟨_ | plain, t⟩ := xs
      · exact hlater.leave
      · refine hlater.leave.insert hfind fun u hu hcomposite => ?_
        obtain rfl : v = u := Option.some.inj (ha.symm.trans hu)
        exact Tree.isContainer_withMark _ (hcontainer hcomposite t plain rfl)

/-- Outside a pass nothing is held, and nothing is left. -/
theorem later_container {resolve : Value → Run σ φ Shared}
    (hr : ∀ u (s : Scratch σ), s.Later r.registry ((resolve u).run s).2) {v : Value}
    (hv : v.isComposite = true → ∀ s t w, (resolve v).run s = (.ok w, t) → w.isContainer = true)
    (left : Nat) {a : Address} (ha : r.registry.at? a = some v) (reference : String)
    (s : Scratch σ) :
    s.Later r.registry ((r.container resolve left a v reference).run s).2 := by
  have hcached := r.later_cachedContainer hr hv left ha reference
  rw [run_container]
  split
  · exact hcached s
  · rename_i hclosed
    have hnone : s.cache = none := by simpa using hclosed
    obtain ⟨changes, hchanges, -⟩ := (hcached { s with cache := some [] }).held
    refine ⟨(hcached _).active, ?_, fun _ => nofun, changes, hchanges, fun b n w hw => ?_⟩
    · rw [hnone]
      rfl
    · rw [hnone] at hw
      cases hw

/-- The engine of a resolver takes nothing away, whatever it resolves. -/
theorem keeping_simulates :
    Engine.Simulates (Run.keeping r.registry) Eq 0 r.engine r.engine where
  trees := treeRelation_eq
  registry := rfl
  throw Q e := Run.keeping_throw Q e
  exhausted s hs := by
    rw [Engine.substitute_zero _ hs]
    exact Run.keeping_self (r.later_exhausted s)
  unregistered name := Relator.rel_mono _ (fun _ _ _ => trivial)
    (Run.keeping_self (Run.later_report _))
  apply f args args' hargs := by
    rw [List.forall₂_eq_eq_eq] at hargs
    rw [hargs]
    exact Relator.rel_mono _ (fun _ _ h => Or.inl h) (Run.keeping_self (r.later_apply f args'))
  container left a v reference ha hr :=
    Run.keeping_self (r.later_container (fun u => Run.later_of_keeping (hr u))
      (fun hv _ _ _ => isContainer_of_resolveWith hv) left ha reference)

/-- Resolving a value takes nothing away. -/
theorem later_resolve (left : Nat) (v : Value) (s : Scratch σ) :
    s.Later r.registry ((r.engine.resolve left v).run s).2 :=
  Run.later_of_keeping (r.keeping_simulates.resolve left v) s

/-- A leaf that is written changes what is held as it changes that very object. -/
theorem later_writeLeaf (es : List (Key × Shared)) (path : String) (v : Shared) (s : Scratch σ) :
    s.Later r.registry ((r.writeLeaf es path v).run s).2 := by
  rw [run_writeLeaf]
  cases hrev : Tree.writeRevision? v (Path.split path) es with
  | none => exact .refl _ s
  | some rev =>
    have hcontent := Tree.isContainer_of_writeRevision? hrev
    refine ⟨rfl, Option.isSome_map, fun hbuilt => ?_, [rev], rfl, fun a left w hw => ?_⟩
    · unfold Scratch.Built at hbuilt ⊢
      cases hcache : s.cache with
      | none => simp
      | some c =>
        rw [hcache] at hbuilt
        intro e he u hu hcomposite
        obtain ⟨held, hmem, rfl⟩ := List.mem_map.1 he
        exact Tree.isContainer_revise hcontent (hbuilt held hmem u hu hcomposite)
    · cases hcache : s.cache with
      | none =>
        rw [hcache] at hw
        cases hw
      | some c =>
        rw [hcache] at hw
        exact (Cache.find?_map (Tree.revise rev) _ c).trans (congrArg (Option.map _) hw)

/-! ## References to containers -/

/-- Where the container stands that a text leads to, if the text is exactly one reference, whatever
its defaults. -/
def target? (text : String) : Option Address :=
  match scan text.toList with
  | [.hole p] =>
    match p.sigil, (r.registry.get? p.spaceName).map (Tree.find? (p.tokens.headD "")) with
    | .lookup, some (.ok (some (steps, v))) =>
      if v.isComposite then some ⟨p.spaceName, steps⟩ else none
    | _, _ => none
  | _ => none

theorem exists_of_target? {text : String} {a : Address} (h : r.target? text = some a) :
    ∃ p root v, scan text.toList = [.hole p] ∧ p.sigil = .lookup ∧ p.spaceName = a.space ∧
      r.registry.get? a.space = some root ∧
      Tree.find? (p.tokens.headD "") root = .ok (some (a.steps, v)) ∧ v.isComposite = true := by
  unfold target? at h
  split at h
  · rename_i p hscan
    split at h
    · rename_i steps v hsigil hfound
      split at h
      · rename_i hv
        cases h
        obtain ⟨root, hroot, hfind⟩ := Option.map_eq_some_iff.1 hfound
        exact ⟨p, root, v, hscan, hsigil, rfl, hroot, hfind, hv⟩
      · cases h
    · cases h
  · cases h

/-- A text that is exactly a reference to a container takes what this has for its result, with a
pass less. -/
theorem substitute_of_target? {text : String} {a : Address} (h : r.target? text = some a) :
    ∃ v reference, r.registry.at? a = some v ∧ v.isComposite = true ∧
      ∀ left, r.engine.substitute (left + 1) text =
        r.container (r.engine.resolve left) left a v reference := by
  obtain ⟨space, steps⟩ := a
  obtain ⟨p, root, v, hscan, hsigil, hspace, hroot, hfind, hv⟩ := r.exists_of_target? h
  obtain rfl : p.spaceName = space := hspace
  refine ⟨v, referenceText p.spaceName (p.tokens.headD ""), ?_, hv, fun left => ?_⟩
  · refine @Registry.at?_of_find? r.registry p.spaceName (p.tokens.headD "") v steps ?_
    rw [hroot]
    exact hfind
  · have hroot' : r.engine.registry.get? p.spaceName = some root := hroot
    have hlookup : r.engine.evaluate (r.engine.substitute left) left p =
        r.container (r.engine.resolve left) left ⟨p.spaceName, steps⟩ v
          (referenceText p.spaceName (p.tokens.headD "")) := by
      rw [Engine.evaluate, hsigil]
      simp only [Engine.lookup, hroot', hfind, ResolveError.ofExcept, pure_bind]
      cases v with
      | atom b => cases hv
      | set members => cases hv
      | _ => rfl
    rw [Engine.substitute_exact _ hscan, hlookup, hsigil]
    exact bind_pure _

/-- A reference whose result is held has it for its value, and nothing else happens: no function is
called, and nothing is reported. -/
theorem run_resolveAt_of_held {text : String} {a : Address} (h : r.target? text = some a)
    {left : Nat} (hleft : r.passesLeft 0 = left + 1) {s : Scratch σ} (hactive : s.active = [])
    (hopen : s.cache.isSome = true) {w : Shared} (hw : w.isContainer = true)
    (hheld : (s.cache.getD []).find? ⟨a, left, []⟩ = some w) :
    (r.resolveAt 0 (.str text)).run s = (.ok w, s) := by
  obtain ⟨v, reference, -, -, hsubstitute⟩ := r.substitute_of_target? h
  have hcontainer : (r.engine.substitute (left + 1) text).run s = (.ok w, s) := by
    rw [hsubstitute, run_container, if_pos hopen, run_cachedContainer, hactive, hheld]
    rfl
  rw [resolveAt, hleft, Engine.resolve, resolveWith, resolveText, Run.run_bind, hcontainer]
  dsimp only
  rw [coerce_of_isContainer _ hw]
  rfl

/-- A reference at the top that has a result leaves it held. -/
theorem held_of_resolveAt {text : String} {a : Address} (h : r.target? text = some a) {left : Nat}
    (hleft : r.passesLeft 0 = left + 1) {s t : Scratch σ} (hactive : s.active = [])
    (hopen : s.cache.isSome = true) (hbuilt : s.Built r.registry) {w : Shared}
    (hrun : (r.resolveAt 0 (.str text)).run s = (.ok w, t)) :
    w.isContainer = true ∧ (t.cache.getD []).find? ⟨a, left, []⟩ = some w := by
  obtain ⟨v, reference, ha, hv, hsubstitute⟩ := r.substitute_of_target? h
  cases hfind : (s.cache.getD []).find? ⟨a, left, []⟩ with
  | some held =>
    obtain ⟨l, hl, hagrees⟩ := Cache.exists_mem_of_find? hfind
    obtain rfl := CacheKey.eq_of_agrees hagrees
    have hheld : held.isContainer = true := hbuilt _ hl v ha hv
    rw [r.run_resolveAt_of_held h hleft hactive hopen hheld hfind] at hrun
    cases hrun
    exact ⟨hheld, hfind⟩
  | none =>
    rw [resolveAt, hleft, Engine.resolve, resolveWith, resolveText, hsubstitute] at hrun
    obtain ⟨w', t', hrun, hend⟩ := Run.exists_of_bind hrun
    cases hend
    have hkey : (⟨a, left, s.active⟩ : CacheKey) = ⟨a, left, []⟩ := by rw [hactive]
    have houter : ¬ s.active.contains a = true := by simp [hactive]
    rw [run_container, if_pos hopen, run_cachedContainer, if_neg houter, hkey, hfind,
      Run.withActive, Run.run_between] at hrun
    have hlater := r.later_resolve left v { s with active := a :: s.active }
    generalize hresolve : (r.engine.resolve left v).run { s with active := a :: s.active } = xs
      at hlater hrun
    obtain ⟨_ | plain, u⟩ := xs
    · cases hrun
    · cases hrun
      have hresult := Tree.isContainer_withMark (.result u.fresh)
        (isContainer_of_resolveWith hv hresolve)
      rw [coerce_of_isContainer _ hresult]
      refine ⟨hresult, ?_⟩
      obtain ⟨c, hc⟩ := Option.isSome_iff_exists.1 (hlater.isSome.trans hopen)
      dsimp only at hc ⊢
      rw [hc, Option.map_some, Option.getD_some, Cache.find?, if_pos (CacheKey.agrees_self _)]

end Resolver

end LayeredConfig
