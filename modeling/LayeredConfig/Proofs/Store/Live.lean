import LayeredConfig.Proofs.Store.History

/-!
# What changes in place leave behind

Whoever takes a container out of the resolved tree may change it, and the change shows
in the tree.  With pure functions that is all it does: a run of calls with such changes
between them keeps step with the run without them in everything but the tree and what
functions remember, and the next call that resolves the definition makes the trees
equal again, out of containers that it has numbered itself.

* `Store.Alike` — two stores that may differ in their resolved trees.
* `Store.Alike.refresh`, `Store.Alike.run`, `Store.Alike.steps` — they stay alike.
* `Store.forgotten_by_calls` — a run with changes beside the run without them.
-/

namespace LayeredConfig

variable {σ φ : Type}

/-- What functions remember does not show in the outcome of a resolution, nor in the numbers that it
has given when it ends. -/
theorem Resolver.resolveTree_memory (r : Resolver σ φ)
    {answer : FnHandle → List Shared → Except φ Shared} (h : r.host.Pure answer)
    (definition : Value) (memory memory' : σ) (n : Nat) :
    let out := (r.resolveTree definition).run { Scratch.start memory with fresh := n }
    let out' := (r.resolveTree definition).run { Scratch.start memory' with fresh := n }
    out'.1 = out.1 ∧ out'.2.fresh = out.2.fresh := by
  intro out out'
  obtain ⟨hi, hagree⟩ : ∃ hi, Run.Agree (Scratch.Moved n hi) (fun _ => False) (Tree.Moved n hi)
      ((r.resolveTree definition).run (Scratch.start memory)) out :=
    ⟨out.2.fresh, r.agree_resolveTree h definition memory memory n rfl⟩
  obtain ⟨hi', hagree'⟩ : ∃ hi, Run.Agree (Scratch.Moved n hi) (fun _ => False) (Tree.Moved n hi)
      ((r.resolveTree definition).run (Scratch.start memory)) out' :=
    ⟨out'.2.fresh, r.agree_resolveTree h definition memory memory' n rfl⟩
  -- both are the same first resolution with its numbers moved on as far
  generalize (r.resolveTree definition).run (Scratch.start memory) = first at hagree hagree'
  generalize out = x at hagree ⊢
  generalize out' = y at hagree' ⊢
  cases hagree with
  | ok hv ht =>
    cases hagree' with
    | ok hw hu => exact ⟨congrArg Except.ok (hw.1.trans hv.1.symm), hu.fresh.trans ht.fresh.symm⟩
  | error ht =>
    cases hagree' with
    | error hu => exact ⟨rfl, hu.fresh.trans ht.fresh.symm⟩
    | excused he => exact he.elim
  | excused he => exact he.elim

namespace Store

/-! ## Stores that differ in their trees -/

/-- Two stores that may differ in their resolved trees, in what functions remember and in what was
reported. -/
structure Alike (s s' : Store σ φ) : Prop where
  host : s'.host = s.host
  maxDepth : s'.maxDepth = s.maxDepth
  strict : s'.strict = s.strict
  namespaces : s'.namespaces = s.namespaces
  fresh : s'.fresh = s.fresh

namespace Alike

theorem refl (s : Store σ φ) : Alike s s :=
  ⟨rfl, rfl, rfl, rfl, rfl⟩

variable {s s' s'' : Store σ φ}

theorem trans (h : Alike s s') (h' : Alike s' s'') : Alike s s'' :=
  ⟨h'.host.trans h.host, h'.maxDepth.trans h.maxDepth, h'.strict.trans h.strict,
    h'.namespaces.trans h.namespaces, h'.fresh.trans h.fresh⟩

theorem symm (h : Alike s s') : Alike s' s :=
  ⟨h.host.symm, h.maxDepth.symm, h.strict.symm, h.namespaces.symm, h.fresh.symm⟩

theorem registry (h : Alike s s') : s'.registry = s.registry := by
  rw [Store.registry, h.namespaces]
  rfl

theorem definition (h : Alike s s') : s'.definition = s.definition :=
  congrArg Registry.definition h.registry

theorem resolver (h : Alike s s') : s'.resolver = s.resolver := by
  rw [Store.resolver, h.registry, h.host, h.maxDepth, h.strict]
  rfl

/-- A new resolution of alike stores ends alike, and if it gives a tree, it gives the same one, with
new marks only. -/
theorem refresh (h : Alike s s') {answer : FnHandle → List Shared → Except φ Shared}
    (hpure : s.host.Pure answer) :
    Alike s.refresh.1 s'.refresh.1 ∧ s'.refresh.2 = s.refresh.2 ∧
      (s.refresh.2 = .ok () → s'.refresh.1.resolved = s.refresh.1.resolved ∧
        s.refresh.1.resolved.AllMarks (Share.Between s.fresh s.refresh.1.fresh)) := by
  have hmemory := s.resolver.resolveTree_memory hpure s.definition s.memory s'.memory s.fresh
  have hrun' : (s'.resolver.resolveTree s'.definition).run s'.scratch =
      (s.resolver.resolveTree s.definition).run
        { Scratch.start s'.memory with fresh := s.fresh } := by
    rw [h.resolver, h.definition, scratch, h.fresh]
  change _ = ((s.resolver.resolveTree s.definition).run s.scratch).1 ∧
    _ = ((s.resolver.resolveTree s.definition).run s.scratch).2.fresh at hmemory
  rw [← hrun'] at hmemory
  rcases s.refresh_cases with ⟨tree, t, hrun, heq⟩ | ⟨e, t, hrun, heq⟩ <;>
    rcases s'.refresh_cases with ⟨tree', t', hrun', heq'⟩ | ⟨e', t', hrun', heq'⟩ <;>
      rw [hrun, hrun'] at hmemory <;> obtain ⟨hout, hfresh⟩ := hmemory <;> cases hout <;>
        rw [heq, heq']
  · obtain ⟨-, hmarks, -⟩ := s.resolver.resolveTree_renumbered hpure hrun
    exact ⟨⟨h.host, h.maxDepth, h.strict, h.namespaces, hfresh⟩, rfl, fun _ =>
      ⟨rfl, hmarks tree rfl⟩⟩
  · exact ⟨⟨h.host, h.maxDepth, h.strict, h.namespaces, hfresh⟩, rfl, nofun⟩

end Alike

/-- A call on alike stores ends alike, and if it resolves the definition, the trees are the same
then, with new marks only. -/
theorem Alike.run {s s' : Store σ φ} (h : Alike s s')
    {answer : FnHandle → List Shared → Except φ Shared} (hpure : s.host.Pure answer) (c : Call) :
    Alike (c.run s).1 (c.run s').1 ∧ (c.run s').2 = (c.run s).2 ∧
      (c.resolves = true → (c.run s).2 = .ok () →
        (c.run s').1.resolved = (c.run s).1.resolved ∧
          (c.run s).1.resolved.AllMarks (Share.Between s.fresh (c.run s).1.fresh)) := by
  rcases c.exists_run_eq (σ := σ) (φ := φ) s.namespaces with
    ⟨hnone, hrun⟩ | ⟨entries, e, hrun⟩ | ⟨entries, r, -, hrun⟩
  · rw [hrun, hrun, hnone]
    exact ⟨h, rfl, nofun⟩
  · rw [hrun s rfl, hrun s' h.namespaces]
    exact ⟨⟨h.host, h.maxDepth, h.strict, h.namespaces, h.fresh⟩, rfl, nofun⟩
  · have hchanged : Alike ({ s with namespaces := r, log := entries ++ s.log } : Store σ φ)
        { s' with namespaces := r, log := entries ++ s'.log } :=
      ⟨h.host, h.maxDepth, h.strict, rfl, h.fresh⟩
    rw [hrun s rfl, hrun s' h.namespaces]
    obtain ⟨hend, hout, htree⟩ := hchanged.refresh hpure
    exact ⟨hend, hout, fun _ => htree⟩

/-! ## Runs with changes -/

/-- What is done to a store: it is called, or a container of its resolved tree is changed. -/
inductive Step where
  /-- A call. -/
  | call (c : Call)
  /-- Appends to the list at a path. -/
  | append (path : String) (v : Value)
  /-- Writes a key of the mapping at a path. -/
  | put (path : String) (key v : Value)

namespace Step

/-- The step is a call. -/
def isCall : Step → Bool
  | call _ => true
  | _ => false

/-- The store after a step; a change that is refused leaves it as it is. -/
def after (s : Store σ φ) : Step → Store σ φ
  | call c => (c.run s).1
  | append path v =>
    match s.append path v with
    | .ok (.made s') => s'
    | _ => s
  | put path key v =>
    match s.put path key v with
    | .ok (.ok (.made s')) => s'
    | _ => s

end Step

/-- A change of a container of the tree does not reach the definition, which holds none of them. -/
theorem alike_modifyLive (s : Store σ φ) (f : Shared → Shared) (steps : List Nat) :
    Alike s (s.modifyLive f steps) := by
  unfold modifyLive
  split
  · refine ⟨rfl, rfl, rfl, ?_, rfl⟩
    rw [Definition.revise_eq]
  · exact ⟨rfl, rfl, rfl, rfl, rfl⟩

theorem exists_of_append {s s' : Store σ φ} {path : String} {v : Value}
    (h : s.append path v = .ok (.made s')) :
    ∃ steps, s' = s.modifyLive (appendItem v.unmarked) steps := by
  unfold append at h
  cases hlive : s.live path with
  | error e =>
    rw [hlive] at h
    cases h
  | ok hit =>
    obtain ⟨steps, w⟩ := hit
    rw [hlive] at h
    cases w with
    | list m items =>
      cases h
      exact ⟨_, rfl⟩
    | _ => cases h

theorem exists_of_put {s s' : Store σ φ} {path : String} {key v : Value}
    (h : s.put path key v = .ok (.ok (.made s'))) :
    ∃ k steps, s' = s.modifyLive (putEntry k v.unmarked) steps := by
  unfold put at h
  cases hlive : s.live path with
  | error e =>
    rw [hlive] at h
    cases h
  | ok hit =>
    obtain ⟨steps, w⟩ := hit
    rw [hlive] at h
    cases w with
    | map m es =>
      have hkey := Except.ok.inj h
      cases hk : key.toKey? with
      | error e =>
        rw [hk] at hkey
        cases hkey
      | ok k =>
        rw [hk] at hkey
        cases hkey
        exact ⟨_, _, rfl⟩
    | _ => cases h

/-- A change of a container leaves all but the tree and what functions remember as it was. -/
theorem alike_after (s : Store σ φ) {step : Step} (h : step.isCall = false) :
    Alike s (step.after s) := by
  cases step with
  | call c => cases h
  | append path v =>
    rw [Step.after]
    split
    · rename_i s' happend
      obtain ⟨places, rfl⟩ := exists_of_append happend
      exact s.alike_modifyLive _ places
    · exact .refl s
  | put path key v =>
    rw [Step.after]
    split
    · rename_i s' hput
      obtain ⟨k, places, rfl⟩ := exists_of_put hput
      exact s.alike_modifyLive _ places
    · exact .refl s

/-- A run with changes keeps step with the run without them. -/
theorem Alike.steps {s s' : Store σ φ} (h : Alike s s')
    {answer : FnHandle → List Shared → Except φ Shared} (hpure : s.host.Pure answer)
    (steps : List Step) :
    Alike (steps.foldl Step.after s) ((steps.filter Step.isCall).foldl Step.after s') := by
  induction steps generalizing s s' with
  | nil => exact h
  | cons step steps ih =>
    cases hcall : step.isCall with
    | false =>
      rw [List.filter_cons_of_neg (by simp [hcall]), List.foldl_cons]
      have hafter := s.alike_after hcall
      refine ih (hafter.symm.trans h) (hafter.host ▸ hpure)
    | true =>
      cases step with
      | call c =>
        rw [List.filter_cons_of_pos hcall, List.foldl_cons, List.foldl_cons]
        exact ih (h.run hpure c).1 ((host_run c s).symm ▸ hpure)
      | _ => cases hcall

end Store

end LayeredConfig
