import LayeredConfig.Proofs.Namespace.Registering
import LayeredConfig.Proofs.Path.Legible
import LayeredConfig.Proofs.Value.Tags
import LayeredConfig.Store.Live

/-!
# What a store's steps do

Every change of a store ends in a new resolution of its definition, and that either
gives a new tree or keeps the old one, with the changes made to the containers in
it (`Store.refresh_cases`).  The namespaces stay as they are either way.

What a step does to the definition does not depend on who else holds containers of
the value or the layer that is given to it (`Definition.value_write`,
`Definition.value_overlay`).
-/

namespace LayeredConfig

namespace Definition

@[simp] theorem foldr_revise (revisions : List Tree.Revision) (d : Definition) :
    revisions.foldr revise d = d := by
  induction revisions with
  | nil => rfl
  | cons rev revisions ih => rw [List.foldr_cons, ih, revise_eq]

@[simp] theorem value_empty : empty.value = .map () [] := rfl

/-- A copy of the plain value is written. -/
theorem value_write (d : Definition) (path : String) (v : Shared) :
    (d.write path v).value = d.value.write path v.erase.copy := by
  obtain ⟨tree, own⟩ := d
  simp only [value, write, Tree.erase, ← Tree.mapTag_copy (fun _ : Option Share => ()) rfl]
  cases tree with
  | map t es => exact congrArg (Tree.map ()) (Tree.mapTagEntries_writeEntries (fun _ => ()) rfl _ _ es)
  | _ => rfl

/-- The plain layer is laid over the plain tree. -/
theorem value_overlay (d : Definition) (layer : Shared) :
    (d.overlay layer).value = layer.erase.overlay (some d.value) :=
  Tree.mapTag_overlay (fun _ => ()) rfl layer (some d.tree)

end Definition

namespace Store

variable {σ φ : Type}

/-- The state in which the store's definition is resolved. -/
def scratch (s : Store σ φ) : Scratch σ :=
  { Scratch.start s.memory with fresh := s.fresh }

/-- The store after a resolution has ended in a state and with a tree. -/
def resolvedTo (s : Store σ φ) (t : Scratch σ) (tree : Shared) : Store σ φ :=
  { s with resolved := tree, memory := t.memory, fresh := t.fresh, log := t.log ++ s.log }

/-- The tree after changes of its marked containers, the latest first. -/
def revised (revisions : List Tree.Revision) (tree : Shared) : Shared :=
  revisions.reverse.foldl (fun t rev => t.revise rev) tree

/-- A new resolution gives the tree of the definition, or fails and leaves the old tree, but for
the containers that it changed. -/
theorem refresh_cases (s : Store σ φ) :
    (∃ tree t, (s.resolver.resolveTree s.definition).run s.scratch = (.ok tree, t) ∧
      s.refresh = (s.resolvedTo t tree, .ok ())) ∨
    ∃ e t, (s.resolver.resolveTree s.definition).run s.scratch = (.error e, t) ∧
      s.refresh = (s.resolvedTo t (revised t.revisions s.resolved), .error (.resolve e)) := by
  rcases h : (s.resolver.resolveTree s.definition).run s.scratch with ⟨out, t⟩
  have hrun : (s.resolver.resolveTree s.definition).run
      { Scratch.start s.memory with fresh := s.fresh } = (out, t) := h
  unfold refresh
  simp only [hrun, Definition.foldr_revise]
  cases out with
  | ok tree => exact Or.inl ⟨tree, t, rfl, rfl⟩
  | error e => exact Or.inr ⟨e, t, rfl, rfl⟩

/-- A new resolution that succeeds gives the tree of the definition. -/
theorem exists_of_refresh {s s' : Store σ φ} (h : s.refresh = (s', .ok ())) :
    ∃ tree t, (s.resolver.resolveTree s.definition).run s.scratch = (.ok tree, t) ∧
      s' = s.resolvedTo t tree := by
  rcases s.refresh_cases with ⟨tree, t, hrun, heq⟩ | ⟨e, t, -, heq⟩
  · rw [heq] at h
    cases h
    exact ⟨tree, t, hrun, rfl⟩
  · rw [heq] at h
    cases h

@[simp] theorem registry_resolvedTo (s : Store σ φ) (t : Scratch σ) (tree : Shared) :
    (s.resolvedTo t tree).registry = s.registry := rfl

/-- A new resolution leaves the definition and all namespaces as they are. -/
@[simp] theorem registry_refresh (s : Store σ φ) : s.refresh.1.registry = s.registry := by
  rcases s.refresh_cases with ⟨tree, t, -, h⟩ | ⟨e, t, -, h⟩ <;> rw [h, registry_resolvedTo]

/-- Writing a value changes the definition alone, whether or not it can be resolved, and whoever
else holds containers of the value. -/
theorem registry_setShared (s : Store σ φ) (path : String) (v : Shared) :
    (s.setShared path v).1.registry =
      { s.registry with
        definition := s.definition.write (Path.normalize path) v.erase.copy } := by
  rw [setShared, registry_refresh, registry, withDefinition, Definition.value_write]
  rfl

theorem definition_setShared (s : Store σ φ) (path : String) (v : Shared) :
    (s.setShared path v).1.definition = s.definition.write path v.erase.copy := by
  rw [definition, registry_setShared]
  cases s.definition <;> simp only [Tree.write, Path.split_normalize]

theorem definition_set (s : Store σ φ) (path : String) (v : Value) :
    (s.set path v).1.definition = s.definition.write path v.copy := by
  rw [set, definition_setShared, Tree.erase_unmarked]

/-! ## Registrations and layers -/

/-- The plain definition with a layer laid over it, whose keys may be paths; a layer that cannot be
taken apart leaves it as it is. -/
def overlaid (definition : Value) (layer : Shared) : Value :=
  (layer.legibleEntries?.map fun es =>
    (Tree.map none (Tree.unflattenShared es) : Shared).erase.overlay (some definition)).toOption.getD
      definition

/-- Laying a layer over the definition makes the plain definition of it. -/
theorem value_of_layered {d d' : Definition} {layer : Shared} (h : layered d layer = .ok d') :
    d'.value = overlaid d.value layer := by
  unfold layered at h
  cases hes : layer.legibleEntries? with
  | error e =>
    rw [hes] at h
    cases h
  | ok es =>
    rw [hes] at h
    cases h
    rw [Definition.value_overlay, overlaid, hes]
    rfl

/-- Registering namespaces leaves the definition alone. -/
theorem definition_updated (s : Store σ φ) (namespaces : Value) (log : List LogEntry) :
    ({ s with namespaces := s.namespaces.updated namespaces, log := log } :
      Store σ φ).registry.definition = s.definition :=
  congrArg Definition.value (Registry.definition_updated s.namespaces namespaces)

/-- Namespaces are refused, or added before the definition is resolved again. -/
theorem resolve_cases (s : Store σ φ) (namespaces : Value) :
    (∃ log e, ((Registry.update namespaces).run ⟨s.namespaces, s.log⟩).1 = .error e ∧
      s.resolve namespaces = ({ s with log := log ++ s.log }, .error (.registry e))) ∨
    ∃ log, Registry.Accepts namespaces ∧
      s.resolve namespaces =
        ({ s with
          namespaces := s.namespaces.updated namespaces
          log := log ++ s.log } : Store σ φ).refresh := by
  unfold resolve register Registry.updated
  rcases Registry.update_cases namespaces with
    ⟨-, hrun⟩ | ⟨e, log, hrun⟩ | ⟨es, log, -, -, hrun⟩ <;> simp only [hrun]
  · exact Or.inr ⟨[], fun r => by rw [hrun], rfl⟩
  · exact Or.inl ⟨log, e, rfl, rfl⟩
  · exact Or.inr ⟨log, fun r => by rw [hrun], rfl⟩

/-- A layer that is laid over the definition is part of it when that is resolved again. -/
theorem mergeShared_of_layered {s : Store σ φ} {layer : Shared} (hnull : layer ≠ .atom .null)
    {d : Definition} (h : layered s.namespaces.definition layer = .ok d) :
    s.mergeShared layer = (s.withDefinition d).refresh := by
  rw [mergeShared, h]
  exact hnull

/-- A layer that cannot be taken apart changes nothing. -/
theorem mergeShared_of_layered_error {s : Store σ φ} {layer : Shared} (hnull : layer ≠ .atom .null)
    {e : FlattenError} (h : layered s.namespaces.definition layer = .error e) :
    s.mergeShared layer = (s, .error (.layer e)) := by
  rw [mergeShared, h]
  exact hnull

/-- No value at all changes nothing; any other one cannot be taken apart, or becomes part of the
definition before that is resolved again. -/
theorem mergeShared_cases (s : Store σ φ) (layer : Shared) :
    (layer = .atom .null ∧ s.mergeShared layer = (s, .ok ())) ∨
    (∃ e, layer ≠ .atom .null ∧ layer.legibleEntries? = .error e ∧
      s.mergeShared layer = (s, .error (.layer e))) ∨
    ∃ es d, layer ≠ .atom .null ∧ layer.legibleEntries? = .ok es ∧
      d.value = overlaid s.definition layer ∧
      s.mergeShared layer = (s.withDefinition d).refresh := by
  by_cases hnull : layer = .atom .null
  · subst hnull
    exact Or.inl ⟨rfl, rfl⟩
  · cases hes : layer.legibleEntries? with
    | error e =>
      have hlayered : layered s.namespaces.definition layer = .error e := by
        rw [layered, hes]
        rfl
      exact Or.inr (Or.inl ⟨e, hnull, rfl, mergeShared_of_layered_error hnull hlayered⟩)
    | ok es =>
      obtain ⟨d, hd⟩ : ∃ d, layered s.namespaces.definition layer = .ok d := by
        rw [layered, hes]
        exact ⟨_, rfl⟩
      exact Or.inr (Or.inr
        ⟨es, d, hnull, rfl, value_of_layered hd, mergeShared_of_layered hnull hd⟩)

/-- A store is created by a registration and a first layer. -/
theorem exists_of_create {host : Host σ φ} {memory : σ} {maxDepth : Int} {strict : Bool}
    {layer namespaces : Value} {s : Store σ φ}
    (h : create host memory maxDepth strict layer namespaces = (s, .ok ())) :
    ∃ log, Registry.Accepts namespaces ∧
      ({ empty host memory maxDepth strict with
        namespaces := (Registry.ofDefinition .empty).updated namespaces
        log := log } : Store σ φ).merge layer = (s, .ok ()) := by
  unfold create register at h
  unfold Registry.updated
  rcases Registry.update_cases namespaces with
    ⟨-, hrun⟩ | ⟨e, log, hrun⟩ | ⟨es, log, -, -, hrun⟩ <;> simp only [hrun] at h ⊢
  · exact ⟨[], fun r => by rw [hrun], h⟩
  · cases h
  · exact ⟨_, fun r => by rw [hrun], h⟩

/-! ## Calls -/

/-- A change that does not fail ends in some state. -/
theorem eq_of_isOk {ε : Type} {out : Store σ φ × Except ε Unit} (h : out.2.isOk = true) :
    out = (out.1, .ok ()) := by
  obtain ⟨s, _ | u⟩ := out
  · cases h
  · rfl

/-- A call that changes a store.  Others may hold containers of what is given to it. -/
inductive Call where
  /-- Writes a value at a path of the definition. -/
  | set (path : String) (v : Shared)
  /-- Lays a layer over the definition. -/
  | merge (layer : Shared)
  /-- Adds namespaces. -/
  | resolve (namespaces : Value)

/-- What a call does. -/
def Call.run : Call → Store σ φ → Store σ φ × Except (StoreError φ) Unit
  | .set path v, s => s.setShared path v
  | .merge layer, s => s.mergeShared layer
  | .resolve namespaces, s => s.resolve namespaces

/-- The states that a store can be in: those after its creation, after calls, failed ones too, and
after changes of containers taken from its resolved tree. -/
inductive Reachable : Store σ φ → Prop where
  /-- The store has been created. -/
  | created {host : Host σ φ} {memory : σ} {maxDepth : Int} {strict : Bool}
      {layer namespaces : Value} {s : Store σ φ} :
    create host memory maxDepth strict layer namespaces = (s, .ok ()) → Reachable s
  /-- A call has been made. -/
  | called {s : Store σ φ} (c : Call) : Reachable s → Reachable (c.run s).1
  /-- A container in its resolved tree has been changed. -/
  | changed {s : Store σ φ} (f : Shared → Shared) (steps : List Nat) :
    Reachable s → Reachable (s.modifyLive f steps)

/-- A store that is created without an error can be in the state that it is created in. -/
theorem reachable_create {host : Host σ φ} {memory : σ} {maxDepth : Int} {strict : Bool}
    {layer namespaces : Value}
    (h : (create host memory maxDepth strict layer namespaces).2.isOk = true) :
    (create host memory maxDepth strict layer namespaces).1.Reachable :=
  .created (eq_of_isOk h)

/-! ## The definition is a mapping -/

theorem overlaid_of_legibleEntries? {definition : Value} {layer : Shared}
    {es : List (Key × Shared)} (h : layer.legibleEntries? = .ok es) :
    overlaid definition layer =
      (Tree.map none (Tree.unflattenShared es) : Shared).erase.overlay (some definition) := by
  rw [overlaid, h]
  rfl

theorem exists_overlaid {d : Value} (h : ∃ fs, d = .map () fs) (layer : Shared) :
    ∃ fs, overlaid d layer = .map () fs := by
  obtain ⟨fs, rfl⟩ := h
  cases hes : layer.legibleEntries? with
  | error e => exact ⟨fs, by rw [overlaid, hes]; rfl⟩
  | ok es => exact ⟨_, overlaid_of_legibleEntries? hes⟩

theorem exists_definition_mergeShared {s : Store σ φ} (h : ∃ es, s.definition = .map () es)
    (layer : Shared) : ∃ es, (s.mergeShared layer).1.definition = .map () es := by
  rcases s.mergeShared_cases layer with ⟨-, heq⟩ | ⟨e, -, -, heq⟩ | ⟨es, d, -, -, hd, heq⟩ <;>
    rw [heq]
  · exact h
  · exact h
  · obtain ⟨fs, hfs⟩ := exists_overlaid h layer
    rw [definition, registry_refresh]
    exact ⟨fs, hd.trans hfs⟩

/-- A call leaves the definition a mapping. -/
theorem exists_definition_run {s : Store σ φ} (h : ∃ es, s.definition = .map () es) (c : Call) :
    ∃ es, (c.run s).1.definition = .map () es := by
  cases c with
  | set path v =>
    obtain ⟨fs, hfs⟩ := h
    rw [Call.run, definition, registry_setShared, hfs]
    exact ⟨_, rfl⟩
  | merge layer => exact exists_definition_mergeShared h layer
  | resolve namespaces =>
    rw [Call.run]
    rcases s.resolve_cases namespaces with ⟨log, e, -, heq⟩ | ⟨log, -, heq⟩ <;> rw [heq]
    · exact h
    · rw [definition, registry_refresh, definition_updated]
      exact h

theorem registry_modifyLive (s : Store σ φ) (f : Shared → Shared) (steps : List Nat) :
    (s.modifyLive f steps).registry = s.registry := by
  unfold modifyLive
  split
  · rw [registry, Definition.revise_eq]
    rfl
  · rfl

/-- The definition of a store is a mapping at all times. -/
theorem Reachable.exists_definition {s : Store σ φ} (h : s.Reachable) :
    ∃ es, s.definition = .map () es := by
  induction h with
  | @created host memory maxDepth strict layer namespaces s h =>
    obtain ⟨log, -, hmerge⟩ := exists_of_create h
    have hes := exists_definition_mergeShared (s := { empty host memory maxDepth strict with
      namespaces := (Registry.ofDefinition .empty).updated namespaces
      log := log }) ⟨[], definition_updated (empty host memory maxDepth strict) namespaces log⟩
      layer.unmarked
    change ∃ es, (Store.merge _ layer).1.definition = .map () es at hes
    rw [hmerge] at hes
    exact hes
  | called c _ ih => exact exists_definition_run ih c
  | changed f steps _ ih =>
    rw [definition, registry_modifyLive]
    exact ih

end Store

end LayeredConfig
