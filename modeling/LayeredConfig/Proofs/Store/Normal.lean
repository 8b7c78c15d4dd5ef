import LayeredConfig.Proofs.Store.Live
import LayeredConfig.Proofs.Store.Plain

/-!
# Definitions in normal form

Whatever is done to a store, its definition is a tree whose keys hold no separators:
layers are nested before they are laid over it, and single values are written segment
by segment.  Such a tree is nested already, unless the empty key holds a mapping with
entries, and that it only comes to do through a path that begins with a separator, or
through a mapping that stands at the empty key of a layer and elsewhere in it too.

* `Store.Step.Clean` — the step writes nothing below the empty key.
* `Store.Step.formed_after`, `Store.formed_steps` — steps keep the definition's form.
* `Store.unflatten_definition` — a definition is nested already, but for one case.
-/

namespace LayeredConfig.Store

variable {σ φ : Type}

/-! ## What steps write -/

/-- The paths of the leaves of a layer. -/
def leafPaths : Shared → List String
  | .map _ es => (Tree.flattenEntries "" es).map (·.1)
  | _ => []

namespace Step

/-- The paths that are written by a step. -/
def written : Step → List String
  | call (.set path _) => [path]
  | call (.merge layer) => leafPaths layer
  | _ => []

/-- No container that stands at several places of a layer comes to hold entries at the empty key. -/
def Clear : Step → Prop
  | call (.merge (.map m es)) => (Tree.map m es : Shared).marks = [] ∨ ∀ m' e sub,
      Entries.find? (.str "") (Tree.unflattenShared es) ≠ some (.map m' (e :: sub))
  | _ => True

/-- The step writes nothing below the empty key. -/
structure Clean (step : Step) : Prop where
  clear : step.Clear
  start : ∀ path ∈ step.written, ∀ c ∈ path.toList.head?, Path.isSeparator c = false

end Step

/-! ## The form of a definition -/

/-- No key of the definition holds a separator, and if nothing has been written below the empty key,
then the paths of its leaves lead back to the keys. -/
def Formed (clean : Prop) (s : Store σ φ) : Prop :=
  ∃ es, s.definition = .map () es ∧ Tree.NamedEntries Path.IsPart es ∧ (clean → Tree.Rooted es)

section Formed

variable {s : Store σ φ} {clean : Prop}

theorem Formed.of_definition_eq (h : s.Formed clean) {s' : Store σ φ}
    (heq : s'.definition = s.definition) (more : Prop) : s'.Formed (clean ∧ more) := by
  obtain ⟨es, hes, hnamed, hrooted⟩ := h
  exact ⟨es, heq.trans hes, hnamed, fun h => hrooted h.1⟩

theorem Formed.refresh (h : s.Formed clean) : s.refresh.1.Formed clean := by
  obtain ⟨es, hes, hform⟩ := h
  exact ⟨es, by rw [definition, registry_refresh]; exact hes, hform⟩

/-- A leaf is written into a definition. -/
theorem Formed.setShared (h : s.Formed clean) (path : String) {v : Shared} (hv : v.IsLeaf) :
    (s.setShared path v).1.Formed
      (clean ∧ ∀ c ∈ path.toList.head?, Path.isSeparator c = false) := by
  obtain ⟨es, hes, hnamed, hrooted⟩ := h
  have hcopy := Tree.isLeaf_copy (Tree.isLeaf_mapTag (fun _ => ()) hv)
  refine ⟨Tree.writeEntries v.erase.copy (Path.split path) es, ?_, ?_, fun ⟨hclean, hpath⟩ => ?_⟩
  · rw [definition_setShared, hes]
    rfl
  · exact Tree.namedEntries_writeEntries (Tree.named_of_isLeaf hcopy)
      (fun _ => Path.isPart_of_mem_split) hnamed
  · exact Tree.rooted_writeEntries hcopy hpath (hrooted hclean)

/-- A layer is laid over a definition, or refused. -/
theorem Formed.mergeShared (h : s.Formed clean) (layer : Shared) :
    (s.mergeShared layer).1.Formed (clean ∧ (Step.call (.merge layer)).Clean) := by
  rcases s.mergeShared_cases layer with ⟨-, heq⟩ | ⟨e, -, -, heq⟩ | ⟨es', d, -, hes, hd, heq⟩ <;>
    rw [heq]
  · exact h.of_definition_eq rfl _
  · exact h.of_definition_eq rfl _
  · obtain ⟨m, rfl, hlegible⟩ := Tree.legibleEntries?_eq_ok_iff.1 hes
    obtain ⟨fs, hfs, hnamed, hrooted⟩ := h
    rw [hfs, overlaid_map fs m hlegible] at hd
    refine Formed.refresh ⟨_, hd, ?_, fun ⟨hclean, hclear, hstart⟩ => ?_⟩
    · exact Tree.namedEntries_overlayEntries _
        (Tree.namedEntries_mapTagEntries _ _ (Tree.namedEntries_unflattenShared es')) _ hnamed
    · have hlayer : Tree.Rooted (Tree.unflattenShared es') :=
        Tree.rooted_unflattenShared (fun _ hmem => hstart _ (List.mem_map_of_mem hmem)) hclear
      exact Tree.rooted_overlayEntries (Tree.rooted_mapTagEntries _ hlayer) (hrooted hclean)

theorem Formed.resolve (h : s.Formed clean) (namespaces : Value) (more : Prop) :
    (s.resolve namespaces).1.Formed (clean ∧ more) := by
  rcases s.resolve_cases namespaces with ⟨log, e, -, heq⟩ | ⟨log, -, heq⟩ <;> rw [heq]
  · exact h.of_definition_eq rfl more
  · exact Formed.refresh (h.of_definition_eq (definition_updated s namespaces _) more)

end Formed

end LayeredConfig.Store
