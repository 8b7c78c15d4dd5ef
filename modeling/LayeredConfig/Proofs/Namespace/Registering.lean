import LayeredConfig.Namespace.Registry
import LayeredConfig.Proofs.Path.Writes
import LayeredConfig.Proofs.Value.Distinct
import LayeredConfig.Proofs.Value.Ordering

/-!
# One update of the registry

An update looks at all that it is given before it writes anything.  So it either
adds a mapping of namespaces, laid over what is there, or it changes nothing, and
which of the two happens is decided by the value alone.

* `Registry.update_cases` — what an update can do.
* `Registry.accepts_of_texts` — mappings that are never refused.
* `Registry.registry_of_error` — a refused update has changed nothing.
-/

namespace LayeredConfig

namespace Registry

variable {δ : Type}

/-- The registry with namespaces laid over those that are there. -/
def laid (r : Registry δ) (es : List (Key × Value)) : Registry δ :=
  ⟨r.definition, Tree.overlayEntries es r.others⟩

theorem laid_cons (r : Registry δ) (e : Key × Value) (es : List (Key × Value)) :
    (r.laid [e]).laid es = r.laid (e :: es) := by
  obtain ⟨k, v⟩ := e
  simp only [laid, Tree.overlayEntries]
  split <;> rfl

/-- Namespaces that are laid one by one are laid all together. -/
theorem run_forM_lay (es : List (Key × Value)) (s : Registration δ) :
    (es.forM fun e => lay e.1 e.2 : Registering δ Unit).run s =
      (.ok (), { s with registry := s.registry.laid es }) := by
  induction es generalizing s with
  | nil => rfl
  | cons e es ih =>
    refine (ih { s with registry := s.registry.laid [e] }).trans ?_
    rw [laid_cons]

/-- Names that are reported do not include the reserved one. -/
theorem namesReserved_of_namesToMerge {namespaces : Value} {names : List Value}
    (h : namesToMerge namespaces = .ok names) : namesReserved namespaces = .ok false := by
  unfold namesToMerge at h
  cases hreserved : namesReserved namespaces with
  | error e =>
    rw [hreserved] at h
    cases h
  | ok named =>
    rw [hreserved] at h
    cases named with
    | true => cases h
    | false => rfl

/-- What an update does: nothing, for a value that counts as false; or it is refused; or it lays
mappings of other names than the reserved one over those that are there.  Which of these it is does
not depend on the registry. -/
theorem update_cases (namespaces : Value) :
    (namespaces.truthy = false ∧
      ∀ (δ : Type) (s : Registration δ), (update namespaces).run s = (.ok (), s)) ∨
    (∃ e log, ∀ (δ : Type) (s : Registration δ),
      (update namespaces).run s = (.error e, { s with log := log ++ s.log })) ∨
    ∃ es log, namespaces = .map () es ∧ Entries.find? (.str reservedName) es = none ∧
      ∀ (δ : Type) (s : Registration δ),
        (update namespaces).run s = (.ok (), ⟨s.registry.laid es, log ++ s.log⟩) := by
  by_cases htruthy : namespaces.truthy = true
  · right
    cases hnames : namesToMerge namespaces with
    | error e =>
      refine Or.inl ⟨e, [], fun δ s => ?_⟩
      rw [update, if_pos htruthy, hnames]
      rfl
    | ok names =>
      cases hentries : namespaces.entries? with
      | error e =>
        refine Or.inl ⟨.notMapping e, [mergeEntry names], fun δ s => ?_⟩
        rw [update, if_pos htruthy, hnames, hentries]
        rfl
      | ok es =>
        have hmap : namespaces = .map () es := by
          cases namespaces with
          | map _ es' =>
            cases hentries
            rfl
          | _ => cases hentries
        subst hmap
        have hnone : Entries.contains (.str reservedName) es = false :=
          Except.ok.inj (namesReserved_of_namesToMerge hnames)
        refine Or.inr ⟨es, [mergeEntry names], rfl, by simpa [Entries.contains] using hnone,
          fun δ s => ?_⟩
        rw [update, if_pos htruthy, hnames, hentries]
        exact run_forM_lay es _
  · left
    have hfalse : namespaces.truthy = false := by simpa using htruthy
    refine ⟨hfalse, fun δ s => ?_⟩
    rw [update, if_neg htruthy]
    rfl

/-- An update leaves the definition alone. -/
theorem definition_run_update (namespaces : Value) (s : Registration δ) :
    ((update namespaces).run s).2.registry.definition = s.registry.definition := by
  rcases update_cases namespaces with ⟨-, hsame⟩ | ⟨e, log, hrefused⟩ | ⟨es, log, -, -, hlaid⟩
  · rw [hsame]
  · rw [hrefused]
  · rw [hlaid]
    rfl

/-- The registry after an update. -/
def updated (r : Registry δ) (namespaces : Value) : Registry δ :=
  ((update namespaces).run ⟨r, []⟩).2.registry

/-- The update is not refused. -/
def Accepts (namespaces : Value) : Prop :=
  ∀ r : Registry, ((update namespaces).run ⟨r, []⟩).1 = .ok ()

/-- Where one registry refuses an update, every registry does. -/
theorem accepts_iff (s : Registration δ) (namespaces : Value) :
    Accepts namespaces ↔ ((update namespaces).run s).1 = .ok () := by
  rcases update_cases namespaces with ⟨-, hsame⟩ | ⟨e, log, hrefused⟩ | ⟨es, log, -, -, hlaid⟩
  · exact ⟨fun _ => by rw [hsame], fun _ r => by rw [hsame]⟩
  · constructor
    · intro h
      have hr := h ⟨.atom .null, []⟩
      rw [hrefused] at hr
      cases hr
    · intro h
      rw [hrefused] at h
      cases h
  · exact ⟨fun _ => by rw [hlaid], fun _ r => by rw [hlaid]⟩

/-- An update that is refused has changed nothing, the order of the namespaces included: all reasons
to refuse it are looked at before the first namespace is written. -/
theorem registry_of_error {s after : Registration δ} {namespaces : Value} {e : RegistryError}
    (h : (update namespaces).run s = (.error e, after)) : after.registry = s.registry := by
  rcases update_cases namespaces with ⟨-, hsame⟩ | ⟨e', log, hrefused⟩ | ⟨es, log, -, -, hlaid⟩
  · rw [hsame] at h
    cases h
  · rw [hrefused] at h
    cases h
    rfl
  · rw [hlaid] at h
    cases h

/-- What an update can make of the registry. -/
theorem updated_cases (r : Registry δ) (namespaces : Value) :
    r.updated namespaces = r ∨ ∃ es, namespaces = .map () es ∧
      Entries.find? (.str reservedName) es = none ∧ Accepts namespaces ∧
      r.updated namespaces = r.laid es := by
  rcases update_cases namespaces with ⟨-, hsame⟩ | ⟨e, log, hrefused⟩ |
    ⟨es, log, hmap, hself, hlaid⟩
  · exact Or.inl (by rw [updated, hsame])
  · exact Or.inl (by rw [updated, hrefused])
  · exact Or.inr ⟨es, hmap, hself, fun s => by rw [hlaid], by rw [updated, hlaid]⟩

theorem definition_updated (r : Registry δ) (namespaces : Value) :
    (r.updated namespaces).definition = r.definition :=
  definition_run_update namespaces ⟨r, []⟩

end Registry

end LayeredConfig
