import LayeredConfig.Layer.Merge
import LayeredConfig.Proofs.Path.Leaves
import LayeredConfig.Proofs.Path.Names

/-!
# Legible trees

A tree is legible if every key that a chain of mappings leads to has a written form;
those are the trees that can be taken apart into leaves.  A key is not legible only
if it is a whole number with too many digits, or holds one.

* `Tree.flatten_eq_ok_iff` — a tree is taken apart if and only if it is legible.
* `Tree.areLegible_of_named` — keys that are texts have a written form.
* `Tree.areLegible_writeEntries`, `Tree.areLegible_overlayEntries` — writes and layers
  keep trees legible.
* `Tree.areLegible_unflattenEntries` — what leaves are nested into is legible.
-/

namespace LayeredConfig.Tree

variable {α β : Type}

theorem areLegible_iff {es : List (Key × Tree α)} :
    areLegible es = true ↔ ∀ e ∈ es, e.1.isWritable = true ∧ e.2.isLegible = true := by
  induction es with
  | nil => simp [areLegible]
  | cons e es ih =>
    rw [areLegible, Bool.and_eq_true, Bool.and_eq_true, ih, List.forall_mem_cons]

theorem areLegible_cons_iff {k : Key} {v : Tree α} {es : List (Key × Tree α)} :
    areLegible ((k, v) :: es) = true ↔
      k.isWritable = true ∧ v.isLegible = true ∧ areLegible es = true := by
  rw [areLegible, Bool.and_eq_true, Bool.and_eq_true, and_assoc]

/-! ## Taking a tree apart -/

theorem legibleEntries?_map (t : α) (es : List (Key × Tree α)) :
    (map t es).legibleEntries? =
      if areLegible es then .ok es else .error (.key .tooLarge) := rfl

theorem legibleEntries?_of_areLegible (t : α) {es : List (Key × Tree α)}
    (h : areLegible es = true) : (map t es).legibleEntries? = .ok es := by
  rw [legibleEntries?_map, if_pos h]

/-- What has entries to take apart is a legible mapping. -/
theorem legibleEntries?_eq_ok_iff {t : Tree α} {es : List (Key × Tree α)} :
    t.legibleEntries? = .ok es ↔ ∃ tag, t = map tag es ∧ areLegible es = true := by
  constructor
  · intro h
    cases t with
    | map tag fs =>
      rw [legibleEntries?_map] at h
      split at h
      · cases h
        exact ⟨tag, rfl, ‹_›⟩
      · cases h
    | _ => cases h
  · rintro ⟨tag, rfl, h⟩
    exact legibleEntries?_of_areLegible tag h

/-- A tree is taken apart if and only if it is a legible mapping. -/
theorem flatten_eq_ok_iff {t : Tree α} {parent : String} {flat : Flat α} :
    t.flatten parent = .ok flat ↔
      ∃ tag es, t = map tag es ∧ areLegible es = true ∧ flat = flattenEntries parent es := by
  constructor
  · intro h
    cases hes : t.legibleEntries? with
    | error e =>
      rw [flatten, hes] at h
      cases h
    | ok es =>
      rw [flatten, hes] at h
      obtain ⟨tag, rfl, hlegible⟩ := legibleEntries?_eq_ok_iff.1 hes
      exact ⟨tag, es, rfl, hlegible, (Except.ok.inj h).symm⟩
  · rintro ⟨tag, es, rfl, hlegible, rfl⟩
    rw [flatten, legibleEntries?_of_areLegible tag hlegible]
    rfl

theorem flatten_of_areLegible (t : α) {es : List (Key × Tree α)} (h : areLegible es = true)
    (parent : String) : (map t es).flatten parent = .ok (flattenEntries parent es) :=
  flatten_eq_ok_iff.2 ⟨t, es, rfl, h, rfl⟩

theorem unflatten_of_areLegible [Inhabited α] (t : α) {es : List (Key × Tree α)}
    (h : areLegible es = true) :
    (map t es).unflatten = .ok (map default (unflattenEntries es)) := by
  rw [unflatten, legibleEntries?_of_areLegible t h]
  rfl

/-- A mapping that cannot be taken apart has a key without a written form. -/
theorem flatten_map_cases (t : α) (es : List (Key × Tree α)) (parent : String) :
    (areLegible es = true ∧ (map t es).flatten parent = .ok (flattenEntries parent es)) ∨
      (areLegible es = false ∧ (map t es).flatten parent = .error (.key .tooLarge)) := by
  by_cases h : areLegible es = true
  · exact Or.inl ⟨h, flatten_of_areLegible t h parent⟩
  · refine Or.inr ⟨by simpa using h, ?_⟩
    rw [flatten, legibleEntries?_map, if_neg h]
    rfl

/-! ## Trees that are legible -/

mutual

/-- Tags do not count. -/
@[simp] theorem isLegible_mapTag (f : α → β) : (t : Tree α) →
    (t.mapTag f).isLegible = t.isLegible
  | atom _ => rfl
  | list _ _ => rfl
  | map _ es => areLegible_mapTagEntries f es
  | tuple _ => rfl
  | set _ => rfl

@[simp] theorem areLegible_mapTagEntries (f : α → β) : (es : List (Key × Tree α)) →
    areLegible (mapTagEntries f es) = areLegible es
  | [] => rfl
  | (k, v) :: es => by
    rw [mapTagEntries, areLegible, areLegible, isLegible_mapTag f v,
      areLegible_mapTagEntries f es]

end

mutual

/-- Texts have a written form. -/
theorem isLegible_of_named {kind : String → Prop} : (t : Tree α) → t.Named kind →
    t.isLegible = true
  | atom _, _ => rfl
  | list _ _, _ => rfl
  | map _ es, h => areLegible_of_named es h
  | tuple _, _ => rfl
  | set _, _ => rfl

theorem areLegible_of_named {kind : String → Prop} : (es : List (Key × Tree α)) →
    NamedEntries kind es → areLegible es = true
  | [], _ => rfl
  | (_, v) :: es, ⟨⟨_, hk, _⟩, _, hv, hes⟩ => by
    rw [areLegible_cons_iff, hk]
    exact ⟨rfl, isLegible_of_named v hv, areLegible_of_named es hes⟩

end

theorem isLegible_of_find? {k : Key} {v : Tree α} {es : List (Key × Tree α)}
    (hes : areLegible es = true) (h : Entries.find? k es = some v) : v.isLegible = true := by
  obtain ⟨l, hmem, -⟩ := Entries.exists_of_find? h
  exact (areLegible_iff.1 hes _ hmem).2

theorem areLegible_insert {k : Key} (hk : k.isWritable = true) {v : Tree α}
    (hv : v.isLegible = true) {es : List (Key × Tree α)} (hes : areLegible es = true) :
    areLegible (Entries.insert k v es) = true := by
  induction es with
  | nil => exact areLegible_cons_iff.2 ⟨hk, hv, rfl⟩
  | cons e es ih =>
    obtain ⟨l, w⟩ := e
    obtain ⟨hl, hw, hrest⟩ := areLegible_cons_iff.1 hes
    rw [Entries.insert]
    split
    · exact areLegible_cons_iff.2 ⟨hl, hv, hrest⟩
    · exact areLegible_cons_iff.2 ⟨hl, hw, ih hrest⟩

/-- A write makes keys out of segments, which are texts. -/
theorem areLegible_writeEntries [Inhabited α] {v : Tree α} (hv : v.isLegible = true)
    (segments : List String) {es : List (Key × Tree α)} (hes : areLegible es = true) :
    areLegible (writeEntries v segments es) = true := by
  induction segments generalizing es with
  | nil => exact hes
  | cons s ss ih =>
    rw [writeEntries_cons]
    refine areLegible_insert (k := .str s) rfl ?_ hes
    cases ss with
    | nil => exact hv
    | cons s' ss =>
      have hnew : (map default (writeEntries v (s' :: ss) []) : Tree α).isLegible = true :=
        ih rfl
      cases hfind : Entries.find? (.str s) es with
      | none => exact hnew
      | some u =>
        cases u with
        | map t sub => exact ih (isLegible_of_find? hes hfind)
        | _ => exact hnew

mutual

theorem isLegible_copy [Inhabited α] : (t : Tree α) → t.copy.isLegible = t.isLegible
  | atom _ => rfl
  | list _ _ => rfl
  | tuple _ => rfl
  | map _ es => areLegible_copyEntries es
  | set _ => rfl

theorem areLegible_copyEntries [Inhabited α] : (es : List (Key × Tree α)) →
    areLegible (copyEntries es) = areLegible es
  | [] => rfl
  | (k, v) :: es => by
    rw [copyEntries, areLegible, areLegible, isLegible_copy v, areLegible_copyEntries es]

end

mutual

/-- A legible layer over something legible. -/
theorem isLegible_overlay [Inhabited α] : (layer : Tree α) → layer.isLegible = true →
    (held : Option (Tree α)) → (∀ t, held = some t → t.isLegible = true) →
      (overlay layer held).isLegible = true
  | map _ es, h, some (map _ _), hheld => areLegible_overlayEntries es h (hheld _ rfl)
  | map t es, h, none, _ => (isLegible_copy (map t es)).trans h
  | map t es, h, some (atom _), _ => (isLegible_copy (map t es)).trans h
  | map t es, h, some (list _ _), _ => (isLegible_copy (map t es)).trans h
  | map t es, h, some (tuple _), _ => (isLegible_copy (map t es)).trans h
  | map t es, h, some (set _), _ => (isLegible_copy (map t es)).trans h
  | atom _, _, _, _ => rfl
  | list _ _, _, _, _ => rfl
  | tuple _, _, _, _ => rfl
  | set _, _, _, _ => rfl

theorem areLegible_overlayEntries [Inhabited α] : (es : List (Key × Tree α)) →
    areLegible es = true → {fs : List (Key × Tree α)} → areLegible fs = true →
      areLegible (overlayEntries es fs) = true
  | [], _, _, hfs => hfs
  | (k, v) :: es, h, _, hfs => by
    obtain ⟨hk, hv, hes⟩ := areLegible_cons_iff.1 h
    rw [overlayEntries]
    split
    · exact areLegible_overlayEntries es hes hfs
    · refine areLegible_overlayEntries es hes (areLegible_insert hk ?_ hfs)
      exact isLegible_overlay v hv _ fun t ht => isLegible_of_find? hfs ht

end

/-! ## Leaves -/

/-- What is no mapping with entries has no keys. -/
theorem isLegible_of_ne_map {v : Tree α} (h : ∀ t e es, v ≠ map t (e :: es)) :
    v.isLegible = true := by
  cases v with
  | map t es =>
    cases es with
    | nil => rfl
    | cons e es => exact absurd rfl (h t e es)
  | _ => rfl

theorem isLegible_of_mem_flattenEntries {parent : String} {es : List (Key × Tree α)}
    {leaf : String × Tree α} (h : leaf ∈ flattenEntries parent es) : leaf.2.isLegible = true :=
  isLegible_of_ne_map fun _ _ _ => ne_map_of_mem_entryLeaves parent es (Flat.mem_of_mem_ofList h)

/-- The flat mapping of legible leaves is legible. -/
theorem areLegible_toEntries {flat : Flat α} (h : ∀ leaf ∈ flat, leaf.2.isLegible = true) :
    areLegible flat.toEntries = true := by
  rw [areLegible_iff, Flat.toEntries, List.forall_mem_map]
  exact fun leaf hmem => ⟨rfl, h leaf hmem⟩

theorem areLegible_entriesOfFlat [Inhabited α] {flat : Flat α}
    (h : ∀ leaf ∈ flat, leaf.2.isLegible = true) : areLegible (entriesOfFlat flat) = true := by
  rw [entriesOfFlat]
  have hnil : areLegible ([] : List (Key × Tree α)) = true := rfl
  generalize ([] : List (Key × Tree α)) = es at hnil ⊢
  induction flat generalizing es with
  | nil => exact hnil
  | cons leaf flat ih =>
    obtain ⟨hfirst, hrest⟩ := List.forall_mem_cons.1 h
    exact ih hrest _ (areLegible_writeEntries hfirst _ hnil)

/-- What leaves are nested into has texts for keys. -/
theorem areLegible_unflattenEntries [Inhabited α] (es : List (Key × Tree α)) :
    areLegible (unflattenEntries es) = true :=
  areLegible_entriesOfFlat fun _ hmem => isLegible_of_mem_flattenEntries hmem

end LayeredConfig.Tree
