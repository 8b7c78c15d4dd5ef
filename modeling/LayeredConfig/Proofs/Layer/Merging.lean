import LayeredConfig.Proofs.Path.Leaves
import LayeredConfig.Proofs.Path.Names
import LayeredConfig.Proofs.Store.Steps

/-!
# A layer is its leaves

Laying a layer over a definition does the same as writing its leaves one after
the other, the order of the keys included, if no leaf stands at or on the way to
another one.  A mapping goes into a mapping key by key as a path goes through
it, and what is no mapping makes room for both in the same way.

* `Tree.overlayEntries_insert` — a layer with one more value at a key.
* `Tree.overlayEntries_writeEntries` — a layer with one more leaf.
* `Tree.overlayEntries_entriesOfFlat` — a layer from its leaves.
-/

namespace LayeredConfig

namespace Tree

/-- The entries with leaves written one after the other. -/
def writeLeaves {α : Type} [Inhabited α] (flat : Flat α) (es : List (Key × Tree α)) :
    List (Key × Tree α) :=
  flat.foldl (fun es leaf => writeEntries leaf.2 (Path.split leaf.1) es) es

end Tree

/-! ## Writes at different keys -/

namespace Entries

variable {β : Type}

/-- Writes at two keys may change places if the first key is there already. -/
theorem insert_comm {s s' : String} (hne : s ≠ s') (v w : β) {es : List (Key × β)}
    (h : (find? (.str s) es).isSome) :
    insert (.str s') w (insert (.str s) v es) = insert (.str s) v (insert (.str s') w es) := by
  induction es with
  | nil => cases h
  | cons e es ih =>
    obtain ⟨k, u⟩ := e
    by_cases hs : (Key.str s).same k = true
    · obtain rfl := Key.same_str_iff.1 hs
      have hs' : (Key.str s').same (.str s) ≠ true := by simpa [Key.same_str_iff] using hne
      simp [insert, hs, hs']
    · have hrest : (find? (.str s) es).isSome := by
        rw [find?, if_neg hs] at h
        exact h
      by_cases hs' : (Key.str s').same k = true
      · simp [insert, hs, hs']
      · simp [insert, hs, hs', ih hrest]

end Entries

namespace Tree

variable {α : Type} [Inhabited α]

/-! ## Copies -/

theorem find?_copyEntries (k : Key) (es : List (Key × Tree α)) :
    Entries.find? k (copyEntries es) = (Entries.find? k es).map copy := by
  induction es with
  | nil => rfl
  | cons e es ih =>
    obtain ⟨k', v⟩ := e
    simp only [copyEntries, Entries.find?]
    split
    · rfl
    · exact ih

mutual

/-- A copy of a copy is the copy. -/
theorem copy_copy : (v : Tree α) → v.copy.copy = v.copy
  | atom _ => rfl
  | list _ items => congrArg (list default) (copyItems_copyItems items)
  | tuple items => congrArg (list default) (copyItems_copyItems items)
  | map _ es => congrArg (map default) (copyEntries_copyEntries es)
  | set _ => rfl

theorem copyItems_copyItems : (items : List (Tree α)) →
    copyItems (copyItems items) = copyItems items
  | [] => rfl
  | x :: xs => by rw [copyItems, copyItems, copy_copy x, copyItems_copyItems xs]

theorem copyEntries_copyEntries : (es : List (Key × Tree α)) →
    copyEntries (copyEntries es) = copyEntries es
  | [] => rfl
  | (k, v) :: es => by rw [copyEntries, copyEntries, copy_copy v, copyEntries_copyEntries es]

end

theorem copyEntries_insert (k : Key) (v : Tree α) (es : List (Key × Tree α)) :
    copyEntries (Entries.insert k v es) = Entries.insert k v.copy (copyEntries es) := by
  induction es with
  | nil => rfl
  | cons e es ih =>
    obtain ⟨k', w⟩ := e
    simp only [copyEntries, Entries.insert]
    split
    · rfl
    · rw [copyEntries, ih]

/-- A copy of what has been written is the same as a write of a copy. -/
theorem copyEntries_writeEntries (v : Tree α) (segments : List String)
    (es : List (Key × Tree α)) :
    copyEntries (writeEntries v segments es) = writeEntries v.copy segments (copyEntries es) := by
  induction segments generalizing es with
  | nil => rfl
  | cons s ss ih =>
    rw [writeEntries_cons, writeEntries_cons, copyEntries_insert, find?_copyEntries]
    congr 1
    cases ss with
    | nil => rfl
    | cons s' ss =>
      have hnew : copy (map default (writeEntries v (s' :: ss) [])) =
          map default (writeEntries v.copy (s' :: ss) []) := by
        rw [copy, ih, copyEntries]
      cases Entries.find? (.str s) es with
      | none => exact hnew
      | some u =>
        cases u with
        | map t sub =>
          show copy (map t (writeEntries v (s' :: ss) sub)) =
            map default (writeEntries v.copy (s' :: ss) (copyEntries sub))
          rw [copy, ih]
        | _ => exact hnew

/-! ## One more value -/

variable {kind : String → Prop}

theorem overlayEntries_cons {k : Key} {v : Tree α} (hv : v.isUndefined = false)
    (es fs : List (Key × Tree α)) :
    overlayEntries ((k, v) :: es) fs =
      overlayEntries es (Entries.insert k (overlay v (Entries.find? k fs)) fs) := by
  rw [overlayEntries]
  simp [hv]

/-- A key that the layer does not have may be written before or after, if it is there. -/
theorem overlayEntries_insert_of_notMem {s : String} (a : Tree α) {es fs : List (Key × Tree α)}
    (hes : NamedEntries kind es) (hs : Key.str s ∉ es.map (·.1))
    (h : (Entries.find? (.str s) fs).isSome) :
    overlayEntries es (Entries.insert (.str s) a fs) =
      Entries.insert (.str s) a (overlayEntries es fs) := by
  induction es generalizing fs with
  | nil => rfl
  | cons e es ih =>
    obtain ⟨k, v⟩ := e
    obtain ⟨⟨s', rfl, -⟩, -, -, hrest⟩ := hes
    rw [List.map_cons, List.mem_cons, not_or] at hs
    have hne : s ≠ s' := fun heq => hs.1 (congrArg Key.str heq)
    rw [overlayEntries, overlayEntries, Entries.find?_insert_of_ne hne.symm]
    split
    · exact ih hrest hs.2 h
    · rw [Entries.insert_comm hne _ _ h, ih hrest hs.2]
      rw [Entries.find?_insert_of_ne hne]
      exact h

/-- What the layer says of a key that it does not have. -/
theorem find?_overlayEntries_of_notMem {s : String} {es : List (Key × Tree α)}
    (hs : Key.str s ∉ es.map (·.1)) (fs : List (Key × Tree α)) :
    Entries.find? (.str s) (overlayEntries es fs) = Entries.find? (.str s) fs := by
  induction es generalizing fs with
  | nil => rfl
  | cons e es ih =>
    obtain ⟨k, v⟩ := e
    rw [List.map_cons, List.mem_cons, not_or] at hs
    obtain ⟨hne, hrest⟩ := hs
    rw [overlayEntries]
    split
    · exact ih hrest fs
    · rw [ih hrest, Entries.find?_insert_of_ne_str (Ne.symm hne)]

/-- What the layer says of a key that it has. -/
theorem find?_overlayEntries_of_find? {s : String} {v : Tree α} {es : List (Key × Tree α)}
    (hes : KeyedOnceEntries es) (hfind : Entries.find? (.str s) es = some v)
    (hv : v.isUndefined = false) (fs : List (Key × Tree α)) :
    Entries.find? (.str s) (overlayEntries es fs) =
      some (overlay v (Entries.find? (.str s) fs)) := by
  induction es generalizing fs with
  | nil => cases hfind
  | cons e es ih =>
    obtain ⟨k, w⟩ := e
    obtain ⟨hnew, -, hrest⟩ := hes
    rw [Entries.find?] at hfind
    split at hfind
    · rename_i hs
      cases hfind
      obtain rfl := Key.same_str_iff.1 hs
      rw [overlayEntries_cons hv,
        find?_overlayEntries_of_notMem (notMem_of_same_eq_false hnew),
        Entries.find?_insert_self hs]
    · rename_i hs
      have hne : k ≠ .str s := fun heq => hs (Key.same_str_iff.2 heq)
      rw [overlayEntries]
      split
      · exact ih hrest hfind fs
      · rw [ih hrest hfind, Entries.find?_insert_of_ne_str hne]

/-- A layer with one more value at a key, or another one, writes that key last. -/
theorem overlayEntries_insert {s : String} {v : Tree α} (hv : v.isUndefined = false)
    {es : List (Key × Tree α)} (hes : NamedEntries kind es)
    (hheld : ∀ u, Entries.find? (.str s) es = some u → u.isUndefined = false)
    (fs : List (Key × Tree α)) :
    overlayEntries (Entries.insert (.str s) v es) fs =
      Entries.insert (.str s) (overlay v (Entries.find? (.str s) fs)) (overlayEntries es fs) := by
  have hself : (Key.str s).same (.str s) = true := Key.same_str_iff.2 rfl
  induction es generalizing fs with
  | nil => rw [Entries.insert, overlayEntries_cons hv]; rfl
  | cons e es ih =>
    obtain ⟨k, u⟩ := e
    obtain ⟨⟨s', rfl, -⟩, hnew, -, hrest⟩ := hes
    by_cases hs : s = s'
    · subst hs
      have hu : u.isUndefined = false := hheld u (by rw [Entries.find?, if_pos hself])
      rw [Entries.insert, if_pos hself, overlayEntries_cons hv, overlayEntries_cons hu,
        ← overlayEntries_insert_of_notMem _ hrest hnew, Entries.insert_insert_self hself]
      rw [Entries.find?_insert_self hself]
      rfl
    · have hne : (Key.str s).same (.str s') ≠ true := fun h =>
        hs (by simpa using (Key.same_str_iff.1 h).symm)
      have hheld' : ∀ u, Entries.find? (.str s) es = some u → u.isUndefined = false := fun w hw =>
        hheld w (by rw [Entries.find?, if_neg hne, hw])
      rw [Entries.insert, if_neg hne, overlayEntries, overlayEntries]
      split
      · exact ih hrest hheld' fs
      · rw [ih hrest hheld', Entries.find?_insert_of_ne hs]

/-! ## One more leaf -/

theorem overlay_of_ne_map {v : Tree α} (hv : ∀ t es, v ≠ map t es) (held : Option (Tree α)) :
    overlay v held = v.copy := by
  cases v with
  | map t es => exact absurd rfl (hv t es)
  | _ => cases held <;> rfl

theorem isUndefined_writeBelow {v : Tree α} (hv : v.isUndefined = false) (segments : List String)
    (held : Option (Tree α)) : (writeBelow v segments held).isUndefined = false := by
  cases segments with
  | nil => exact hv
  | cons s ss =>
    cases held with
    | none => rfl
    | some u => cases u <;> rfl

/-- A layer with one more leaf, at a path where it has nothing yet, writes that leaf last. -/
theorem overlayEntries_writeEntries {v : Tree α} (hv : v.isUndefined = false)
    (hleaf : ∀ t es, v ≠ map t es) {segments : List String} {es : List (Key × Tree α)}
    (hes : NamedEntries kind es) (hway : Way (fun _ => True) (· = none) segments es)
    (fs : List (Key × Tree α)) :
    overlayEntries (writeEntries v segments es) fs =
      writeEntries v.copy segments (overlayEntries es fs) := by
  induction segments generalizing es fs with
  | nil => rfl
  | cons s ss ih =>
    -- on the way there is nothing or a mapping, so nothing that is held is undefined
    have hheld : ∀ u, Entries.find? (.str s) es = some u → u.isUndefined = false := by
      intro u hu
      cases ss with
      | nil =>
        rw [Way, hu] at hway
        cases hway
      | cons s' ss =>
        rcases way_cons_cons_iff.1 hway with ⟨hnone, -⟩ | ⟨t, sub, hsome, -⟩
        · rw [hnone] at hu
          cases hu
        · rw [hsome] at hu
          cases hu
          rfl
    rw [writeEntries_cons, overlayEntries_insert (isUndefined_writeBelow hv ss _) hes hheld,
      writeEntries_cons]
    congr 1
    cases ss with
    | nil => exact overlay_of_ne_map hleaf _
    | cons s' ss =>
      have hcopy : ∀ sub, copy (map default (writeEntries v (s' :: ss) sub)) =
          map default (writeEntries v.copy (s' :: ss) (copyEntries sub)) := fun sub => by
        rw [copy, copyEntries_writeEntries]
      rcases way_cons_cons_iff.1 hway with ⟨hnone, -⟩ | ⟨t, sub, hsome, -, hsub⟩
      · have hnew : Way (fun _ => True) (· = none) (s' :: ss) ([] : List (Key × Tree α)) :=
          way_nil (by rfl) _
        have hnil : NamedEntries kind ([] : List (Key × Tree α)) := trivial
        rw [hnone, find?_overlayEntries_of_notMem (notMem_of_find?_eq_none hnone)]
        cases Entries.find? (.str s) fs with
        | none => exact hcopy []
        | some held =>
          cases held with
          | map t' gs =>
            show map t' (overlayEntries (writeEntries v (s' :: ss) []) gs) = _
            rw [ih hnil hnew]
            rfl
          | _ => exact hcopy []
      · rw [hsome, find?_overlayEntries_of_find? (keyedOnceEntries_of_named es hes) hsome rfl]
        cases Entries.find? (.str s) fs with
        | none => exact hcopy sub
        | some held =>
          cases held with
          | map t' gs =>
            show map t' (overlayEntries (writeEntries v (s' :: ss) sub) gs) = _
            rw [ih (named_of_find? hes hsome) hsub]
            rfl
          | _ => exact hcopy sub

/-! ## A layer from its leaves -/

/-- Leaves written apart from a path keep the way to it. -/
theorem way_writeLeaves {free : α → Prop} {last : Option (Tree α) → Prop} (hfree : free default)
    {segments : List String} {flat : Flat α}
    (hapart : ∀ leaf ∈ flat, Path.Apart segments (Path.split leaf.1)) {es : List (Key × Tree α)}
    (h : Way free last segments es) : Way free last segments (writeLeaves flat es) := by
  induction flat generalizing es with
  | nil => exact h
  | cons leaf flat ih =>
    obtain ⟨hfirst, hrest⟩ := List.forall_mem_cons.1 hapart
    exact ih hrest (way_writeEntries_of_apart hfree leaf.2 hfirst h)

theorem namedEntries_writeLeaves {flat : Flat α}
    (hnamed : ∀ leaf ∈ flat, leaf.2.Named kind ∧ ∀ s ∈ Path.split leaf.1, kind s)
    {es : List (Key × Tree α)} (h : NamedEntries kind es) :
    NamedEntries kind (writeLeaves flat es) := by
  induction flat generalizing es with
  | nil => exact h
  | cons leaf flat ih =>
    obtain ⟨hfirst, hrest⟩ := List.forall_mem_cons.1 hnamed
    exact ih hrest (namedEntries_writeEntries hfirst.1 hfirst.2 h)

/-- A layer from leaves that are apart does what writing copies of them does. -/
theorem overlayEntries_entriesOfFlat {flat : Flat α}
    (hleaf : ∀ leaf ∈ flat, leaf.2.isUndefined = false ∧ ∀ t es, leaf.2 ≠ map t es)
    (hapart : flat.Pairwise fun a b => Path.Apart (Path.split a.1) (Path.split b.1))
    (fs : List (Key × Tree α)) :
    overlayEntries (entriesOfFlat flat) fs =
      writeLeaves (flat.map fun leaf => (leaf.1, leaf.2.copy)) fs := by
  -- from the last leaf on: nothing stands on its way when it is written
  induction flat using List.reverseRecOn with
  | nil => rfl
  | append_singleton flat leaf ih =>
    obtain ⟨hbefore, -, hlast⟩ := List.pairwise_append.1 hapart
    have hbefore' : ∀ earlier ∈ flat, Path.Apart (Path.split leaf.1) (Path.split earlier.1) :=
      fun earlier hmem => (hlast earlier hmem leaf (List.mem_singleton_self leaf)).symm
    obtain ⟨hrest, hself⟩ := List.forall_mem_append.1 hleaf
    obtain ⟨hv, hne⟩ := hself leaf (List.mem_singleton_self leaf)
    have hnamed : NamedEntries (fun _ => True) (entriesOfFlat flat) := by
      refine namedEntries_writeLeaves (fun earlier hmem => ⟨?_, fun _ _ => trivial⟩) trivial
      have hmap := (hrest earlier hmem).2
      cases hleaf : earlier.2 with
      | map t es => exact absurd hleaf (hmap t es)
      | _ => exact trivial
    have hway : Way (fun _ => True) (· = none) (Path.split leaf.1) (entriesOfFlat flat) :=
      way_writeLeaves trivial hbefore' (way_nil (by rfl) _)
    calc overlayEntries (entriesOfFlat (flat ++ [leaf])) fs
      _ = overlayEntries (writeEntries leaf.2 (Path.split leaf.1) (entriesOfFlat flat)) fs := by
          rw [entriesOfFlat, List.foldl_concat, ← entriesOfFlat]
      _ = writeEntries leaf.2.copy (Path.split leaf.1) (overlayEntries (entriesOfFlat flat) fs) :=
          overlayEntries_writeEntries hv hne hnamed hway fs
      _ = writeLeaves ((flat ++ [leaf]).map fun leaf => (leaf.1, leaf.2.copy)) fs := by
          rw [ih hrest hbefore, List.map_append, writeLeaves, writeLeaves, List.foldl_append]
          rfl

end Tree

namespace Tree

/-- Leaves written into a mapping one after the other. -/
theorem foldl_write (flat : Flat Unit) (fs : List (Key × Value)) :
    flat.foldl (fun t leaf => t.write leaf.1 leaf.2.copy) (map () fs) =
      map () (writeLeaves (flat.map fun leaf => (leaf.1, leaf.2.copy)) fs) := by
  induction flat generalizing fs with
  | nil => rfl
  | cons leaf flat ih => exact ih _

end Tree

end LayeredConfig
