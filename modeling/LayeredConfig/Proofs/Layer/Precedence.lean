import LayeredConfig.Proofs.Layer.Nesting

/-!
# What a layer leaves at a path

The last word on a path is what a layer has there, whatever it is laid over: a value
that stands at the end of its way in the layer stands there afterwards.  A layer that
has nothing on a way leaves what stood at its end.

* `Tree.way_overlayEntries` — what a layer has at the end of a way.
* `Tree.way_overlayEntries_of_none` — a layer that has nothing there.
* `Store.overlaid_map` — a definition with a layer laid over it.
* `Store.get_foldl_overlaid` — what is found where layers are laid over one another.
* `Store.merge_eq_setAll` — a store merges a layer as it sets its leaves.
-/

namespace LayeredConfig

namespace Tree

/-! ## Ways through layers -/

section Ways

variable {α : Type} [Inhabited α]

/-- A way leads through the copies as it led through the values. -/
theorem way_copyEntries {v : Tree α} {segments : List String} {es : List (Key × Tree α)}
    (h : Way (fun _ => True) (· = some v) segments es) :
    Way (fun _ => True) (· = some v.copy) segments (copyEntries es) := by
  induction segments generalizing es with
  | nil => trivial
  | cons s ss ih =>
    cases ss with
    | nil =>
      have hend : Entries.find? (.str s) es = some v := h
      rw [Way, find?_copyEntries, hend]
      rfl
    | cons s' ss =>
      rw [way_cons_cons_iff, find?_copyEntries]
      rcases way_cons_cons_iff.1 h with ⟨-, hnothing⟩ | ⟨t, sub, hsome, -, hsub⟩
      · cases hnothing
      · exact Or.inr ⟨default, copyEntries sub, by rw [hsome]; rfl, trivial, ih hsub⟩

/-- What stands at the end of a way through a layer stands there when the layer is laid over
anything. -/
theorem way_overlayEntries {v : Tree α} (hv : v.isUndefined = false) (hmap : ∀ t es, v ≠ map t es)
    {segments : List String} {es : List (Key × Tree α)} (hes : KeyedOnceEntries es)
    (h : Way (fun _ => True) (· = some v) segments es) (fs : List (Key × Tree α)) :
    Way (fun _ => True) (· = some v.copy) segments (overlayEntries es fs) := by
  induction segments generalizing es fs with
  | nil => trivial
  | cons s ss ih =>
    cases ss with
    | nil =>
      rw [Way, find?_overlayEntries_of_find? hes h hv, overlay_of_ne_map hmap]
    | cons s' ss =>
      rcases way_cons_cons_iff.1 h with ⟨-, hnothing⟩ | ⟨t, sub, hsome, -, hsub⟩
      · cases hnothing
      rw [way_cons_cons_iff, find?_overlayEntries_of_find? hes hsome rfl]
      right
      have hnew : ∃ t' sub', some (copy (map t sub)) = some (map t' sub') ∧ True ∧
          Way (fun _ => True) (· = some v.copy) (s' :: ss) sub' :=
        ⟨default, copyEntries sub, rfl, trivial, way_copyEntries hsub⟩
      cases Entries.find? (.str s) fs with
      | none => exact hnew
      | some held =>
        cases held with
        | map t' gs =>
          exact ⟨t', overlayEntries sub gs, rfl, trivial, ih (keyedOnce_of_find? hes hsome) hsub gs⟩
        | _ => exact hnew

/-- What stands at the end of a way stays there under a layer that has nothing on it. -/
theorem way_overlayEntries_of_none {w : Tree α} {segments : List String}
    {es : List (Key × Tree α)} (hes : KeyedOnceEntries es)
    (h : Way (fun _ => True) (· = none) segments es) {fs : List (Key × Tree α)}
    (hw : Way (fun _ => True) (· = some w) segments fs) :
    Way (fun _ => True) (· = some w) segments (overlayEntries es fs) := by
  induction segments generalizing es fs with
  | nil => trivial
  | cons s ss ih =>
    cases ss with
    | nil =>
      rw [Way, find?_overlayEntries_of_notMem (notMem_of_find?_eq_none h)]
      exact hw
    | cons s' ss =>
      rcases way_cons_cons_iff.1 hw with ⟨-, hnothing⟩ | ⟨t', gs, hheld, -, hgs⟩
      · cases hnothing
      rw [way_cons_cons_iff]
      right
      rcases way_cons_cons_iff.1 h with ⟨hnone, -⟩ | ⟨t, sub, hsome, -, hsub⟩
      · rw [find?_overlayEntries_of_notMem (notMem_of_find?_eq_none hnone)]
        exact ⟨t', gs, hheld, trivial, hgs⟩
      · rw [find?_overlayEntries_of_find? hes hsome rfl, hheld]
        exact ⟨t', overlayEntries sub gs, rfl, trivial, ih (keyedOnce_of_find? hes hsome) hsub hgs⟩

end Ways

end Tree

/-! ## Layers over a definition -/

namespace Store

theorem overlaid_map (fs : List (Key × Value)) (m : Option Share) {es : List (Key × Shared)}
    (h : Tree.areLegible es = true) :
    overlaid (.map () fs) (.map m es) =
      .map () (Tree.overlayEntries (Tree.mapTagEntries (fun _ => ()) (Tree.unflattenShared es))
        fs) := by
  rw [overlaid_of_legibleEntries? (Tree.legibleEntries?_of_areLegible m h)]
  rfl

/-- A layer that cannot be taken apart leaves the definition as it is. -/
theorem overlaid_of_error {d : Value} {layer : Shared} {e : FlattenError}
    (h : layer.legibleEntries? = .error e) : overlaid d layer = d := by
  rw [overlaid, h]
  rfl

/-- No leaf of the layer stands at the path, on the way to it, or below it. -/
def Avoids (path : String) (layer : Shared) : Prop :=
  ∀ leaves, layer.flatten "" = .ok leaves →
    ∀ leaf ∈ leaves, Path.Apart (Path.split path) (Path.split leaf.1)

/-- A mapping stands at the root, and a value at the end of the way to a path. -/
def Holds (definition : Value) (path : String) (v : Value) : Prop :=
  ∃ fs, definition = .map () fs ∧ Tree.Way (fun _ => True) (· = some v) (Path.split path) fs

/-- What a definition holds at a path is found there. -/
theorem get_of_holds {d v : Value} {path : String} (hne : path ≠ "") (h : Holds d path v) :
    d.get path = .ok v := by
  obtain ⟨fs, rfl, hway⟩ := h
  have hsplit : Path.split path ≠ [] := by
    simpa [Path.split] using Path.splitChars_ne_nil path.toList
  obtain ⟨steps, hsteps⟩ := Tree.locate?_of_way hsplit hway ()
  rw [Tree.get, Tree.find?, if_neg hne, hsteps]
  rfl

/-- A definition over which a layer is laid holds a leaf of the layer, if none that comes later in
the layer concerns its path, and shared containers do not concern it. -/
theorem holds_overlaid {d : Value} (hd : ∃ fs, d = .map () fs) {layer : Shared} {path : String}
    {v : Shared} {front back : Flat (Option Share)}
    (hflat : layer.flatten "" = .ok (front ++ (path, v) :: back)) (hv : v.isUndefined = false)
    (hmap : ∀ m, v ≠ .map m []) (hsteady : Tree.Steady front path v back)
    (hback : ∀ leaf ∈ back, Path.Apart (Path.split path) (Path.split leaf.1)) :
    Holds (overlaid d layer) path v.erase.copy := by
  obtain ⟨fs, rfl⟩ := hd
  obtain ⟨m, es, rfl, hlegible, hes⟩ := Tree.flatten_eq_ok_iff.1 hflat
  refine ⟨_, overlaid_map fs m hlegible, Tree.way_overlayEntries ?_ ?_
    (Tree.keyedOnceEntries_of_named _
      (Tree.namedEntries_mapTagEntries _ _ (Tree.namedEntries_unflattenShared es))) ?_ fs⟩
  · rw [Tree.isUndefined_erase]
    exact hv
  · have hleaf : (path, v) ∈ Tree.flattenEntries "" es := by
      rw [← hes]
      exact List.mem_append_right _ List.mem_cons_self
    intro t gs heq
    cases v with
    | map m' hs =>
      cases hs with
      | nil => exact hmap m' rfl
      | cons e hs => exact Tree.ne_map_of_mem_entryLeaves "" es (Flat.mem_of_mem_ofList hleaf) rfl
    | _ => cases heq
  · exact Tree.way_mapTagEntries (fun _ _ => trivial) (fun o ho => by rw [ho]; rfl)
      (Tree.way_unflattenShared hes.symm hsteady hback)

/-- What a definition holds it still holds under a layer that does not concern the path. -/
theorem holds_overlaid_of_avoids {d v : Value} {path : String} (h : Holds d path v) {layer : Shared}
    (havoids : Avoids path layer) : Holds (overlaid d layer) path v := by
  cases hes : layer.legibleEntries? with
  | error e =>
    rw [overlaid_of_error hes]
    exact h
  | ok es =>
    obtain ⟨m, rfl, hlegible⟩ := Tree.legibleEntries?_eq_ok_iff.1 hes
    obtain ⟨fs, rfl, hway⟩ := h
    refine ⟨_, overlaid_map fs m hlegible, Tree.way_overlayEntries_of_none
      (Tree.keyedOnceEntries_of_named _
        (Tree.namedEntries_mapTagEntries _ _ (Tree.namedEntries_unflattenShared es))) ?_ hway⟩
    exact Tree.way_mapTagEntries (fun _ _ => trivial) (fun o ho => by rw [ho]; rfl)
      (Tree.way_unflattenShared_none (havoids _ (Tree.flatten_of_areLegible m hlegible "")))

theorem exists_foldl_overlaid {d : Value} (h : ∃ fs, d = .map () fs) (layers : List Shared) :
    ∃ fs, layers.foldl overlaid d = .map () fs := by
  induction layers generalizing d with
  | nil => exact h
  | cons layer layers ih => exact ih (exists_overlaid h layer)

theorem holds_foldl_overlaid {layers : List Shared} {d v : Value} {path : String}
    (havoids : ∀ layer ∈ layers, Avoids path layer) (h : Holds d path v) :
    Holds (layers.foldl overlaid d) path v := by
  induction layers generalizing d with
  | nil => exact h
  | cons layer layers ih =>
    obtain ⟨hfirst, hrest⟩ := List.forall_mem_cons.1 havoids
    exact ih hrest (holds_overlaid_of_avoids h hfirst)

/-- Where layers are laid over one another, a leaf of one of them is found at its path, whatever the
earlier layers hold, if no later leaf of its own layer and no leaf of a later layer concerns it. -/
theorem get_foldl_overlaid {d : Value} (hd : ∃ fs, d = .map () fs) {before after : List Shared}
    {layer : Shared} {path : String} {v : Shared} {front back : Flat (Option Share)}
    (hflat : layer.flatten "" = .ok (front ++ (path, v) :: back)) (hne : path ≠ "")
    (hv : v.isUndefined = false) (hmap : ∀ m, v ≠ .map m [])
    (hsteady : Tree.Steady front path v back)
    (hback : ∀ leaf ∈ back, Path.Apart (Path.split path) (Path.split leaf.1))
    (hafter : ∀ later ∈ after, Avoids path later) :
    ((before ++ layer :: after).foldl overlaid d).get path = .ok v.erase.copy := by
  rw [List.foldl_append, List.foldl_cons]
  have hlaid := holds_overlaid (exists_foldl_overlaid hd before) hflat hv hmap hsteady hback
  exact get_of_holds hne (holds_foldl_overlaid hafter hlaid)

end Store

/-! ## Merging and setting -/

namespace Store

variable {σ φ : Type}

/-- The store after values have been set one after the other, whether or not each of its
definitions could be resolved. -/
def setAll (leaves : Flat Unit) (s : Store σ φ) : Store σ φ :=
  leaves.foldl (fun s leaf => (s.set leaf.1 leaf.2).1) s

theorem definition_setAll (leaves : Flat Unit) (s : Store σ φ) :
    (s.setAll leaves).definition =
      leaves.foldl (fun t leaf => t.write leaf.1 leaf.2.copy) s.definition := by
  induction leaves generalizing s with
  | nil => rfl
  | cons leaf leaves ih =>
    refine (ih (s.set leaf.1 leaf.2).1).trans ?_
    rw [definition_set, List.foldl_cons]

theorem definition_merge (s : Store σ φ) {es : List (Key × Value)}
    (h : Tree.areLegible es = true) :
    (s.merge (.map () es)).1.definition =
      (Tree.map () (Tree.unflattenEntries es) : Value).overlay (some s.definition) := by
  have hes : (Tree.map () es : Value).unmarked.legibleEntries? =
      .ok (Tree.mapTagEntries (fun _ => none) es) :=
    Tree.legibleEntries?_of_areLegible none (by rw [Tree.areLegible_mapTagEntries, h])
  rcases s.mergeShared_cases (Tree.map () es : Value).unmarked with
    ⟨hnull, -⟩ | ⟨e, -, herror, -⟩ | ⟨gs, d, -, -, hd, heq⟩
  · cases hnull
  · rw [hes] at herror
    cases herror
  · rw [merge, heq, definition, registry_refresh]
    change d.value = _
    rw [hd, overlaid_of_legibleEntries? hes, Tree.erase_map, Tree.unflattenShared_unmarked]

/-- Merging a mapping, whose keys may be paths, is a sequence of sets: laid over a definition, it
gives the tree that writing its leaves one after the other gives, the order of the keys included,
provided that no leaf is undefined or an empty mapping and that their paths are apart. -/
theorem merge_eq_setAll (fs : List (Key × Value)) {es : List (Key × Value)} {leaves : Flat Unit}
    (hflat : (Tree.map () es : Value).flatten "" = .ok leaves)
    (hleaf : ∀ leaf ∈ leaves, leaf.2.isUndefined = false ∧ leaf.2 ≠ .map () [])
    (hapart : leaves.Pairwise fun a b => Path.Apart (Path.split a.1) (Path.split b.1)) :
    (∃ layer, (Tree.map () es : Value).unflatten = .ok layer ∧
      (Tree.map () fs).merge? layer =
        .ok (leaves.foldl (fun t leaf => t.write leaf.1 leaf.2.copy) (.map () fs))) ∧
      ∀ s : Store σ φ, s.definition = .map () fs →
        (s.merge (.map () es)).1.definition = (s.setAll leaves).definition := by
  obtain ⟨_, _, heq, hlegible, rfl⟩ := Tree.flatten_eq_ok_iff.1 hflat
  cases heq
  have hlayer : (Tree.map () (Tree.overlayEntries (Tree.unflattenEntries es) fs) : Value) =
      (Tree.flattenEntries "" es).foldl (fun t leaf => t.write leaf.1 leaf.2.copy)
        (.map () fs) := by
    have hne : ∀ leaf ∈ Tree.flattenEntries "" es,
        leaf.2.isUndefined = false ∧ ∀ t gs, leaf.2 ≠ .map t gs := fun leaf hmem =>
      ⟨(hleaf leaf hmem).1, Tree.ne_map_of_mem_flattenEntries hmem (hleaf leaf hmem).2⟩
    rw [Tree.foldl_write, ← Tree.overlayEntries_entriesOfFlat hne hapart]
    rfl
  constructor
  · refine ⟨_, Tree.unflatten_of_areLegible () hlegible, ?_⟩
    rw [← hlayer]
    rfl
  · intro s hs
    rw [definition_merge s hlegible, definition_setAll, hs, ← hlayer]
    rfl

/-- A definition of two services. -/
def services : List (Key × Value) :=
  [(.str "web", .map () [(.str "port", .atom (.int 80))]), (.str "db", .str "local")]

/-- Changes of both services, with paths of the two mixed. -/
def changes : List (Key × Value) :=
  [(.str "db:host", .str "far"), (.str "web", .map () [(.str "tls", .atom (.bool true))]),
    (.str "db.ports", .list () [.atom (.int 1), .atom (.int 2)])]

/-- The changes are merged as they are set. -/
theorem merge_eq_setAll_services :
    ∃ layer, (Tree.map () changes : Value).unflatten = .ok layer ∧
      (Tree.map () services).merge? layer =
        .ok ((Tree.flattenEntries "" changes).foldl (fun t leaf => t.write leaf.1 leaf.2.copy)
          (.map () services)) := by
  have hflat : (Tree.map () changes : Value).flatten "" =
      .ok (Tree.flattenEntries "" changes) :=
    Tree.flatten_of_areLegible () (by decide +kernel) ""
  have hleaf : ∀ leaf ∈ Tree.flattenEntries "" changes,
      leaf.2.isUndefined = false ∧ leaf.2 ≠ .map () [] := by
    have htruthy : (Tree.flattenEntries "" changes).all (fun leaf =>
        !leaf.2.isUndefined && leaf.2.truthy) = true := by
      decide +kernel
    intro leaf hmem
    have h := List.all_eq_true.1 htruthy leaf hmem
    rw [Bool.and_eq_true, Bool.not_eq_true'] at h
    refine ⟨h.1, fun hempty => ?_⟩
    rw [hempty] at h
    cases h.2
  have hapart : (Tree.flattenEntries "" changes).Pairwise fun a b =>
      Path.Apart (Path.split a.1) (Path.split b.1) := by
    decide +kernel
  exact (merge_eq_setAll (σ := Unit) (φ := Unit) services hflat hleaf hapart).1

end Store

end LayeredConfig
