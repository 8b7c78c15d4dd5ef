import LayeredConfig.Proofs.Layer.Merging
import LayeredConfig.Proofs.Path.Branches
import LayeredConfig.Proofs.Path.Ways
import LayeredConfig.Proofs.Value.Marks

/-!
# Layers with shared containers

A file may give one empty mapping several places by its aliases, and a key that is a
path may lead through it.  What is written there shows at all its places, in the
leaves that come later as well.  A leaf stands where its path says if this does not
concern it: if the layer writes below no such mapping, or if neither the leaf nor
one above it has to do with such a mapping.

* `Tree.Steady` — shared containers do not concern a leaf.
* `Tree.way_unflattenShared` — then it stands at the end of its way.
* `Tree.way_unflattenShared_none` — nothing stands on a way that no leaf concerns.
* `Tree.namedEntries_unflattenShared` — no key occurs twice in one mapping or holds a separator.
* `Tree.unflattenShared_unmarked` — without shared containers, a layer is nested as any other.
-/

namespace LayeredConfig.Tree

/-! ## Marks -/

mutual

theorem allMarks_of_marks {P : Share → Prop} :
    (t : Shared) → (∀ share ∈ t.marks, P share) → t.AllMarks P
  | atom a, _ => allMarks_atom a
  | list m items, h => by
    rw [marks, List.forall_mem_append] at h
    exact allMarks_list_iff.2 ⟨fun share hm => h.1 share (by simp [hm]),
      allMarks_of_itemMarks items h.2⟩
  | map m es, h => by
    rw [marks, List.forall_mem_append] at h
    exact allMarks_map_iff.2 ⟨fun share hm => h.1 share (by simp [hm]),
      allMarks_of_entryMarks es h.2⟩
  | tuple items, h => allMarks_tuple_iff.2 (allMarks_of_itemMarks items h)
  | set members, _ => allMarks_set members

theorem allMarks_of_itemMarks {P : Share → Prop} :
    (items : List Shared) → (∀ share ∈ itemMarks items, P share) → ∀ x ∈ items, x.AllMarks P
  | [], _ => nofun
  | x :: xs, h => by
    rw [itemMarks, List.forall_mem_append] at h
    exact List.forall_mem_cons.2 ⟨allMarks_of_marks x h.1, allMarks_of_itemMarks xs h.2⟩

theorem allMarks_of_entryMarks {P : Share → Prop} :
    (es : List (Key × Shared)) → (∀ share ∈ entryMarks es, P share) → ∀ e ∈ es, e.2.AllMarks P
  | [], _ => nofun
  | (_, v) :: es, h => by
    rw [entryMarks, List.forall_mem_append] at h
    exact List.forall_mem_cons.2 ⟨allMarks_of_marks v h.1, allMarks_of_entryMarks es h.2⟩

end

/-- What carries no mark stays as it is when marked containers change. -/
theorem reviseAll_of_marks {v : Shared} (h : v.marks = []) (revisions : List Revision) :
    reviseAll revisions v = v := by
  induction revisions with
  | nil => rfl
  | cons rev revisions ih =>
    change (reviseAll revisions v).revise rev = v
    rw [ih]
    exact replaceShare_of_allMarks rev.content v (allMarks_of_marks v (by simp [h]))

/-- The leaf itself carries no mark, and if it is a mapping, it is empty. -/
structure Bare (v : Shared) : Prop where
  mark : v.mark? = none
  empty : ∀ m es, v = map m es → es = []

theorem Bare.reviseAll {v : Shared} (h : v.Bare) (revisions : List Revision) :
    (reviseAll revisions v).Bare := by
  induction revisions with
  | nil => exact h
  | cons rev revisions ih =>
    refine ⟨mark?_replaceShare ih.mark rev.share rev.content, fun m es heq => ?_⟩
    obtain ⟨es', hmap, rfl⟩ := exists_of_replaceShare_eq_map ih.mark heq
    rw [ih.empty m es' hmap]
    rfl

/-! ## One leaf -/

/-- A leaf is written at its path, or changes the marked container that its way leads through. -/
theorem place_cases (n : Nest) (leaf : String × Shared) :
    n.place leaf = ⟨n.revisions,
      writeEntries (reviseAll n.revisions leaf.2) (Path.split leaf.1) n.entries⟩ ∨
    ∃ rev, writeRevision? (reviseAll n.revisions leaf.2) (Path.split leaf.1) n.entries = some rev ∧
      n.place leaf =
        ⟨rev :: n.revisions, replaceShareEntries rev.share rev.content n.entries⟩ := by
  cases h : writeRevision? (reviseAll n.revisions leaf.2) (Path.split leaf.1) n.entries with
  | none => exact Or.inl (by rw [Nest.place, h])
  | some rev => exact Or.inr ⟨rev, rfl, by rw [Nest.place, h]⟩

/-- A leaf whose way meets nothing marked is written there, and nothing else changes. -/
theorem place_of_along {n : Nest} {leaf : String × Shared}
    (h : Along (fun u => u.mark? = none) (Path.split leaf.1) n.entries) :
    n.place leaf = ⟨n.revisions,
      writeEntries (reviseAll n.revisions leaf.2) (Path.split leaf.1) n.entries⟩ := by
  rw [Nest.place, writeRevision?_of_along (fun _ _ hm => hm) _ h]

/-- A leaf that is written apart from a way keeps it. -/
theorem way_place {last : Option Shared → Prop}
    (hlast : ∀ share new o, last o → last (o.map (replaceShare share new)))
    {segments : List String} {leaf : String × Shared}
    (hapart : Path.Apart segments (Path.split leaf.1)) {n : Nest}
    (h : Way (· = none) last segments n.entries) :
    Way (· = none) last segments (n.place leaf).entries := by
  rcases place_cases n leaf with heq | ⟨rev, -, heq⟩ <;> rw [heq]
  · exact way_writeEntries_of_apart (by rfl) _ hapart h
  · exact way_replaceShareEntries rev.share rev.content (hlast rev.share rev.content) h

/-- A leaf puts nothing marked on a way, unless it is marked and stands there itself. -/
theorem along_place {segments : List String} {leaf : String × Shared}
    (hbare : Path.split leaf.1 <+: segments → Path.split leaf.1 ≠ segments → leaf.2.Bare) {n : Nest}
    (h : Along (fun u => u.mark? = none) segments n.entries) :
    Along (fun u => u.mark? = none) segments (n.place leaf).entries := by
  rcases place_cases n leaf with heq | ⟨rev, -, heq⟩ <;> rw [heq]
  · refine along_writeEntries tagTest_mark? (fun hp hne => ?_) h
    exact ⟨((hbare hp hne).reviseAll _).mark, ((hbare hp hne).reviseAll _).empty⟩
  · exact along_replaceShareEntries _ _ h

/-! ## All leaves -/

theorem way_foldl_place {last : Option Shared → Prop}
    (hlast : ∀ share new o, last o → last (o.map (replaceShare share new)))
    {segments : List String} {leaves : Flat (Option Share)}
    (hapart : ∀ leaf ∈ leaves, Path.Apart segments (Path.split leaf.1)) {n : Nest}
    (h : Way (· = none) last segments n.entries) :
    Way (· = none) last segments (leaves.foldl Nest.place n).entries := by
  induction leaves generalizing n with
  | nil => exact h
  | cons leaf leaves ih =>
    obtain ⟨hfirst, hrest⟩ := List.forall_mem_cons.1 hapart
    exact ih hrest (way_place hlast hfirst h)

theorem along_foldl_place {segments : List String} {leaves : Flat (Option Share)}
    (hbare : ∀ leaf ∈ leaves, Path.split leaf.1 <+: segments → Path.split leaf.1 ≠ segments →
      leaf.2.Bare) {n : Nest} (h : Along (fun u => u.mark? = none) segments n.entries) :
    Along (fun u => u.mark? = none) segments (leaves.foldl Nest.place n).entries := by
  induction leaves generalizing n with
  | nil => exact h
  | cons leaf leaves ih =>
    obtain ⟨hfirst, hrest⟩ := List.forall_mem_cons.1 hbare
    exact ih hrest (along_place hfirst h)

/-- No leaf is written below an earlier one that stands elsewhere too. -/
def Undisturbed (leaves : Flat (Option Share)) : Prop :=
  leaves.Pairwise fun a b =>
    Path.split a.1 <+: Path.split b.1 → Path.split a.1 ≠ Path.split b.1 → a.2.mark? = none

instance (leaves : Flat (Option Share)) : Decidable (Undisturbed leaves) :=
  inferInstanceAs (Decidable (leaves.Pairwise _))

/-- Such leaves are written one after the other, and no container changes. -/
theorem foldl_place_of_undisturbed {leaves : Flat (Option Share)} (h : Undisturbed leaves)
    (hmap : ∀ leaf ∈ leaves, ∀ m e fs, leaf.2 ≠ map m (e :: fs)) {es : List (Key × Shared)}
    (halong : ∀ leaf ∈ leaves, Along (fun u => u.mark? = none) (Path.split leaf.1) es) :
    leaves.foldl Nest.place ⟨[], es⟩ = ⟨[], writeLeaves leaves es⟩ := by
  induction leaves generalizing es with
  | nil => rfl
  | cons leaf leaves ih =>
    obtain ⟨hbelow, h⟩ := List.pairwise_cons.1 h
    obtain ⟨hfirst, hmap⟩ := List.forall_mem_cons.1 hmap
    obtain ⟨hhere, halong⟩ := List.forall_mem_cons.1 halong
    rw [List.foldl_cons, place_of_along hhere]
    refine ih h hmap fun other hmem => ?_
    refine along_writeEntries tagTest_mark? (fun hp hne => ⟨hbelow other hmem hp hne, ?_⟩)
      (halong other hmem)
    intro m fs heq
    cases fs with
    | nil => rfl
    | cons e fs => exact absurd heq (hfirst m e fs)

/-! ## Layers -/

/-- Shared containers do not concern a leaf: no leaf is written below such a container, or neither
the leaf nor one above it is, or holds, one. -/
def Steady (front : Flat (Option Share)) (path : String) (v : Shared)
    (back : Flat (Option Share)) : Prop :=
  Undisturbed (front ++ (path, v) :: back) ∨
    v.marks = [] ∧ ∀ leaf ∈ front, Path.split leaf.1 <+: Path.split path →
      Path.split leaf.1 ≠ Path.split path → leaf.2.mark? = none

instance (front : Flat (Option Share)) (path : String) (v : Shared)
    (back : Flat (Option Share)) : Decidable (Steady front path v back) :=
  inferInstanceAs (Decidable (_ ∨ _))

/-- The last leaf that concerns a way stands at its end, if shared containers do not concern it. -/
theorem way_unflattenShared {es : List (Key × Shared)} {front back : Flat (Option Share)}
    {path : String} {v : Shared} (hes : flattenEntries "" es = front ++ (path, v) :: back)
    (hsteady : Steady front path v back)
    (hback : ∀ leaf ∈ back, Path.Apart (Path.split path) (Path.split leaf.1)) :
    Way (fun _ => True) (· = some v) (Path.split path) (unflattenShared es) := by
  have hmap : ∀ leaf ∈ front ++ (path, v) :: back, ∀ m e fs, leaf.2 ≠ map m (e :: fs) :=
    fun leaf hmem m e fs => by
      rw [← hes] at hmem
      exact ne_map_of_mem_entryLeaves "" es (Flat.mem_of_mem_ofList hmem)
  rw [unflattenShared, hes]
  rcases hsteady with hnone | ⟨hv, habove⟩
  · rw [foldl_place_of_undisturbed hnone hmap fun _ _ => along_nil _, writeLeaves,
      List.foldl_append, List.foldl_cons]
    have hfree : Along (fun _ => True) (Path.split path) (writeLeaves front []) :=
      along_of_forall (fun _ => trivial) _ _
    have hthere : Way (fun _ => True) (· = some v) (Path.split path)
        (writeEntries v (Path.split path) (writeLeaves front [])) :=
      way_of_along trivial (fun _ _ _ => trivial) (by rfl) hfree
    exact way_writeLeaves trivial hback hthere
  · have hbare : ∀ leaf ∈ front, Path.split leaf.1 <+: Path.split path →
        Path.split leaf.1 ≠ Path.split path → leaf.2.Bare := by
      refine fun leaf hmem hp hne => ⟨habove leaf hmem hp hne, fun m fs heq => ?_⟩
      cases fs with
      | nil => rfl
      | cons e fs => exact absurd heq (hmap leaf (List.mem_append_left _ hmem) m e fs)
    have halong : Along (fun u => u.mark? = none) (Path.split path)
        (front.foldl Nest.place ⟨[], []⟩).entries := along_foldl_place hbare (along_nil _)
    rw [List.foldl_append, List.foldl_cons, place_of_along halong, reviseAll_of_marks hv]
    have hkeep : ∀ share new (o : Option Shared), o = some v →
        o.map (replaceShare share new) = some v := by
      rintro share new _ rfl
      exact congrArg some (replaceShare_of_allMarks new v (allMarks_of_marks v (by simp [hv])))
    have hthere : Way (· = none) (· = some v) (Path.split path)
        (writeEntries v (Path.split path) (front.foldl Nest.place ⟨[], []⟩).entries) :=
      way_of_along (by rfl) (fun _ _ hm => hm) (by rfl) halong
    exact way_mono (fun _ _ => trivial) (fun _ h => h) (way_foldl_place hkeep hback hthere)

/-- Nothing stands on the way to a path that no leaf concerns. -/
theorem way_unflattenShared_none {es : List (Key × Shared)} {segments : List String}
    (hapart : ∀ leaf ∈ flattenEntries "" es, Path.Apart segments (Path.split leaf.1)) :
    Way (fun _ => True) (· = none) segments (unflattenShared es) := by
  have hkeep : ∀ share new (o : Option Shared), o = none →
      o.map (replaceShare share new) = none := by
    rintro share new _ rfl
    rfl
  have hnone : Way (· = none) (· = none) segments ([] : List (Key × Shared)) :=
    way_nil (by rfl) _
  exact way_mono (fun _ _ => trivial) (fun _ h => h) (way_foldl_place hkeep hapart hnone)

/-! ## Names -/

section Names

variable {kind : String → Prop}

theorem keys_replaceShareEntries (share : Share) (new : Shared) (es : List (Key × Shared)) :
    (replaceShareEntries share new es).map (·.1) = es.map (·.1) := by
  induction es with
  | nil => rfl
  | cons e es ih => exact congrArg (e.1 :: ·) ih

mutual

/-- New content that is named leaves a tree named. -/
theorem named_replaceShare (share : Share) {new : Shared} (hnew : new.Named kind) :
    (t : Shared) → t.Named kind → (replaceShare share new t).Named kind
  | atom _, h => h
  | list m items, _ => by
    unfold replaceShare
    split
    · exact hnew
    · trivial
  | map m es, h => by
    unfold replaceShare
    split
    · exact hnew
    · exact namedEntries_replaceShareEntries share hnew es h
  | tuple _, _ => trivial
  | set _, _ => trivial

theorem namedEntries_replaceShareEntries (share : Share) {new : Shared} (hnew : new.Named kind) :
    (es : List (Key × Shared)) → NamedEntries kind es →
      NamedEntries kind (replaceShareEntries share new es)
  | [], _ => trivial
  | (k, v) :: es, h => by
    obtain ⟨hk, hnot, hv, hes⟩ := h
    refine ⟨hk, ?_, named_replaceShare share hnew v hv,
      namedEntries_replaceShareEntries share hnew es hes⟩
    rwa [keys_replaceShareEntries]

end

/-- The new content of a marked mapping is named. -/
theorem named_of_writeRevision? {v : Shared} (hv : v.Named kind) {segments : List String}
    (hs : ∀ s ∈ segments, kind s) {es : List (Key × Shared)} (hes : NamedEntries kind es)
    {rev : Revision} (h : writeRevision? v segments es = some rev) : rev.content.Named kind := by
  induction segments generalizing es with
  | nil => simp [writeRevision?] at h
  | cons s ss ih =>
    have hss : ∀ s' ∈ ss, kind s' := fun s' hmem => hs s' (List.mem_cons_of_mem _ hmem)
    obtain ⟨_, _, m, sub, ⟨⟩, hfind, hrev⟩ := writeRevision?_cases h
    have hsub : NamedEntries kind sub := named_of_find? hes hfind
    rcases hrev with hdeeper | ⟨-, hcontent⟩
    · exact ih hss hsub hdeeper
    · rw [hcontent]
      exact namedEntries_writeEntries hv hss hsub

/-- Leaves that are written leave a nested mapping named. -/
theorem namedEntries_foldl_place {leaves : Flat (Option Share)}
    (hleaves : ∀ leaf ∈ leaves, leaf.2.Named kind ∧ ∀ s ∈ Path.split leaf.1, kind s) {n : Nest}
    (hrevisions : ∀ rev ∈ n.revisions, rev.content.Named kind) (h : NamedEntries kind n.entries) :
    NamedEntries kind (leaves.foldl Nest.place n).entries := by
  induction leaves generalizing n with
  | nil => exact h
  | cons leaf leaves ih =>
    obtain ⟨⟨hv, hs⟩, hrest⟩ := List.forall_mem_cons.1 hleaves
    have hrevised : (reviseAll n.revisions leaf.2).Named kind := by
      generalize n.revisions = revisions at hrevisions
      induction revisions with
      | nil => exact hv
      | cons rev revisions ih =>
        obtain ⟨hrev, hrevisions⟩ := List.forall_mem_cons.1 hrevisions
        exact named_replaceShare rev.share hrev _ (ih hrevisions)
    rw [List.foldl_cons]
    rcases place_cases n leaf with heq | ⟨rev, hrev, heq⟩ <;> rw [heq]
    · exact ih hrest hrevisions (namedEntries_writeEntries hrevised hs h)
    · have hcontent := named_of_writeRevision? hrevised hs h hrev
      exact ih hrest (List.forall_mem_cons.2 ⟨hcontent, hrevisions⟩)
        (namedEntries_replaceShareEntries rev.share hcontent _ h)

/-- No key occurs twice in a mapping of a nested layer, and none holds a separator. -/
theorem namedEntries_unflattenShared (es : List (Key × Shared)) :
    NamedEntries Path.IsPart (unflattenShared es) := by
  refine namedEntries_foldl_place (fun leaf hmem => ⟨?_, fun _ => Path.isPart_of_mem_split⟩)
    nofun trivial
  cases hleaf : leaf.2 with
  | map m fs =>
    cases fs with
    | nil => trivial
    | cons e fs =>
      exact absurd hleaf (ne_map_of_mem_entryLeaves "" es (Flat.mem_of_mem_ofList hmem))
  | _ => trivial

end Names

/-! ## Layers without shared containers -/

section Unmarked

variable {α β : Type} (f : α → β)

mutual

theorem leavesAt_mapTag (path : String) :
    (v : Tree α) → leavesAt path (v.mapTag f) =
      (leavesAt path v).map fun leaf => (leaf.1, leaf.2.mapTag f)
  | map _ [] => rfl
  | map _ (e :: es) => by
    have h := entryLeaves_mapTag path (e :: es)
    obtain ⟨k, v⟩ := e
    exact h
  | atom _ => rfl
  | list _ _ => rfl
  | tuple _ => rfl
  | set _ => rfl

theorem entryLeaves_mapTag (parent : String) :
    (es : List (Key × Tree α)) → entryLeaves parent (mapTagEntries f es) =
      (entryLeaves parent es).map fun leaf => (leaf.1, leaf.2.mapTag f)
  | [] => rfl
  | (k, v) :: es => by
    rw [mapTagEntries, entryLeaves, entryLeaves, List.map_append, leavesAt_mapTag,
      entryLeaves_mapTag parent es]

end

theorem ofList_mapTag (leaves : List (String × Tree α)) :
    Flat.ofList (leaves.map fun leaf => (leaf.1, leaf.2.mapTag f)) =
      (Flat.ofList leaves).map fun leaf => (leaf.1, leaf.2.mapTag f) := by
  have hinsert : ∀ (path : String) (v : Tree α) (flat : Flat α),
      Flat.insert path (v.mapTag f) (flat.map fun leaf => (leaf.1, leaf.2.mapTag f)) =
        (Flat.insert path v flat).map fun leaf => (leaf.1, leaf.2.mapTag f) := by
    intro path v flat
    induction flat with
    | nil => rfl
    | cons leaf flat ih =>
      rw [List.map_cons, Flat.insert, Flat.insert, ih]
      split <;> rfl
  induction leaves using List.reverseRecOn with
  | nil => rfl
  | append_singleton leaves leaf ih =>
    rw [List.map_append, List.map_singleton, Flat.ofList, Flat.ofList, List.foldl_concat,
      List.foldl_concat, ← Flat.ofList, ← Flat.ofList, ih, hinsert]

/-- The leaves of a mapping under other tags. -/
theorem flattenEntries_mapTag (parent : String) (es : List (Key × Tree α)) :
    flattenEntries parent (mapTagEntries f es) =
      (flattenEntries parent es).map fun leaf => (leaf.1, leaf.2.mapTag f) := by
  rw [flattenEntries, entryLeaves_mapTag, ofList_mapTag, flattenEntries]

theorem mapTagEntries_writeLeaves [Inhabited α] [Inhabited β] (hf : f default = default)
    (flat : Flat α) (es : List (Key × Tree α)) :
    mapTagEntries f (writeLeaves flat es) =
      writeLeaves (flat.map fun leaf => (leaf.1, leaf.2.mapTag f)) (mapTagEntries f es) := by
  induction flat generalizing es with
  | nil => rfl
  | cons leaf flat ih =>
    have h := ih (writeEntries leaf.2 (Path.split leaf.1) es)
    rw [mapTagEntries_writeEntries f hf] at h
    exact h

end Unmarked

/-- A layer without shared containers is nested like any other layer. -/
theorem unflattenShared_unmarked (es : List (Key × Value)) :
    mapTagEntries (fun _ => ()) (unflattenShared (mapTagEntries (fun _ => none) es)) =
      unflattenEntries es := by
  have hplain : ∀ leaf ∈ flattenEntries "" (mapTagEntries (fun _ => (none : Option Share)) es),
      leaf.2.mark? = none ∧ ∀ m e fs, leaf.2 ≠ map m (e :: fs) := by
    intro leaf hmem
    refine ⟨?_, fun m e fs =>
      ne_map_of_mem_entryLeaves "" _ (Flat.mem_of_mem_ofList hmem)⟩
    rw [flattenEntries_mapTag] at hmem
    obtain ⟨plain, -, rfl⟩ := List.mem_map.1 hmem
    cases plain.2 <;> rfl
  have hnone : Undisturbed
      (flattenEntries "" (mapTagEntries (fun _ => (none : Option Share)) es)) :=
    List.pairwise_of_forall_mem_list fun a ha _ _ _ _ => (hplain a ha).1
  rw [unflattenShared, foldl_place_of_undisturbed hnone (fun leaf hmem => (hplain leaf hmem).2)
    fun _ _ => along_nil _]
  change mapTagEntries (fun _ : Option Share => ()) (writeLeaves _ []) = _
  rw [mapTagEntries_writeLeaves (fun _ : Option Share => ()) rfl, flattenEntries_mapTag,
    List.map_map]
  have hsame : ∀ flat : Flat Unit, flat.map ((fun leaf : String × Shared => (leaf.1,
      leaf.2.mapTag fun _ => ())) ∘ fun leaf => (leaf.1, leaf.2.mapTag fun _ => none)) = flat := by
    intro flat
    refine (List.map_congr_left fun leaf _ => ?_).trans (List.map_id flat)
    exact congrArg (Prod.mk leaf.1) (erase_unmarked leaf.2)
  rw [hsame]
  rfl

end LayeredConfig.Tree
