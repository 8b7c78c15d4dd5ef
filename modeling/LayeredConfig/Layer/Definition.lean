import LayeredConfig.Resolve.Shared

/-!
# The definition tree of a store

A container of the definition that somebody else holds as well would carry a mark
and change along with all other containers of that mark.  There is none: whatever
is written into a definition is copied first, and a copy is held by nobody else.
So a definition comes with the proof that it carries no marks, and everything
that makes a definition has to give that proof.

* `Tree.marks_copy` — a copy carries no marks.
* `Tree.marks_overlay`, `Tree.entryMarks_writeEntries` — a layer and a write bring
  none but those of what is copied.
* `Definition.revise_eq` — a change of a container held elsewhere never reaches a
  definition.
-/

namespace LayeredConfig

namespace Tree

/-! ## Trees without marks -/

theorem marks_of_find? {k : Key} {v : Shared} {es : List (Key × Shared)}
    (hes : entryMarks es = []) (h : Entries.find? k es = some v) : v.marks = [] := by
  induction es with
  | nil => cases h
  | cons e es ih =>
    obtain ⟨hfirst, hrest⟩ := List.append_eq_nil_iff.1 hes
    rw [Entries.find?] at h
    split at h
    · cases h
      exact hfirst
    · exact ih hrest h

theorem entryMarks_insert (k : Key) {v : Shared} (hv : v.marks = [])
    {es : List (Key × Shared)} (hes : entryMarks es = []) :
    entryMarks (Entries.insert k v es) = [] := by
  induction es with
  | nil => exact List.append_eq_nil_iff.2 ⟨hv, rfl⟩
  | cons e es ih =>
    obtain ⟨hfirst, hrest⟩ := List.append_eq_nil_iff.1 hes
    rw [Entries.insert]
    split
    · exact List.append_eq_nil_iff.2 ⟨hv, hrest⟩
    · exact List.append_eq_nil_iff.2 ⟨hfirst, ih hrest⟩

mutual

/-- A copy carries no marks. -/
theorem marks_copy : (t : Shared) → t.copy.marks = []
  | atom _ => rfl
  | list _ items => itemMarks_copy items
  | tuple items => itemMarks_copy items
  | map _ es => entryMarks_copy es
  | set _ => rfl

theorem itemMarks_copy : (items : List Shared) → itemMarks (copyItems items) = []
  | [] => rfl
  | x :: xs => List.append_eq_nil_iff.2 ⟨marks_copy x, itemMarks_copy xs⟩

theorem entryMarks_copy : (es : List (Key × Shared)) → entryMarks (copyEntries es) = []
  | [] => rfl
  | (_, v) :: es => List.append_eq_nil_iff.2 ⟨marks_copy v, entryMarks_copy es⟩

end

/-- A value written below entries brings no marks but its own. -/
theorem entryMarks_writeEntries {v : Shared} (hv : v.marks = []) (segments : List String)
    {es : List (Key × Shared)} (hes : entryMarks es = []) :
    entryMarks (writeEntries v segments es) = [] := by
  fun_induction writeEntries v segments es with
  | case1 => exact hes
  | case2 => exact entryMarks_insert _ hv hes
  | case3 s ss es _ t sub hfind ih =>
    obtain ⟨ht, hsub⟩ := List.append_eq_nil_iff.1 (marks_of_find? hes hfind)
    have hbelow : (map t (writeEntries v ss sub)).marks = [] :=
      List.append_eq_nil_iff.2 ⟨ht, ih hsub⟩
    exact entryMarks_insert _ hbelow hes
  | case4 s ss es _ _ ih =>
    have hbelow : (map none (writeEntries v ss [])).marks = [] := ih rfl
    exact entryMarks_insert _ hbelow hes

mutual

/-- A layer, which is copied, brings no marks. -/
theorem marks_overlay : (layer : Shared) → (held : Option Shared) →
    (∀ t, held = some t → t.marks = []) → (overlay layer held).marks = []
  | map _ es, some (map _ fs), h => by
    obtain ⟨ht, hfs⟩ := List.append_eq_nil_iff.1 (h _ rfl)
    exact List.append_eq_nil_iff.2 ⟨ht, entryMarks_overlay es hfs⟩
  | map m es, none, _ => marks_copy (map m es)
  | map m es, some (atom _), _ => marks_copy (map m es)
  | map m es, some (list _ _), _ => marks_copy (map m es)
  | map m es, some (tuple _), _ => marks_copy (map m es)
  | map m es, some (set _), _ => marks_copy (map m es)
  | atom _, _, _ => rfl
  | list m items, _, _ => marks_copy (list m items)
  | tuple items, _, _ => marks_copy (tuple items)
  | set _, _, _ => rfl

theorem entryMarks_overlay : (es : List (Key × Shared)) → {fs : List (Key × Shared)} →
    entryMarks fs = [] → entryMarks (overlayEntries es fs) = []
  | [], _, h => h
  | (k, v) :: es, fs, h => by
    rw [overlayEntries]
    split
    · exact entryMarks_overlay es h
    · refine entryMarks_overlay es (entryMarks_insert k (marks_overlay v _ ?_) h)
      exact fun t ht => marks_of_find? h ht

end

mutual

/-- A change of a container held elsewhere does nothing to a tree without marks. -/
theorem replaceShare_of_marks_eq_nil (share : Share) (new : Shared) :
    (t : Shared) → t.marks = [] → replaceShare share new t = t
  | atom _, _ => rfl
  | list m items, h => by
    obtain ⟨hm, hitems⟩ := List.append_eq_nil_iff.1 h
    obtain rfl := Option.toList_eq_nil_iff.1 hm
    rw [replaceShare, if_neg nofun, replaceShareItems_of_marks_eq_nil share new items hitems]
  | map m es, h => by
    obtain ⟨hm, hes⟩ := List.append_eq_nil_iff.1 h
    obtain rfl := Option.toList_eq_nil_iff.1 hm
    rw [replaceShare, if_neg nofun, replaceShareEntries_of_marks_eq_nil share new es hes]
  | tuple items, h => by
    rw [replaceShare, replaceShareItems_of_marks_eq_nil share new items h]
  | set _, _ => rfl

theorem replaceShareItems_of_marks_eq_nil (share : Share) (new : Shared) :
    (items : List Shared) → itemMarks items = [] → replaceShareItems share new items = items
  | [], _ => rfl
  | x :: xs, h => by
    obtain ⟨hx, hxs⟩ := List.append_eq_nil_iff.1 h
    rw [replaceShareItems, replaceShare_of_marks_eq_nil share new x hx,
      replaceShareItems_of_marks_eq_nil share new xs hxs]

theorem replaceShareEntries_of_marks_eq_nil (share : Share) (new : Shared) :
    (es : List (Key × Shared)) → entryMarks es = [] → replaceShareEntries share new es = es
  | [], _ => rfl
  | (k, v) :: es, h => by
    obtain ⟨hv, hes⟩ := List.append_eq_nil_iff.1 h
    rw [replaceShareEntries, replaceShare_of_marks_eq_nil share new v hv,
      replaceShareEntries_of_marks_eq_nil share new es hes]

end

end Tree

/-- The definition tree of a store, of which nobody else holds a container. -/
structure Definition where
  /-- The tree. -/
  tree : Shared
  /-- No container of it occurs elsewhere. -/
  own : tree.marks = []

namespace Definition

/-- The definition without any entries. -/
def empty : Definition :=
  ⟨.map none [], rfl⟩

/-- The definition as a plain tree. -/
def value (d : Definition) : Value :=
  d.tree.erase

/-- The definition with a copy of a value written at a path. -/
def write (d : Definition) (path : String) (v : Shared) : Definition where
  tree := d.tree.write path v.copy
  own := by
    obtain ⟨tree, own⟩ := d
    cases tree with
    | map t es =>
      obtain ⟨ht, hes⟩ := List.append_eq_nil_iff.1 own
      exact List.append_eq_nil_iff.2
        ⟨ht, Tree.entryMarks_writeEntries (Tree.marks_copy v) _ hes⟩
    | _ => exact own

/-- The definition with a layer laid over it, as `deep_merge` does it. -/
def overlay (d : Definition) (layer : Shared) : Definition where
  tree := layer.overlay (some d.tree)
  own := by
    refine Tree.marks_overlay layer _ fun t ht => ?_
    cases ht
    exact d.own

/-- The definition after a change of a container, which would show in it where it held the same
container. -/
def revise (rev : Tree.Revision) (d : Definition) : Definition where
  tree := d.tree.revise rev
  own := by
    rw [Tree.revise, Tree.replaceShare_of_marks_eq_nil rev.share rev.content d.tree d.own]
    exact d.own

/-- The definition holds no container that is held elsewhere, so it is what it was. -/
@[simp] theorem revise_eq (rev : Tree.Revision) (d : Definition) : d.revise rev = d := by
  obtain ⟨tree, own⟩ := d
  simp only [revise, Tree.revise, Tree.replaceShare_of_marks_eq_nil rev.share rev.content tree own]

end Definition

end LayeredConfig
