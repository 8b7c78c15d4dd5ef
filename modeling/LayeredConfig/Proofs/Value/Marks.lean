import LayeredConfig.Proofs.Path.Places
import LayeredConfig.Proofs.Path.Settled
import LayeredConfig.Proofs.Path.Writes
import LayeredConfig.Proofs.Value.Tags

/-!
# Marks

Which marks a tree carries decides what a change of a marked container does to it.
A change of a container with a mark that the tree does not carry does nothing, and
trees that differ in the names of their marks alone are changed alike.

* `Tree.AllMarks` — every mark in the tree satisfies a test.
* `Tree.replaceShare_of_allMarks` — a change of a container that is not there.
* `Tree.remark` — the tree with other marks.
* `Tree.writeRevision?_remark`, `Tree.replaceShare_remark` — changes under other marks.
-/

namespace LayeredConfig.Tree

/-! ## Marks that satisfy a test -/

/-- Every mark of a container in the tree satisfies a test. -/
def AllMarks (P : Share → Prop) (t : Shared) : Prop :=
  ∀ steps u share, t.descend steps = some u → u.mark? = some share → P share

variable {P : Share → Prop}

theorem AllMarks.mono {Q : Share → Prop} {t : Shared} (h : t.AllMarks P)
    (hPQ : ∀ share, P share → Q share) : t.AllMarks Q :=
  fun steps u share hu hmark => hPQ share (h steps u share hu hmark)

/-- The marks of a tree are its own one and those of its children. -/
theorem allMarks_iff_of_place? {t : Shared} {children : List Shared}
    (hplace : ∀ i, t.place? i = children[i]?) :
    t.AllMarks P ↔ (∀ share, t.mark? = some share → P share) ∧ ∀ x ∈ children, x.AllMarks P := by
  constructor
  · refine fun h => ⟨fun share => h [] t share rfl, fun x hx steps u share hu => ?_⟩
    obtain ⟨i, hi⟩ := List.mem_iff_getElem?.1 hx
    exact h (i :: steps) u share (by rw [descend, hplace, hi]; exact hu)
  · rintro ⟨hself, hchildren⟩ steps u share hu hmark
    cases steps with
    | nil =>
      cases hu
      exact hself share hmark
    | cons i steps =>
      obtain ⟨x, hx, hux⟩ := Option.bind_eq_some_iff.1 hu
      rw [hplace] at hx
      exact hchildren x (List.mem_of_getElem? hx) steps u share hux hmark

theorem allMarks_list_iff {m : Option Share} {items : List Shared} :
    (list m items).AllMarks P ↔
      (∀ share, m = some share → P share) ∧ ∀ x ∈ items, x.AllMarks P :=
  allMarks_iff_of_place? fun _ => rfl

theorem allMarks_tuple_iff {items : List Shared} :
    (tuple items).AllMarks P ↔ ∀ x ∈ items, x.AllMarks P := by
  rw [allMarks_iff_of_place? fun _ => rfl]
  simp [mark?]

theorem allMarks_map_iff {m : Option Share} {es : List (Key × Shared)} :
    (map m es).AllMarks P ↔
      (∀ share, m = some share → P share) ∧ ∀ e ∈ es, e.2.AllMarks P := by
  have h : ∀ i, (map m es).place? i = (es.map (·.2))[i]? := fun i => by
    rw [place?, List.getElem?_map]
  rw [allMarks_iff_of_place? h, List.forall_mem_map]
  rfl

theorem allMarks_atom (a : Atom) : (atom a : Shared).AllMarks P := by
  -- the bytes of a row of bytes are its only children, and nothing is marked there
  have hplace : ∀ (a : Atom) i u, (atom a : Shared).place? i = some u → ∃ b, u = atom b := by
    intro a i u hu
    cases a with
    | bytes bs =>
      rw [place?, List.getElem?_map] at hu
      obtain ⟨b, -, rfl⟩ := Option.map_eq_some_iff.1 hu
      exact ⟨_, rfl⟩
    | _ => cases hu
  intro steps
  induction steps generalizing a with
  | nil =>
    rintro u share ⟨⟩ hmark
    cases hmark
  | cons i steps ih =>
    intro u share hu hmark
    obtain ⟨x, hx, hux⟩ := Option.bind_eq_some_iff.1 hu
    obtain ⟨b, rfl⟩ := hplace a i x hx
    exact ih b u share hux hmark

theorem allMarks_set (members : List Key) : (set members : Shared).AllMarks P := by
  intro steps u share hu hmark
  cases steps with
  | nil =>
    cases hu
    cases hmark
  | cons i steps => cases hu

theorem allMarks_withMark {v : Shared} (h : v.AllMarks P) {share : Share} (hshare : P share) :
    (v.withMark share).AllMarks P := by
  have hself : ∀ share', some share = some share' → P share' := by
    rintro _ ⟨⟩
    exact hshare
  cases v with
  | list m items => exact allMarks_list_iff.2 ⟨hself, (allMarks_list_iff.1 h).2⟩
  | map m es => exact allMarks_map_iff.2 ⟨hself, (allMarks_map_iff.1 h).2⟩
  | _ => exact h

mutual

/-- A plain tree carries no marks. -/
theorem allMarks_unmarked : (v : Value) → v.unmarked.AllMarks P
  | atom a => allMarks_atom a
  | list _ items => allMarks_list_iff.2 ⟨nofun, allMarks_unmarkedItems items⟩
  | map _ es => allMarks_map_iff.2 ⟨nofun, allMarks_unmarkedEntries es⟩
  | tuple items => allMarks_tuple_iff.2 (allMarks_unmarkedItems items)
  | set members => allMarks_set members

theorem allMarks_unmarkedItems : (items : List Value) →
    ∀ x ∈ mapTagItems (fun _ => none) items, x.AllMarks P
  | [] => nofun
  | v :: items => List.forall_mem_cons.2 ⟨allMarks_unmarked v, allMarks_unmarkedItems items⟩

theorem allMarks_unmarkedEntries : (es : List (Key × Value)) →
    ∀ e ∈ mapTagEntries (fun _ => none) es, e.2.AllMarks P
  | [] => nofun
  | (_, v) :: es => List.forall_mem_cons.2 ⟨allMarks_unmarked v, allMarks_unmarkedEntries es⟩

end

mutual

theorem marks_unmarked : (v : Value) → v.unmarked.marks = []
  | atom _ => rfl
  | list _ items => itemMarks_unmarked items
  | map _ es => entryMarks_unmarked es
  | tuple items => itemMarks_unmarked items
  | set _ => rfl

theorem itemMarks_unmarked : (items : List Value) →
    itemMarks (mapTagItems (fun _ => none) items) = []
  | [] => rfl
  | v :: items => List.append_eq_nil_iff.2 ⟨marks_unmarked v, itemMarks_unmarked items⟩

theorem entryMarks_unmarked : (es : List (Key × Value)) →
    entryMarks (mapTagEntries (fun _ => none) es) = []
  | [] => rfl
  | (_, v) :: es => List.append_eq_nil_iff.2 ⟨marks_unmarked v, entryMarks_unmarked es⟩

end

/-! ## Changes of containers -/

/-- Writing a value below entries brings no other marks than those of both. -/
theorem allMarks_writeEntries {v : Shared} (hv : v.AllMarks P) (segments : List String)
    {es : List (Key × Shared)} (hes : ∀ e ∈ es, e.2.AllMarks P) :
    ∀ e ∈ writeEntries v segments es, e.2.AllMarks P := by
  induction segments generalizing es with
  | nil => exact hes
  | cons s ss ih =>
    rw [writeEntries_cons]
    refine Entries.forall_mem_insert ?_ hes
    cases ss with
    | nil => exact hv
    | cons s' ss =>
      have hnew : (map none (writeEntries v (s' :: ss) []) : Shared).AllMarks P :=
        allMarks_map_iff.2 ⟨by simp, ih (by simp)⟩
      cases hfind : Entries.find? (.str s) es with
      | none => exact hnew
      | some u =>
        obtain ⟨k, hk, -⟩ := Entries.exists_of_find? hfind
        cases u with
        | map m sub =>
          obtain ⟨hm, hsub⟩ := allMarks_map_iff.1 (hes _ hk)
          exact allMarks_map_iff.2 ⟨hm, ih hsub⟩
        | _ => exact hnew

/-- The container that a write changes carries marks of the tree and of the value. -/
theorem allMarks_writeRevision? {v : Shared} (hv : v.AllMarks P) {segments : List String}
    {es : List (Key × Shared)} (hes : ∀ e ∈ es, e.2.AllMarks P) {rev : Revision}
    (h : writeRevision? v segments es = some rev) : P rev.share ∧ rev.content.AllMarks P := by
  induction segments generalizing es with
  | nil => simp [writeRevision?] at h
  | cons s ss ih =>
    obtain ⟨_, _, m, sub, ⟨⟩, hfind, hrev⟩ := writeRevision?_cases h
    obtain ⟨k, hk, -⟩ := Entries.exists_of_find? hfind
    obtain ⟨hm, hsub⟩ := allMarks_map_iff.1 (hes _ hk)
    rcases hrev with hdeeper | ⟨hshare, hcontent⟩
    · exact ih hsub hdeeper
    · rw [hcontent]
      exact ⟨hm _ hshare, allMarks_map_iff.2 ⟨hm, allMarks_writeEntries hv ss hsub⟩⟩

mutual

/-- New content brings no other marks than its own. -/
theorem allMarks_replaceShare (share : Share) {new : Shared} (hnew : new.AllMarks P) :
    (t : Shared) → t.AllMarks P → (replaceShare share new t).AllMarks P
  | atom _, h => h
  | list m items, h => by
    obtain ⟨hm, hitems⟩ := allMarks_list_iff.1 h
    unfold replaceShare
    split
    · exact hnew
    · exact allMarks_list_iff.2 ⟨hm, allMarks_replaceShareItems share hnew items hitems⟩
  | map m es, h => by
    obtain ⟨hm, hes⟩ := allMarks_map_iff.1 h
    unfold replaceShare
    split
    · exact hnew
    · exact allMarks_map_iff.2 ⟨hm, allMarks_replaceShareEntries share hnew es hes⟩
  | tuple items, h =>
    allMarks_tuple_iff.2 (allMarks_replaceShareItems share hnew items (allMarks_tuple_iff.1 h))
  | set _, h => h

theorem allMarks_replaceShareItems (share : Share) {new : Shared} (hnew : new.AllMarks P) :
    (items : List Shared) → (∀ x ∈ items, x.AllMarks P) →
      ∀ x ∈ replaceShareItems share new items, x.AllMarks P
  | [], _ => by simp [replaceShareItems]
  | x :: xs, h => by
    obtain ⟨hx, hxs⟩ := List.forall_mem_cons.1 h
    exact List.forall_mem_cons.2 ⟨allMarks_replaceShare share hnew x hx,
      allMarks_replaceShareItems share hnew xs hxs⟩

theorem allMarks_replaceShareEntries (share : Share) {new : Shared} (hnew : new.AllMarks P) :
    (es : List (Key × Shared)) → (∀ e ∈ es, e.2.AllMarks P) →
      ∀ e ∈ replaceShareEntries share new es, e.2.AllMarks P
  | [], _ => by simp [replaceShareEntries]
  | (k, v) :: es, h => by
    obtain ⟨hv, hes⟩ := List.forall_mem_cons.1 h
    exact List.forall_mem_cons.2 ⟨allMarks_replaceShare share hnew v hv,
      allMarks_replaceShareEntries share hnew es hes⟩

end

mutual

/-- A change of a container whose mark the tree does not carry does nothing to the tree. -/
theorem replaceShare_of_allMarks {share : Share} (new : Shared) :
    (t : Shared) → t.AllMarks (· ≠ share) → replaceShare share new t = t
  | atom _, _ => rfl
  | list m items, h => by
    obtain ⟨hm, hitems⟩ := allMarks_list_iff.1 h
    rw [replaceShare, if_neg fun heq => hm share heq rfl,
      replaceShareItems_of_allMarks new items hitems]
  | map m es, h => by
    obtain ⟨hm, hes⟩ := allMarks_map_iff.1 h
    rw [replaceShare, if_neg fun heq => hm share heq rfl,
      replaceShareEntries_of_allMarks new es hes]
  | tuple items, h => by
    rw [replaceShare, replaceShareItems_of_allMarks new items (allMarks_tuple_iff.1 h)]
  | set _, _ => rfl

theorem replaceShareItems_of_allMarks {share : Share} (new : Shared) :
    (items : List Shared) → (∀ x ∈ items, x.AllMarks (· ≠ share)) →
      replaceShareItems share new items = items
  | [], _ => rfl
  | x :: xs, h => by
    obtain ⟨hx, hxs⟩ := List.forall_mem_cons.1 h
    rw [replaceShareItems, replaceShare_of_allMarks new x hx,
      replaceShareItems_of_allMarks new xs hxs]

theorem replaceShareEntries_of_allMarks {share : Share} (new : Shared) :
    (es : List (Key × Shared)) → (∀ e ∈ es, e.2.AllMarks (· ≠ share)) →
      replaceShareEntries share new es = es
  | [], _ => rfl
  | (k, v) :: es, h => by
    obtain ⟨hv, hes⟩ := List.forall_mem_cons.1 h
    rw [replaceShareEntries, replaceShare_of_allMarks new v hv,
      replaceShareEntries_of_allMarks new es hes]

end

/-! ## Other marks -/

/-- The tree with other marks. -/
def remark (ρ : Share → Share) (t : Shared) : Shared :=
  t.mapTag (Option.map ρ)

/-- The entries with other marks. -/
def remarkEntries (ρ : Share → Share) (es : List (Key × Shared)) : List (Key × Shared) :=
  mapTagEntries (Option.map ρ) es

/-- The change of the container with another mark. -/
def Revision.remark (ρ : Share → Share) (rev : Revision) : Revision :=
  ⟨ρ rev.share, rev.content.remark ρ⟩

@[simp] theorem erase_remark (ρ : Share → Share) (t : Shared) : (t.remark ρ).erase = t.erase :=
  mapTag_mapTag _ _ t

@[simp] theorem remark_unmarked (ρ : Share → Share) (v : Value) :
    v.unmarked.remark ρ = v.unmarked :=
  mapTag_mapTag _ _ v

theorem remark_withMark (ρ : Share → Share) (share : Share) (v : Shared) :
    (v.withMark share).remark ρ = (v.remark ρ).withMark (ρ share) := by
  cases v <;> rfl

theorem remarkEntries_writeEntries (ρ : Share → Share) (v : Shared) (segments : List String)
    (es : List (Key × Shared)) :
    remarkEntries ρ (writeEntries v segments es) =
      writeEntries (v.remark ρ) segments (remarkEntries ρ es) :=
  mapTagEntries_writeEntries (Option.map ρ) rfl v segments es

/-- A write changes the same container under another mark. -/
theorem writeRevision?_remark (ρ : Share → Share) (v : Shared) (segments : List String)
    (es : List (Key × Shared)) :
    writeRevision? (v.remark ρ) segments (remarkEntries ρ es) =
      (writeRevision? v segments es).map (Revision.remark ρ) := by
  induction segments generalizing es with
  | nil => rfl
  | cons s ss ih =>
    cases ss with
    | nil => rfl
    | cons s' ss =>
      have hfind := find?_mapTagEntries (Option.map ρ) (.str s) es
      cases hheld : Entries.find? (.str s) es with
      | none =>
        rw [hheld] at hfind
        rw [writeRevision?, writeRevision?, remarkEntries, hfind, hheld]
        rfl
      | some u =>
        rw [hheld] at hfind
        cases u with
        | map m sub =>
          have hmoved : Entries.find? (.str s) (remarkEntries ρ es) =
              some (map (m.map ρ) (remarkEntries ρ sub)) := hfind
          rw [writeRevision?_of_find? hmoved, writeRevision?_of_find? hheld, ih sub,
            ← remarkEntries_writeEntries]
          cases writeRevision? v (s' :: ss) sub with
          | some rev => rfl
          | none => cases m <;> rfl
        | _ =>
          rw [writeRevision?, writeRevision?, remarkEntries, hfind, hheld]
          rfl

variable {ρ : Share → Share}

mutual

/-- A container is changed as before wherever it occurs under another mark, if different marks stay
different. -/
theorem replaceShare_remark (hρ : ρ.Injective) (share : Share) (new : Shared) :
    (t : Shared) → replaceShare (ρ share) (new.remark ρ) (t.remark ρ) =
      (replaceShare share new t).remark ρ
  | atom _ => rfl
  | list m items => by
    have hm : m.map ρ = some (ρ share) ↔ m = some share := by
      cases m <;> simp [hρ.eq_iff]
    have hitems := replaceShareItems_remark hρ share new items
    simp only [remark, mapTag, replaceShare, hm] at hitems ⊢
    split
    · rfl
    · rw [hitems, mapTag]
  | map m es => by
    have hm : m.map ρ = some (ρ share) ↔ m = some share := by
      cases m <;> simp [hρ.eq_iff]
    have hes := replaceShareEntries_remark hρ share new es
    simp only [remark, mapTag, replaceShare, hm] at hes ⊢
    split
    · rfl
    · rw [mapTag, ← remarkEntries, ← remarkEntries, ← hes]
  | tuple items => by
    have hitems := replaceShareItems_remark hρ share new items
    simp only [remark, mapTag, replaceShare] at hitems ⊢
    rw [hitems]
  | set _ => rfl

theorem replaceShareItems_remark (hρ : ρ.Injective) (share : Share) (new : Shared) :
    (items : List Shared) →
      replaceShareItems (ρ share) (new.remark ρ) (mapTagItems (Option.map ρ) items) =
        mapTagItems (Option.map ρ) (replaceShareItems share new items)
  | [] => rfl
  | x :: xs => by
    have hx := replaceShare_remark hρ share new x
    have hxs := replaceShareItems_remark hρ share new xs
    simp only [remark, mapTagItems, replaceShareItems] at hx hxs ⊢
    rw [hx, hxs]

theorem replaceShareEntries_remark (hρ : ρ.Injective) (share : Share) (new : Shared) :
    (es : List (Key × Shared)) →
      replaceShareEntries (ρ share) (new.remark ρ) (remarkEntries ρ es) =
        remarkEntries ρ (replaceShareEntries share new es)
  | [] => rfl
  | (k, v) :: es => by
    have hv := replaceShare_remark hρ share new v
    have hes := replaceShareEntries_remark hρ share new es
    simp only [remark, remarkEntries, mapTagEntries, replaceShareEntries] at hv hes ⊢
    rw [hv, hes]

end

theorem revise_remark (hρ : ρ.Injective) (rev : Revision) (t : Shared) :
    (t.remark ρ).revise (rev.remark ρ) = (t.revise rev).remark ρ :=
  replaceShare_remark hρ rev.share rev.content t

end LayeredConfig.Tree
