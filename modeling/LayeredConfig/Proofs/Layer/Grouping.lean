import LayeredConfig.Proofs.Layer.Merging

/-!
# Layers in groups

A layer that is laid over a mapping leaves the keys that are held in their places and puts its own
new keys after them.  Two layers may be merged with one another first and then be laid over
a mapping, or one after the other: the order of the keys and their values are the same.  There is
only one exception, where a value in the middle hides the mapping below it from the one above.

* `Tree.Masked` — the exception.
* `Tree.overlayEntries_eq` — what a layer leaves, entry by entry.
* `Tree.overlay_copy`, `Tree.copy_overlay` — copies under and over a layer.
* `Tree.overlayEntries_overlayEntries` — groups of layers from groups of their values.
* `Tree.merge?_assoc` — layers in any group, unless a value masks another.
* `Tree.find?_overlayEntries_of_masked` — the group decides if one does.
-/

namespace LayeredConfig

namespace Tree

variable {α : Type}

/-! ## Values that mask others -/

/-- The tree is a mapping. -/
def isMap : Tree α → Bool
  | map _ _ => true
  | _ => false

/-- What a chain of keys leads to, from one mapping to the next. -/
def reach? : List Key → Tree α → Option (Tree α)
  | [], v => some v
  | k :: ks, map _ es => (Entries.find? k es).bind (reach? ks)
  | _ :: _, _ => none

/-- Somewhere the trees at the bottom and at the top hold a mapping, and the one in the middle holds
a value that is no mapping, and not undefined either. -/
def Masked (low mid top : Tree α) : Prop :=
  ∃ path a b c, reach? path low = some a ∧ reach? path mid = some b ∧ reach? path top = some c ∧
    a.isMap = true ∧ b.isMap = false ∧ b.isUndefined = false ∧ c.isMap = true

theorem ne_map_of_isMap {v : Tree α} (h : v.isMap = false) (t : α) (es : List (Key × Tree α)) :
    v ≠ map t es := by
  rintro rfl
  cases h

theorem exists_of_isMap {v : Tree α} (h : v.isMap = true) : ∃ t es, v = map t es := by
  cases v with
  | map t es => exact ⟨t, es, rfl⟩
  | _ => cases h

/-- Mappings of which one masks another are masked below a key that all three have. -/
theorem masked_map_iff {r s t : α} {low mid top : List (Key × Tree α)} :
    Masked (map r low) (map s mid) (map t top) ↔
      ∃ k a b c, Entries.find? k low = some a ∧ Entries.find? k mid = some b ∧
        Entries.find? k top = some c ∧ Masked a b c := by
  constructor
  · rintro ⟨_ | ⟨k, ks⟩, a, b, c, ha, hb, hc, h⟩
    · cases hb
      exact absurd h.2.1 nofun
    · obtain ⟨a', hlow, ha⟩ := Option.bind_eq_some_iff.1 ha
      obtain ⟨b', hmid, hb⟩ := Option.bind_eq_some_iff.1 hb
      obtain ⟨c', htop, hc⟩ := Option.bind_eq_some_iff.1 hc
      exact ⟨k, a', b', c', hlow, hmid, htop, ks, a, b, c, ha, hb, hc, h⟩
  · rintro ⟨k, a', b', c', hlow, hmid, htop, ks, a, b, c, ha, hb, hc, h⟩
    refine ⟨k :: ks, a, b, c, ?_, ?_, ?_, h⟩
    · rw [reach?, hlow, Option.bind_some, ha]
    · rw [reach?, hmid, Option.bind_some, hb]
    · rw [reach?, htop, Option.bind_some, hc]

mutual

/-- A property of all trees goes from the values of a mapping to the mapping. -/
theorem induction_on_values {P : Tree α → Prop} (other : ∀ v : Tree α, v.isMap = false → P v)
    (mapping : ∀ t es, (∀ e ∈ es, P e.2) → P (map t es)) : (v : Tree α) → P v
  | map t es => mapping t es (forall_values other mapping es)
  | atom a => other (atom a) rfl
  | list t items => other (list t items) rfl
  | tuple items => other (tuple items) rfl
  | set members => other (set members) rfl

theorem forall_values {P : Tree α → Prop} (other : ∀ v : Tree α, v.isMap = false → P v)
    (mapping : ∀ t es, (∀ e ∈ es, P e.2) → P (map t es)) :
    (es : List (Key × Tree α)) → ∀ e ∈ es, P e.2
  | [] => nofun
  | (_, v) :: es =>
    List.forall_mem_cons.2 ⟨induction_on_values other mapping v, forall_values other mapping es⟩

end

/-! ## What a layer leaves -/

variable [Inhabited α]

/-- What becomes of a value under the value that a layer has for its key, if any. -/
def under : Option (Tree α) → Tree α → Tree α
  | none, held => held
  | some v, held => if v.isUndefined then held else overlay v (some held)

theorem copyEntries_eq_map (es : List (Key × Tree α)) :
    copyEntries es = es.map fun e => (e.1, e.2.copy) := by
  induction es with
  | nil => rfl
  | cons e es ih => exact congrArg ((e.1, e.2.copy) :: ·) ih

theorem overlay_none (v : Tree α) : overlay v none = v.copy := by
  cases v <;> rfl

/-- A layer with a key that is not held. -/
theorem overlayEntries_cons_of_none {k : Key} {fs : List (Key × Tree α)}
    (h : Entries.find? k fs = none) (v : Tree α) (es : List (Key × Tree α)) :
    overlayEntries ((k, v) :: es) fs = overlayEntries es (fs ++ [(k, v.copy)]) := by
  rw [overlayEntries]
  simp only [h, Option.isSome_none, Bool.and_false, Bool.false_eq_true, if_false, overlay_none,
    Entries.insert_of_find?_eq_none h]

/-- A layer with a key that is held. -/
theorem overlayEntries_cons_of_some {k : Key} {fs : List (Key × Tree α)}
    (hfs : Entries.Distinct fs) {u : Tree α} (h : Entries.find? k fs = some u) (v : Tree α)
    (es : List (Key × Tree α)) :
    overlayEntries ((k, v) :: es) fs = overlayEntries es
      (fs.map fun e => (e.1, if k.same e.1 then under (some v) e.2 else e.2)) := by
  rw [overlayEntries]
  simp only [h, Option.isSome_some, Bool.and_true]
  split
  · rename_i hv
    congr 1
    simp [under, hv]
  · rename_i hv
    rw [Entries.insert_eq_map hfs h fun w => overlay v (some w)]
    simp only [under, if_neg hv]

/-- Entries under a layer: the keys that are held stay in their places with what becomes of their
values, and the new ones come after them. -/
def underEntries (es fs : List (Key × Tree α)) : List (Key × Tree α) :=
  (fs.map fun e => (e.1, under (Entries.find? e.1 es) e.2)) ++
    copyEntries (es.filter fun e => !Entries.contains e.1 fs)

theorem underEntries_cons_of_none {k : Key} {es fs : List (Key × Tree α)}
    (hnew : ∀ e ∈ es, k.same e.1 = false) (h : Entries.find? k fs = none) (v : Tree α) :
    underEntries ((k, v) :: es) fs = underEntries es (fs ++ [(k, v.copy)]) := by
  have hheld : ∀ e ∈ fs, (e.1, under (Entries.find? e.1 ((k, v) :: es)) e.2) =
      (e.1, under (Entries.find? e.1 es) e.2) := fun e he => by
    have hne : e.1.same k = false := by
      rw [Key.same_comm]
      exact Entries.find?_eq_none_iff.1 h e he
    rw [Entries.find?, hne]
    rfl
  have hothers : (es.filter fun e => !Entries.contains e.1 (fs ++ [(k, v.copy)])) =
      es.filter fun e => !Entries.contains e.1 fs := List.filter_congr fun e he => by
    have hne : e.1.same k = false := by
      rw [Key.same_comm]
      exact hnew e he
    simp [Entries.contains_eq_any, hne]
  have hk : Entries.contains k fs = false := by
    rw [Entries.contains, h]
    rfl
  rw [underEntries, underEntries, hothers, List.map_congr_left hheld,
    List.filter_cons_of_pos (by simp [hk]), List.map_append, List.append_assoc]
  simp [copyEntries, Entries.find?_eq_none_iff.2 hnew, under]

theorem underEntries_cons_of_some {k : Key} {es fs : List (Key × Tree α)}
    (hnew : ∀ e ∈ es, k.same e.1 = false) {u : Tree α} (h : Entries.find? k fs = some u)
    (v : Tree α) :
    underEntries ((k, v) :: es) fs = underEntries es
      (fs.map fun e => (e.1, if k.same e.1 then under (some v) e.2 else e.2)) := by
  have hheld : ∀ e ∈ fs, under (Entries.find? e.1 ((k, v) :: es)) e.2 =
      under (Entries.find? e.1 es) (if k.same e.1 then under (some v) e.2 else e.2) := by
    intro e he
    rw [Entries.find?, k.same_comm]
    by_cases hsame : e.1.same k = true
    · rw [if_pos hsame, if_pos hsame, Entries.find?_congr hsame,
        Entries.find?_eq_none_iff.2 hnew]
      rfl
    · rw [if_neg hsame, if_neg hsame]
  have hk : Entries.contains k fs = true := by
    rw [Entries.contains, h]
    rfl
  rw [underEntries, underEntries, List.filter_cons_of_neg (by simp [hk]), List.map_map]
  congr 1
  · exact List.map_congr_left fun e he => congrArg (e.1, ·) (hheld e he)
  · simp only [Entries.contains_map]

/-- What a layer leaves of entries is what becomes of them under it. -/
theorem overlayEntries_eq {es fs : List (Key × Tree α)} (hes : Entries.Distinct es)
    (hfs : Entries.Distinct fs) : overlayEntries es fs = underEntries es fs := by
  induction es generalizing fs with
  | nil => simp [overlayEntries, underEntries, copyEntries, Entries.find?, under]
  | cons e es ih =>
    obtain ⟨k, v⟩ := e
    obtain ⟨hnew, hrest⟩ := List.pairwise_cons.1 hes
    cases h : Entries.find? k fs with
    | none =>
      rw [overlayEntries_cons_of_none h, underEntries_cons_of_none hnew h,
        ih hrest (Entries.distinct_append_singleton hfs h _)]
    | some u =>
      rw [overlayEntries_cons_of_some hfs h, underEntries_cons_of_some hnew h,
        ih hrest (Entries.distinct_map.2 hfs)]

/-- Laying a layer over keys that are told apart leaves them so. -/
theorem distinct_overlayEntries {es fs : List (Key × Tree α)} (hes : Entries.Distinct es)
    (hfs : Entries.Distinct fs) : Entries.Distinct (overlayEntries es fs) := by
  rw [overlayEntries_eq hes hfs, underEntries, copyEntries_eq_map]
  refine List.pairwise_append.2 ⟨Entries.distinct_map.2 hfs,
    Entries.distinct_map.2 (hes.filter _), fun e he f hf => ?_⟩
  obtain ⟨e', he', rfl⟩ := List.mem_map.1 he
  obtain ⟨f', hf', rfl⟩ := List.mem_map.1 hf
  obtain ⟨-, hnew⟩ := List.mem_filter.1 hf'
  rw [Bool.not_eq_true', Entries.contains_eq_any, List.any_eq_false] at hnew
  rw [Key.same_comm]
  exact Bool.eq_false_iff.2 (hnew e' he')

/-- What is found after a layer has been laid over entries. -/
theorem find?_overlayEntries {es fs : List (Key × Tree α)} (hes : Entries.Distinct es)
    (hfs : Entries.Distinct fs) (k : Key) :
    Entries.find? k (overlayEntries es fs) =
      match Entries.find? k fs with
      | some u => some (under (Entries.find? k es) u)
      | none => (Entries.find? k es).map copy := by
  have hdistinct := distinct_overlayEntries hes hfs
  rw [overlayEntries_eq hes hfs, underEntries, copyEntries_eq_map] at hdistinct ⊢
  cases hheld : Entries.find? k fs with
  | some u =>
    obtain ⟨l, hmem, hsame⟩ := Entries.exists_of_find? hheld
    refine Entries.find?_of_mem hdistinct (l := l) (List.mem_append_left _ ?_) hsame
    rw [Entries.find?_congr hsame]
    exact List.mem_map_of_mem (f := fun e => (e.1, under (Entries.find? e.1 es) e.2)) hmem
  | none =>
    cases hlaid : Entries.find? k es with
    | some v =>
      obtain ⟨l, hmem, hsame⟩ := Entries.exists_of_find? hlaid
      have hnew : Entries.contains l fs = false := by
        rw [Entries.contains, ← Entries.find?_congr hsame, hheld]
        rfl
      have hothers : (l, v) ∈ es.filter fun e => !Entries.contains e.1 fs :=
        List.mem_filter.2 ⟨hmem, by rw [hnew]; rfl⟩
      refine Entries.find?_of_mem hdistinct (l := l) (List.mem_append_right _ ?_) hsame
      exact List.mem_map_of_mem (f := fun e => (e.1, e.2.copy)) hothers
    | none =>
      rw [Entries.find?_eq_none_iff] at hheld hlaid
      refine Entries.find?_eq_none_iff.2 fun e he => ?_
      rcases List.mem_append.1 he with he | he
      · obtain ⟨f, hf, rfl⟩ := List.mem_map.1 he
        exact hheld f hf
      · obtain ⟨f, hf, rfl⟩ := List.mem_map.1 he
        exact hlaid f (List.mem_of_mem_filter hf)

/-! ## Copies -/

@[simp] theorem isMap_copy (v : Tree α) : v.copy.isMap = v.isMap := by
  cases v <;> rfl

@[simp] theorem isUndefined_copy (v : Tree α) : v.copy.isUndefined = v.isUndefined := by
  cases v with
  | atom a => rfl
  | _ => rfl

mutual

/-- A copy lies over a value as what it is a copy of. -/
theorem overlay_copy : (v : Tree α) → (held : Option (Tree α)) →
    overlay v.copy held = overlay v held
  | map t es, held => by
    cases held with
    | none => exact copy_copy (map t es)
    | some u =>
      cases u with
      | map t' fs => exact congrArg (map t') (overlayEntries_copyEntries es fs)
      | _ => exact copy_copy (map t es)
  | atom _, _ => rfl
  | list t items, _ => copy_copy (list t items)
  | tuple items, _ => copy_copy (tuple items)
  | set _, _ => rfl

theorem overlayEntries_copyEntries : (es fs : List (Key × Tree α)) →
    overlayEntries (copyEntries es) fs = overlayEntries es fs
  | [], _ => rfl
  | (k, v) :: es, fs => by
    rw [copyEntries, overlayEntries, overlayEntries, isUndefined_copy, overlay_copy v,
      overlayEntries_copyEntries es, overlayEntries_copyEntries es]

end

mutual

/-- What a value makes of a copy is a copy of what it makes of the value. -/
theorem copy_overlay : (v held : Tree α) →
    (overlay v (some held)).copy = overlay v (some held.copy)
  | map t es, held => by
    cases held with
    | map t' fs => exact congrArg (map default) (copyEntries_overlayEntries es fs)
    | _ => exact copy_copy (map t es)
  | atom _, _ => rfl
  | list t items, _ => copy_copy (list t items)
  | tuple items, _ => copy_copy (tuple items)
  | set _, _ => rfl

theorem copyEntries_overlayEntries : (es fs : List (Key × Tree α)) →
    copyEntries (overlayEntries es fs) = overlayEntries es (copyEntries fs)
  | [], _ => rfl
  | (k, v) :: es, fs => by
    have hheld : (overlay v (Entries.find? k fs)).copy =
        overlay v ((Entries.find? k fs).map copy) := by
      cases Entries.find? k fs with
      | none => rw [Option.map_none, overlay_none, copy_copy]
      | some u => exact copy_overlay v u
    rw [overlayEntries, overlayEntries, find?_copyEntries, Option.isSome_map, ← hheld,
      ← copyEntries_insert, ← copyEntries_overlayEntries es, ← copyEntries_overlayEntries es]
    split <;> rfl

end

/-! ## Groups of entries -/

theorem isUndefined_overlay {v : Tree α} (hv : v.isUndefined = false) (held : Option (Tree α)) :
    (overlay v held).isUndefined = false := by
  cases v with
  | map t es =>
    cases held with
    | none => rfl
    | some u => cases u <;> rfl
  | _ => rw [overlay_of_ne_map nofun, isUndefined_copy, hv]

/-- A value takes the place of what is no mapping. -/
theorem overlay_some_of_ne_map {held : Tree α} (h : ∀ t es, held ≠ map t es) (v : Tree α) :
    overlay v (some held) = v.copy := by
  cases held with
  | map t es => exact absurd rfl (h t es)
  | _ => cases v <;> rfl

theorem copy_under (v : Option (Tree α)) (held : Tree α) :
    (under v held).copy = under v held.copy := by
  cases v with
  | none => rfl
  | some v =>
    rw [under, under]
    split
    · rfl
    · exact copy_overlay v held

/-- If it does not matter how values are grouped, it does not matter either where some of them
are undefined or not there. -/
theorem under_under {a : Tree α} {b c : Option (Tree α)}
    (h : ∀ v w, b = some v → c = some w → v.isUndefined = false →
      overlay w (some (overlay v (some a))) = overlay (overlay w (some v)) (some a)) :
    under c (under b a) =
      under (match b with | some v => some (under c v) | none => c.map copy) a := by
  cases b with
  | none =>
    cases c with
    | none => rfl
    | some w => simp only [under, Option.map_some, isUndefined_copy, overlay_copy]
  | some v =>
    cases c with
    | none => rfl
    | some w =>
      cases hw : w.isUndefined with
      | true => simp only [under, hw, if_true]
      | false =>
        cases hv : v.isUndefined with
        | true =>
          have hnew : overlay w (some v) = w.copy :=
            overlay_some_of_ne_map (by rintro t es rfl; cases hv) w
          simp [under, hv, hw, hnew, isUndefined_copy, overlay_copy]
        | false =>
          simp [under, hv, hw, isUndefined_overlay hw, h v w rfl rfl hv]

/-- Layers may be grouped if the values may that all three of them have for a key. -/
theorem overlayEntries_overlayEntries {low mid top : List (Key × Tree α)}
    (hlow : Entries.Distinct low) (hmid : Entries.Distinct mid) (htop : Entries.Distinct top)
    (h : ∀ k a b c, Entries.find? k low = some a → Entries.find? k mid = some b →
      Entries.find? k top = some c → b.isUndefined = false →
      overlay c (some (overlay b (some a))) = overlay (overlay c (some b)) (some a)) :
    overlayEntries top (overlayEntries mid low) = overlayEntries (overlayEntries top mid) low := by
  have hgroup := distinct_overlayEntries htop hmid
  have hheld : ∀ e ∈ low, (e.1, under (Entries.find? e.1 (overlayEntries top mid)) e.2) =
      (e.1, under (Entries.find? e.1 top) (under (Entries.find? e.1 mid) e.2)) := by
    intro e he
    rw [find?_overlayEntries htop hmid, ← under_under fun b c hb hc => ?_]
    exact h e.1 e.2 b c (Entries.find?_of_mem hlow he (Entries.same_self_of_find? hb)) hb hc
  have hkeys : ∀ e : Key × Tree α, (!Entries.contains e.1 (overlayEntries mid low)) =
      (!Entries.contains e.1 low && !Entries.contains e.1 mid) := by
    intro e
    rw [Entries.contains, Entries.contains, Entries.contains, find?_overlayEntries hmid hlow]
    cases Entries.find? e.1 low <;> simp
  -- first the keys at the bottom, then the new ones of each layer
  calc overlayEntries top (overlayEntries mid low)
    _ = (low.map fun e =>
            (e.1, under (Entries.find? e.1 top) (under (Entries.find? e.1 mid) e.2))) ++
        (((mid.filter fun e => !Entries.contains e.1 low).map
            fun e => (e.1, under (Entries.find? e.1 top) e.2.copy)) ++
          (top.filter fun e => !Entries.contains e.1 low && !Entries.contains e.1 mid).map
            fun e => (e.1, e.2.copy)) := by
        rw [overlayEntries_eq htop (distinct_overlayEntries hmid hlow)]
        simp only [underEntries, hkeys]
        rw [overlayEntries_eq hmid hlow]
        simp only [underEntries, copyEntries_eq_map, List.map_append, List.map_map,
          List.append_assoc, Function.comp_def]
    _ = overlayEntries (overlayEntries top mid) low := by
        rw [overlayEntries_eq hgroup hlow, underEntries, List.map_congr_left hheld,
          overlayEntries_eq htop hmid]
        simp only [underEntries, copyEntries_eq_map, List.map_append, List.map_map,
          List.filter_append, List.filter_map, List.filter_filter, Function.comp_def, copy_copy,
          copy_under]

/-! ## Groups of layers -/

/-- Where a value masks another one, the group decides: the mapping at the top replaces everything
if it comes last, and goes into the mapping at the bottom if it has replaced the middle first. -/
theorem find?_overlayEntries_of_masked {low mid top : List (Key × Tree α)}
    (hlow : Entries.Distinct low) (hmid : Entries.Distinct mid) (htop : Entries.Distinct top)
    {k : Key} {a b c : Tree α} (ha : Entries.find? k low = some a)
    (hb : Entries.find? k mid = some b) (hc : Entries.find? k top = some c)
    (hmap : b.isMap = false) (hb' : b.isUndefined = false) (hc' : c.isUndefined = false) :
    Entries.find? k (overlayEntries top (overlayEntries mid low)) = some c.copy ∧
      Entries.find? k (overlayEntries (overlayEntries top mid) low) =
        some (overlay c (some a)) := by
  have hcopy : b.copy.isMap = false := by
    rw [isMap_copy, hmap]
  constructor
  · rw [find?_overlayEntries htop (distinct_overlayEntries hmid hlow),
      find?_overlayEntries hmid hlow, ha, hb, hc]
    simp [under, hb', hc', overlay_of_ne_map (ne_map_of_isMap hmap),
      overlay_some_of_ne_map (ne_map_of_isMap hcopy)]
  · rw [find?_overlayEntries (distinct_overlayEntries htop hmid) hlow,
      find?_overlayEntries htop hmid, ha, hb, hc]
    simp [under, hc', overlay_some_of_ne_map (ne_map_of_isMap hmap), overlay_copy]

/-- Values may be grouped if none of them masks another. -/
theorem overlay_overlay {a b c : Tree α} (ha : a.KeyedOnce) (hb : b.KeyedOnce) (hc : c.KeyedOnce)
    (hundef : b.isUndefined = false) (h : ¬ Masked a b c) :
    overlay c (some (overlay b (some a))) = overlay (overlay c (some b)) (some a) := by
  induction c using induction_on_values generalizing a b with
  | other c hleaf =>
    have hcopy := fun held => overlay_of_ne_map (ne_map_of_isMap hleaf) held
    rw [hcopy, hcopy, overlay_copy, hcopy]
  | mapping t top ih =>
    cases hmid : b.isMap with
    | false =>
      -- the value in the middle takes the place of the one below it, which is no mapping either
      have hlow : a.isMap = false := by
        rw [Bool.eq_false_iff]
        intro hmap
        exact h ⟨[], a, b, map t top, rfl, rfl, rfl, hmap, hmid, hundef, rfl⟩
      have hb' : b.copy.isMap = false := by
        rw [isMap_copy, hmid]
      rw [overlay_of_ne_map (ne_map_of_isMap hmid), overlay_some_of_ne_map (ne_map_of_isMap hb'),
        overlay_some_of_ne_map (ne_map_of_isMap hmid), overlay_copy,
        overlay_some_of_ne_map (ne_map_of_isMap hlow)]
    | true =>
      obtain ⟨s, mid, rfl⟩ := exists_of_isMap hmid
      cases hlow : a.isMap with
      | false =>
        rw [overlay_some_of_ne_map (ne_map_of_isMap hlow),
          overlay_some_of_ne_map (ne_map_of_isMap hlow), copy_overlay]
      | true =>
        obtain ⟨r, low, rfl⟩ := exists_of_isMap hlow
        refine congrArg (map r) (overlayEntries_overlayEntries (distinct_of_keyedOnce ha)
          (distinct_of_keyedOnce hb) (distinct_of_keyedOnce hc) ?_)
        intro k a b c hlow hmid htop hb'
        obtain ⟨l, hmem, -⟩ := Entries.exists_of_find? htop
        exact ih (l, c) hmem (keyedOnce_of_find? ha hlow) (keyedOnce_of_find? hb hmid)
          (keyedOnce_of_find? hc htop) hb' fun hmasked =>
            h (masked_map_iff.2 ⟨k, a, b, c, hlow, hmid, htop, hmasked⟩)

/-- Three layers may be merged in either group: the two merges give the same tree, the order of the
keys included, unless a value of the middle one masks a mapping. -/
theorem merge?_assoc {r s t : α} {low mid top : List (Key × Tree α)} (hlow : KeyedOnceEntries low)
    (hmid : KeyedOnceEntries mid) (htop : KeyedOnceEntries top)
    (h : ¬ Masked (map r low) (map s mid) (map t top)) :
    ∃ v, ((map r low).merge? (map s mid) >>= fun merged => merged.merge? (map t top)) = .ok v ∧
      ((map s mid).merge? (map t top) >>= fun layer => (map r low).merge? layer) = .ok v :=
  ⟨_, rfl, congrArg Except.ok
    (overlay_overlay (a := map r low) (b := map s mid) (c := map t top) hlow hmid htop rfl h).symm⟩

/-- What comes with the product. -/
def factory : List (Key × Value) :=
  [(.str "db", .map () [(.str "host", .str "local"), (.str "port", .atom (.int 80))])]

/-- What holds for all machines. -/
def fleet : List (Key × Value) :=
  [(.atom (.int 1), .str "one"),
    (.str "db", .map () [(.str "port", .atom .undefined), (.str "user", .str "app")])]

/-- What holds for one machine. -/
def machine : List (Key × Value) :=
  [(.atom (.bool true), .str "yes"), (.str "db", .map () [(.str "tags", .list () [.str "x"])]),
    (.str "log", .atom .undefined)]

/-- The settings of a machine may be merged with those of all machines first. -/
theorem merge?_assoc_machine :
    ∃ v, ((map () factory : Value).merge? (map () fleet) >>=
          fun merged => merged.merge? (map () machine)) = .ok v ∧
      ((map () fleet : Value).merge? (map () machine) >>=
          fun layer => (map () factory).merge? layer) = .ok v := by
  refine merge?_assoc (by decide +kernel) (by decide +kernel) (by decide +kernel) fun hmasked => ?_
  -- the only key that all three have is `db`, and there they have none in common
  obtain ⟨k, a, b, c, ha, hb, hc, hbelow⟩ := masked_map_iff.1 hmasked
  obtain ⟨l, hmem, hsame⟩ := Entries.exists_of_find? hb
  rw [Entries.find?_congr hsame] at ha hc
  simp only [fleet, List.mem_cons, List.not_mem_nil, or_false, Prod.mk.injEq] at hmem
  rcases hmem with ⟨rfl, rfl⟩ | ⟨rfl, rfl⟩
  · simp [factory, Entries.find?, Key.same, Atom.same] at ha
  · obtain rfl : map () [(.str "host", .str "local"), (.str "port", .atom (.int 80))] = a := by
      simpa [factory, Entries.find?, Key.same, Atom.same] using ha
    obtain rfl : map () [(.str "tags", .list () [.str "x"])] = c := by
      simpa [machine, Entries.find?, Key.same, Atom.same] using hc
    obtain ⟨k', a', b', c', -, hb', hc', -⟩ := masked_map_iff.1 hbelow
    obtain ⟨l', hmem', hsame'⟩ := Entries.exists_of_find? hb'
    rw [Entries.find?_congr hsame'] at hc'
    simp only [List.mem_cons, List.not_mem_nil, or_false, Prod.mk.injEq] at hmem'
    rcases hmem' with ⟨rfl, -⟩ | ⟨rfl, -⟩ <;> simp [Entries.find?, Key.same, Atom.same] at hc'

/-- A text in the middle masks the mapping at the bottom, in one of the groups only. -/
example :
    ((map () [(.str "x", .map () [(.str "p", .atom (.int 1))])] : Value).merge?
          (map () [(.str "x", .str "off")]) >>=
        fun merged => merged.merge? (map () [(.str "x", .map () [(.str "q", .atom (.int 2))])])) =
      .ok (map () [(.str "x", .map () [(.str "q", .atom (.int 2))])]) ∧
    ((map () [(.str "x", .str "off")] : Value).merge?
          (map () [(.str "x", .map () [(.str "q", .atom (.int 2))])]) >>=
        fun layer => (map () [(.str "x", .map () [(.str "p", .atom (.int 1))])]).merge? layer) =
      .ok (map () [(.str "x", .map () [(.str "p", .atom (.int 1)), (.str "q", .atom (.int 2))])]) :=
  ⟨rfl, rfl⟩

end Tree

end LayeredConfig
