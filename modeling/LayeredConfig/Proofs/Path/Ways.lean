import LayeredConfig.Proofs.Path.Places
import LayeredConfig.Proofs.Path.Writes

/-!
# Along the way to a path

A write makes its own way: what stands in it and is no mapping makes room.  So even
where the way to a path is blocked, it says something that the values met along
it pass a test, such as to carry no mark; a write there then goes through values
that pass it.

* `Tree.Along` — the values met on the way to a path pass a test.
* `Tree.along_writeEntries` — a write elsewhere keeps this.
* `Tree.way_of_along` — what has been written stands at the end of a way through such values.
* `Tree.along_replaceShareEntries` — so does a change of marked containers keep a way without any.
* `Tree.way_mapTagEntries` — tags do not count.
* `Tree.locate?_of_way` — what stands at the end of its way is found there.
-/

namespace LayeredConfig

/-! ## Values along a way -/

namespace Tree

variable {α : Type} {test : Tree α → Prop}

/-- The values met along the segments, without the one at their end, pass a test, as far as the way
goes through mappings. -/
def Along (test : Tree α → Prop) : List String → List (Key × Tree α) → Prop
  | s :: s' :: ss, es => ∀ u, Entries.find? (.str s) es = some u →
      test u ∧ ∀ t sub, u = map t sub → Along test (s' :: ss) sub
  | _, _ => True

/-- Nothing is met on any way through no entries. -/
theorem along_nil (segments : List String) : Along test segments ([] : List (Key × Tree α)) := by
  match segments with
  | [] => trivial
  | [_] => trivial
  | _ :: _ :: _ => exact nofun

theorem along_of_forall (htest : ∀ u, test u) (segments : List String) (es : List (Key × Tree α)) :
    Along test segments es := by
  induction segments generalizing es with
  | nil => trivial
  | cons s ss ih =>
    cases ss with
    | nil => trivial
    | cons s' ss => exact fun u _ => ⟨htest u, fun _ sub _ => ih sub⟩

/-- A test for mappings that looks at nothing but their tags, and that new mappings pass. -/
structure TagTest [Inhabited α] (test : Tree α → Prop) : Prop where
  new (es : List (Key × Tree α)) : test (map default es)
  change {t : α} {es : List (Key × Tree α)} (es' : List (Key × Tree α)) :
    test (map t es) → test (map t es')

variable [Inhabited α]

/-- A write keeps the values along a way passing a test, if what it puts on that way passes it and
has nothing below. -/
theorem along_writeEntries (htest : TagTest test) {v : Tree α} {segments written : List String}
    (hon : written <+: segments → written ≠ segments → test v ∧ ∀ t es, v = map t es → es = [])
    {es : List (Key × Tree α)} (h : Along test segments es) :
    Along test segments (writeEntries v written es) := by
  induction segments generalizing written es with
  | nil => trivial
  | cons s ss ih =>
    cases ss with
    | nil => trivial
    | cons s' ss =>
      cases written with
      | nil => exact h
      | cons w ws =>
        intro u hu
        by_cases hw : s = w
        · subst hw
          rw [find?_writeEntries_self] at hu
          cases hu
          cases ws with
          | nil =>
            obtain ⟨hv, hempty⟩ := hon (List.cons_prefix_cons.2 ⟨rfl, List.nil_prefix⟩) (by simp)
            refine ⟨hv, fun t sub heq => ?_⟩
            rw [hempty t sub heq]
            exact along_nil _
          | cons w' ws =>
            have hon' : w' :: ws <+: s' :: ss → w' :: ws ≠ s' :: ss →
                test v ∧ ∀ t es, v = map t es → es = [] := fun hp hne =>
              hon (List.cons_prefix_cons.2 ⟨rfl, hp⟩) fun heq => hne (List.cons.inj heq).2
            have hnew : test (map default (writeEntries v (w' :: ws) [])) ∧ ∀ t sub,
                (map default (writeEntries v (w' :: ws) []) : Tree α) = map t sub →
                  Along test (s' :: ss) sub := by
              refine ⟨htest.new _, ?_⟩
              rintro _ _ ⟨⟩
              exact ih hon' (along_nil _)
            cases hfind : Entries.find? (.str s) es with
            | none => exact hnew
            | some x =>
              obtain ⟨hx, hsub⟩ := h x hfind
              cases x with
              | map t sub =>
                refine ⟨htest.change _ hx, ?_⟩
                rintro _ _ ⟨⟩
                exact ih hon' (hsub t sub rfl)
              | _ => exact hnew
        · rw [find?_writeEntries_of_ne hw] at hu
          exact h u hu

/-- What has been written stands at the end of a way through mappings that pass the test. -/
theorem way_of_along {free : α → Prop} (hfree : free default)
    (htest : ∀ t es, test (map t es) → free t) {last : Option (Tree α) → Prop} {v : Tree α}
    (hv : last (some v)) {segments : List String} {es : List (Key × Tree α)}
    (h : Along test segments es) : Way free last segments (writeEntries v segments es) := by
  induction segments generalizing es with
  | nil => trivial
  | cons s ss ih =>
    cases ss with
    | nil =>
      rw [Way, find?_writeEntries_self]
      exact hv
    | cons s' ss =>
      rw [way_cons_cons_iff, find?_writeEntries_self]
      right
      have hnew : ∃ t sub, some (map default (writeEntries v (s' :: ss) [])) =
          some (map t sub : Tree α) ∧ free t ∧ Way free last (s' :: ss) sub :=
        ⟨default, _, rfl, hfree, ih (along_nil _)⟩
      cases hfind : Entries.find? (.str s) es with
      | none => exact hnew
      | some x =>
        obtain ⟨hx, hsub⟩ := h x hfind
        cases x with
        | map t sub => exact ⟨t, _, rfl, htest t sub hx, ih (hsub t sub rfl)⟩
        | _ => exact hnew

omit [Inhabited α] in
/-- A way stays one if less is asked of it. -/
theorem way_mono {free free' : α → Prop} (hfree : ∀ t, free t → free' t)
    {last last' : Option (Tree α) → Prop} (hlast : ∀ o, last o → last' o) {segments : List String}
    {es : List (Key × Tree α)} (h : Way free last segments es) : Way free' last' segments es := by
  induction segments generalizing es with
  | nil => trivial
  | cons s ss ih =>
    cases ss with
    | nil => exact hlast _ h
    | cons s' ss =>
      rw [way_cons_cons_iff]
      rcases way_cons_cons_iff.1 h with ⟨hnone, hnothing⟩ | ⟨t, sub, hsome, ht, hsub⟩
      · exact Or.inl ⟨hnone, hlast none hnothing⟩
      · exact Or.inr ⟨t, sub, hsome, hfree t ht, ih hsub⟩

omit [Inhabited α] in
/-- A way keeps under other tags. -/
theorem way_mapTagEntries {β : Type} {f : α → β} {free : α → Prop} {free' : β → Prop}
    (hfree : ∀ t, free t → free' (f t)) {last : Option (Tree α) → Prop}
    {last' : Option (Tree β) → Prop} (hlast : ∀ o, last o → last' (o.map (mapTag f)))
    {segments : List String} {es : List (Key × Tree α)} (h : Way free last segments es) :
    Way free' last' segments (mapTagEntries f es) := by
  induction segments generalizing es with
  | nil => trivial
  | cons s ss ih =>
    cases ss with
    | nil =>
      rw [Way, find?_mapTagEntries]
      exact hlast _ h
    | cons s' ss =>
      rw [way_cons_cons_iff, find?_mapTagEntries]
      rcases way_cons_cons_iff.1 h with ⟨hnone, hnothing⟩ | ⟨t, sub, hsome, ht, hsub⟩
      · exact Or.inl ⟨by rw [hnone]; rfl, hlast none hnothing⟩
      · exact Or.inr ⟨f t, mapTagEntries f sub, by rw [hsome]; rfl, hfree t ht, ih hsub⟩

end Tree

/-! ## Marked containers -/

namespace Tree

/-- A write whose way meets no mappings with marks changes no marked container. -/
theorem writeRevision?_of_along {test : Shared → Prop}
    (htest : ∀ m es, test (map m es) → m = none) (v : Shared) {segments : List String}
    {es : List (Key × Shared)} (h : Along test segments es) :
    writeRevision? v segments es = none := by
  induction segments generalizing es with
  | nil => rfl
  | cons s ss ih =>
    cases ss with
    | nil => rfl
    | cons s' ss =>
      cases hrev : writeRevision? v (s :: s' :: ss) es with
      | none => rfl
      | some rev =>
        obtain ⟨_, _, m, sub, ⟨⟩, hfind, hrev⟩ := writeRevision?_cases hrev
        obtain ⟨hu, hsub⟩ := h _ hfind
        obtain rfl := htest m sub hu
        rcases hrev with hdeeper | ⟨⟨⟩, -⟩
        rw [ih (hsub none sub rfl)] at hdeeper
        cases hdeeper

theorem tagTest_mark? : TagTest fun u : Shared => u.mark? = none where
  new _ := rfl
  change _ h := h

/-- A container without a mark stays one when marked containers change. -/
theorem mark?_replaceShare {u : Shared} (h : u.mark? = none) (share : Share) (new : Shared) :
    (replaceShare share new u).mark? = none := by
  cases u with
  | list m items =>
    obtain rfl : m = none := h
    rw [replaceShare, if_neg (by simp)]
    rfl
  | map m es =>
    obtain rfl : m = none := h
    rw [replaceShare, if_neg (by simp)]
    rfl
  | _ => rfl

/-- What a mapping without a mark becomes when marked containers change. -/
theorem exists_of_replaceShare_eq_map {u : Shared} (h : u.mark? = none) {share : Share}
    {new : Shared} {m : Option Share} {es : List (Key × Shared)}
    (heq : replaceShare share new u = map m es) :
    ∃ es', u = map m es' ∧ es = replaceShareEntries share new es' := by
  cases u with
  | list m' items =>
    obtain rfl : m' = none := h
    rw [replaceShare, if_neg (by simp)] at heq
    cases heq
  | map m' es' =>
    obtain rfl : m' = none := h
    rw [replaceShare, if_neg (by simp)] at heq
    cases heq
    exact ⟨es', rfl, rfl⟩
  | _ => cases heq

/-- A change of marked containers puts nothing marked on a way that meets nothing marked. -/
theorem along_replaceShareEntries (share : Share) (new : Shared) {segments : List String}
    {es : List (Key × Shared)} (h : Along (fun u => u.mark? = none) segments es) :
    Along (fun u => u.mark? = none) segments (replaceShareEntries share new es) := by
  induction segments generalizing es with
  | nil => trivial
  | cons s ss ih =>
    cases ss with
    | nil => trivial
    | cons s' ss =>
      intro u hu
      rw [find?_replaceShareEntries] at hu
      obtain ⟨w, hw, rfl⟩ := Option.map_eq_some_iff.1 hu
      obtain ⟨hmark, hsub⟩ := h w hw
      refine ⟨mark?_replaceShare hmark share new, fun m sub heq => ?_⟩
      obtain ⟨sub', hmap, rfl⟩ := exists_of_replaceShare_eq_map hmark heq
      exact ih (hsub m sub' hmap)

end Tree

/-! ## Found at the end of its way -/

theorem exists_findPlace?_of_find? {β : Type} {k : Key} {es : List (Key × β)} {v : β}
    (h : Entries.find? k es = some v) : ∃ i, findPlace? (fun k' => k.same k') es = some (i, v) := by
  induction es with
  | nil => cases h
  | cons e es ih =>
    obtain ⟨k', w⟩ := e
    rw [Entries.find?] at h
    split at h
    · rename_i hk
      cases h
      exact ⟨0, by rw [findPlace?, if_pos hk]⟩
    · rename_i hk
      obtain ⟨i, hi⟩ := ih h
      exact ⟨i + 1, by rw [findPlace?, if_neg hk, hi]; rfl⟩

namespace Tree

variable {α : Type}

/-- A segment that is a key names the value of that key. -/
theorem exists_child?_of_find? {s : String} {es : List (Key × Tree α)} {v : Tree α}
    (h : Entries.find? (.str s) es = some v) (t : α) :
    ∃ i, child? s (map t es) = .ok (some (i, v)) := by
  obtain ⟨i, hi⟩ := exists_findPlace?_of_find? h
  exact ⟨i, by rw [child?, namedPlace?, hi]⟩

/-- What stands at the end of the way along segments is found there. -/
theorem locate?_of_way {free : α → Prop} {v : Tree α} {segments : List String}
    (hne : segments ≠ []) {es : List (Key × Tree α)} (h : Way free (· = some v) segments es)
    (t : α) : ∃ steps, locate? segments (map t es) = .ok (some (steps, v)) := by
  induction segments generalizing es t with
  | nil => exact absurd rfl hne
  | cons s ss ih =>
    cases ss with
    | nil =>
      obtain ⟨i, hi⟩ := exists_child?_of_find? h t
      exact ⟨[i], locate?_cons hi rfl⟩
    | cons s' ss =>
      rcases way_cons_cons_iff.1 h with ⟨-, hnone⟩ | ⟨t', sub, hsome, -, hsub⟩
      · cases hnone
      · obtain ⟨i, hi⟩ := exists_child?_of_find? hsome t
        obtain ⟨steps, hsteps⟩ := ih (by simp) hsub t'
        exact ⟨i :: steps, locate?_cons hi hsteps⟩

end Tree

end LayeredConfig
