import LayeredConfig.Proofs.Namespace.Updates
import LayeredConfig.Proofs.Path.Codec
import LayeredConfig.Proofs.Path.Hidden
import LayeredConfig.Proofs.Path.Lens

/-!
# What is left of many writes

A leaf that is written makes all leaves give way that stand at its path, on the way to
it or below it, and lets the others be.  So where leaves are written one after the other
into nothing, a leaf is left if and only if none written later concerns its path, and no
other leaf is there.

* `Tree.mem_entryKeyLeaves_iff_atKeys?` — a leaf is what its keys lead to.
* `Tree.atKeys?_writeEntries_iff` — the leaves after one more write.
* `Tree.atKeys?_writeAll_iff` — the leaves after all writes.
* `Tree.unflatten_last_write` — nested again, a mapping holds its last leaf for each path.
-/

namespace LayeredConfig

namespace Tree

variable {α : Type}

/-! ## Leaves and their keys -/

mutual

theorem exists_texts_of_mem_keyLeaves {kind : String → Prop} :
    (v : Tree α) → v.Named kind → ∀ leaf ∈ keyLeaves v,
      ∃ path : List String, leaf.1 = path.map Key.str
  | map _ [], _, leaf, hmem => ⟨[], by rw [List.mem_singleton.1 hmem]; rfl⟩
  | map _ (e :: es), h, leaf, hmem => exists_texts_of_mem_entryKeyLeaves (e :: es) h leaf hmem
  | atom _, _, leaf, hmem => ⟨[], by rw [List.mem_singleton.1 hmem]; rfl⟩
  | list _ _, _, leaf, hmem => ⟨[], by rw [List.mem_singleton.1 hmem]; rfl⟩
  | tuple _, _, leaf, hmem => ⟨[], by rw [List.mem_singleton.1 hmem]; rfl⟩
  | set _, _, leaf, hmem => ⟨[], by rw [List.mem_singleton.1 hmem]; rfl⟩

/-- The keys on the way to a leaf of a named tree are texts. -/
theorem exists_texts_of_mem_entryKeyLeaves {kind : String → Prop} :
    (es : List (Key × Tree α)) → NamedEntries kind es →
      ∀ leaf ∈ entryKeyLeaves es, ∃ path : List String, leaf.1 = path.map Key.str
  | [], _, _, hmem => by cases hmem
  | (k, v) :: es, ⟨⟨s, hk, _⟩, _, hv, hes⟩, leaf, hmem => by
    rcases List.mem_append.1 hmem with hfirst | hrest
    · obtain ⟨below, hbelow, rfl⟩ := List.mem_map.1 hfirst
      obtain ⟨path, hpath⟩ := exists_texts_of_mem_keyLeaves v hv below hbelow
      exact ⟨s :: path, by rw [hk, hpath]; rfl⟩
    · exact exists_texts_of_mem_entryKeyLeaves es hes leaf hrest

end

/-- What keys lead to below a mapping, if it is a leaf, is a leaf of that mapping. -/
theorem mem_entryKeyLeaves_of_atKeys? {tag : α} {path : List String} (hne : path ≠ [])
    {es : List (Key × Tree α)} {v : Tree α} (h : atKeys? path (map tag es) = some v)
    (hv : v.IsLeaf) : (path.map Key.str, v) ∈ entryKeyLeaves es := by
  induction path generalizing tag es with
  | nil => exact absurd rfl hne
  | cons s ss ih =>
    obtain ⟨u, hfind, hbelow⟩ := Option.bind_eq_some_iff.1 h
    refine mem_entryKeyLeaves_iff.2 ⟨.str s, u, ss.map Key.str, mem_of_find? hfind, rfl, ?_⟩
    cases ss with
    | nil =>
      obtain rfl : u = v := by simpa [atKeys?] using hbelow
      rcases keyLeaves_cases u with hself | ⟨t, sub, rfl, hsub⟩
      · rw [hself]
        exact List.mem_singleton_self _
      · cases sub with
        | nil => exact List.mem_singleton_self _
        | cons e sub => exact absurd rfl (hv t e sub)
    | cons s' ss =>
      cases u with
      | map t sub =>
        cases sub with
        | nil => cases hbelow
        | cons e sub => exact ih (by simp) hbelow
      | _ => cases hbelow

/-- The leaves of a mapping whose keys are texts are what its keys lead to, as far as that is a
leaf. -/
theorem mem_entryKeyLeaves_iff_atKeys? {kind : String → Prop} {es : List (Key × Tree α)}
    (hes : NamedEntries kind es) (tag : α) {ks : List Key} {v : Tree α} :
    (ks, v) ∈ entryKeyLeaves es ↔
      ∃ path : List String, ks = path.map Key.str ∧ path ≠ [] ∧ atKeys? path (map tag es) = some v ∧
        v.IsLeaf := by
  constructor
  · intro hmem
    obtain ⟨path, rfl⟩ := exists_texts_of_mem_entryKeyLeaves es hes _ hmem
    obtain ⟨hne, hway⟩ := way_of_mem_entryKeyLeaves (keyedOnceEntries_of_named es hes) hmem
    obtain ⟨s, ss, rfl⟩ := List.exists_cons_of_ne_nil hne
    exact ⟨_, rfl, hne, atKeys?_of_way hway, fun t e sub =>
      ne_cons_of_mem_entryKeyLeaves t e sub es _ hmem⟩
  · rintro ⟨path, rfl, hne, hat, hv⟩
    exact mem_entryKeyLeaves_of_atKeys? hne hat hv

/-- What keys lead to is read there. -/
theorem reach_of_atKeys? {path : List String} {t v : Tree α} (h : atKeys? path t = some v) :
    reach path t = .ok v := by
  induction path generalizing t with
  | nil =>
    cases h
    rfl
  | cons s ss ih =>
    cases t with
    | map tag es =>
      obtain ⟨u, hfind, hbelow⟩ := Option.bind_eq_some_iff.1 h
      rw [reach_cons_of_find? hfind]
      exact ih hbelow
    | _ => cases h

/-! ## One more write -/

/-- No keys lead below a leaf. -/
theorem atKeys?_cons_of_isLeaf {w : Tree α} (hw : w.IsLeaf) (s : String) (ss : List String) :
    atKeys? (s :: ss) w = none := by
  cases w with
  | map t es =>
    cases es with
    | nil => rfl
    | cons e es => exact absurd rfl (hw t e es)
  | _ => rfl

section Written

variable [Inhabited α]

/-- The mapping that a write below a value is made into, as `exists_mapping_below` has it, holds
what the value held. -/
theorem exists_mapping_below_atKeys? (o : Option (Tree α)) : ∃ tag sub,
    (∀ (v : Tree α) (s : String) (ss : List String),
      writeBelow v (s :: ss) o = map tag (writeEntries v (s :: ss) sub)) ∧
    ∀ (s : String) (ss : List String),
      o.bind (atKeys? (s :: ss)) = atKeys? (s :: ss) (map tag sub) := by
  cases o with
  | none => exact ⟨default, [], fun _ _ _ => rfl, fun _ _ => rfl⟩
  | some u =>
    cases u with
    | map tag sub => exact ⟨tag, sub, fun _ _ _ => rfl, fun _ _ => rfl⟩
    | _ => exact ⟨default, [], fun _ _ _ => rfl, fun _ _ => rfl⟩

/-- After a leaf has been written, keys lead to a leaf if it is that one, or if it was there before
and its path is apart from that of the write. -/
theorem atKeys?_writeEntries_iff {w : Tree α} (hw : w.IsLeaf) {ps qs : List String}
    (hps : ps ≠ []) (hqs : qs ≠ []) (tag : α) (es : List (Key × Tree α)) (v : Tree α) :
    atKeys? qs (map tag (writeEntries w ps es)) = some v ∧ v.IsLeaf ↔
      (qs = ps ∧ v = w) ∨
        Path.Apart qs ps ∧ atKeys? qs (map tag es) = some v ∧ v.IsLeaf := by
  induction ps generalizing qs tag es with
  | nil => exact absurd rfl hps
  | cons s ps ih =>
    obtain ⟨s', qs, rfl⟩ := List.exists_cons_of_ne_nil hqs
    by_cases hs : s' = s
    · subst hs
      rw [atKeys?, find?_writeEntries_self, Option.bind_some, Path.apart_cons_iff,
        List.cons.injEq, and_iff_right rfl]
      change _ ↔ _ ∨ _ ∧ (Entries.find? (.str s') es).bind (atKeys? qs) = some v ∧ _
      -- what is left is what stands under the first key
      cases ps with
      | nil =>
        cases qs with
        | nil =>
          have hself : atKeys? [] w = some v ∧ v.IsLeaf ↔ v = w := by
            refine ⟨fun h => (Option.some.inj h.1).symm, ?_⟩
            rintro rfl
            exact ⟨rfl, hw⟩
          simpa [writeBelow, Path.Apart] using hself
        | cons s₁ qs => simp [writeBelow, Path.Apart, atKeys?_cons_of_isLeaf hw]
      | cons s₁ ps =>
        obtain ⟨tag', sub, hwrite, hread⟩ :=
          exists_mapping_below_atKeys? (Entries.find? (.str s') es)
        rw [hwrite]
        cases qs with
        | nil =>
          have hnew : writeEntries w (s₁ :: ps) sub ≠ [] := writeEntries_ne_nil (by simp) sub
          obtain ⟨e, sub', hcons⟩ := List.exists_cons_of_ne_nil hnew
          have hmap : ¬ (atKeys? [] (map tag' (writeEntries w (s₁ :: ps) sub)) = some v ∧
              v.IsLeaf) := by
            rw [hcons]
            rintro ⟨hv, hleaf⟩
            exact hleaf tag' e sub' (Option.some.inj hv).symm
          simpa [Path.Apart] using hmap
        | cons s₂ qs =>
          rw [hread]
          exact ih (by simp) (by simp) tag' sub
    · have hfind : atKeys? (s' :: qs) (map tag (writeEntries w (s :: ps) es)) =
          atKeys? (s' :: qs) (map tag es) := by
        rw [atKeys?, atKeys?, find?_writeEntries_of_ne hs]
      rw [hfind]
      simp [hs, Path.apart_cons_of_ne hs]

/-! ## All writes -/

/-- After leaves have been written into nothing one after the other, keys lead to a leaf if it is
one of them and the path of none written later concerns its own. -/
theorem atKeys?_writeAll_iff {leaves : List (List String × Tree α)}
    (hleaf : ∀ leaf ∈ leaves, leaf.2.IsLeaf) (hne : ∀ leaf ∈ leaves, leaf.1 ≠ [])
    {qs : List String} (hqs : qs ≠ []) (tag : α) (v : Tree α) :
    atKeys? qs (map tag (writeAll leaves [])) = some v ∧ v.IsLeaf ↔
      ∃ front back, leaves = front ++ (qs, v) :: back ∧
        ∀ later ∈ back, Path.Apart qs later.1 := by
  induction leaves using List.reverseRecOn with
  | nil =>
    obtain ⟨s, ss, rfl⟩ := List.exists_cons_of_ne_nil hqs
    simp [writeAll, atKeys?, Entries.find?]
  | append_singleton leaves last ih =>
    obtain ⟨hbefore, hlast⟩ := List.forall_mem_append.1 hleaf
    obtain ⟨hnebefore, hnelast⟩ := List.forall_mem_append.1 hne
    have hwrite : writeAll (leaves ++ [last]) [] =
        writeEntries last.2 last.1 (writeAll leaves []) := by
      rw [writeAll, List.foldl_concat, ← writeAll]
    rw [hwrite, atKeys?_writeEntries_iff (hlast last (List.mem_singleton_self _))
      (hnelast last (List.mem_singleton_self _)) hqs, ih hbefore hnebefore]
    constructor
    · rintro (⟨rfl, rfl⟩ | ⟨hapart, front, back, rfl, hback⟩)
      · exact ⟨leaves, [], rfl, List.forall_mem_nil _⟩
      · refine ⟨front, back ++ [last], by simp, List.forall_mem_append.2 ⟨hback, ?_⟩⟩
        simpa using hapart
    · rintro ⟨front, back, heq, hback⟩
      rcases List.eq_nil_or_concat back with rfl | ⟨back, other, rfl⟩
      · obtain ⟨-, hsame⟩ := List.append_inj' heq rfl
        cases hsame
        exact Or.inl ⟨rfl, rfl⟩
      · rw [List.concat_eq_append] at heq hback
        obtain ⟨rfl, hsame⟩ := List.append_inj'
          (heq.trans (List.append_assoc front ((qs, v) :: back) [other]).symm) rfl
        cases hsame
        obtain ⟨hrest, hother⟩ := List.forall_mem_append.1 hback
        exact Or.inr ⟨hother last (List.mem_singleton_self _), front, back, rfl, hrest⟩

end Written

/-! ## Mappings nested again -/

/-- Keys lead to a leaf of what a mapping is when nested again, if it is a leaf of the mapping under
a path with these segments and the path of no later one concerns it. -/
theorem atKeys?_unflattenEntries_iff (es : List (Key × Value)) {qs : List String} (hqs : qs ≠ [])
    (v : Value) : atKeys? qs (map () (unflattenEntries es)) = some v ∧ v.IsLeaf ↔
      ∃ front p back, flattenEntries "" es = front ++ (p, v) :: back ∧ qs = Path.split p ∧
        ∀ later ∈ back, Path.Apart (Path.split p) (Path.split later.1) := by
  have hall : ∀ leaf ∈ (flattenEntries "" es).map fun leaf => (Path.split leaf.1, leaf.2),
      leaf.2.IsLeaf ∧ leaf.1 ≠ [] := by
    intro leaf hmem
    obtain ⟨plain, hplain, rfl⟩ := List.mem_map.1 hmem
    exact ⟨isLeaf_of_mem_flattenEntries hplain, Path.split_ne_nil plain.1⟩
  rw [unflattenEntries, entriesOfFlat_eq_writeAll,
    atKeys?_writeAll_iff (fun leaf hmem => (hall leaf hmem).1) (fun leaf hmem => (hall leaf hmem).2)
      hqs]
  constructor
  · rintro ⟨front, back, heq, hback⟩
    obtain ⟨front', rest, hflat, rfl, hrest⟩ := List.map_eq_append_iff.1 heq
    obtain ⟨⟨p, w⟩, back', rfl, hone, rfl⟩ := List.map_eq_cons_iff.1 hrest
    cases hone
    exact ⟨front', p, back', hflat, rfl, fun later hmem => hback _ (List.mem_map_of_mem hmem)⟩
  · rintro ⟨front, p, back, hflat, rfl, hback⟩
    refine ⟨_, _, (congrArg _ hflat).trans List.map_append, fun later hmem => ?_⟩
    obtain ⟨plain, hplain, rfl⟩ := List.mem_map.1 hmem
    exact hback plain hplain

/-- A mapping that can be taken apart is nested again, and then holds the leaves of which no later
one concerns the path, and no others: each is read at its path, and each leaf that keys lead to is
the last one of a path with these segments. -/
theorem unflatten_last_write {es : List (Key × Value)} {flat : Flat Unit}
    (h : (map () es).flatten "" = .ok flat) :
    ∃ built, (map () es).unflatten = .ok (map () built) ∧
      (∀ front p v back, flat = front ++ (p, v) :: back → p ≠ "" →
        (∀ later ∈ back, Path.Apart (Path.split p) (Path.split later.1)) →
          (map () built).get p = .ok v) ∧
      ∀ ks v, (ks, v) ∈ entryKeyLeaves built ↔
        ∃ front p back, flat = front ++ (p, v) :: back ∧ ks = (Path.split p).map Key.str ∧
          ∀ later ∈ back, Path.Apart (Path.split p) (Path.split later.1) := by
  have hnamed : NamedEntries (fun _ => True) (unflattenEntries es) :=
    namedEntries_writeLeaves (fun leaf hmem =>
      ⟨named_of_isLeaf (isLeaf_of_mem_flattenEntries hmem), fun _ _ => trivial⟩) trivial
  obtain ⟨_, _, heq, hlegible, rfl⟩ := flatten_eq_ok_iff.1 h
  cases heq
  refine ⟨unflattenEntries es, unflatten_of_areLegible () hlegible, ?_, fun ks v => ?_⟩
  · intro front p v back hflat hne hback
    have hat := (atKeys?_unflattenEntries_iff es (Path.split_ne_nil p) v).2
      ⟨front, p, back, hflat, rfl, hback⟩
    rw [get_eq_reach hne]
    exact reach_of_atKeys? hat.1
  · rw [mem_entryKeyLeaves_iff_atKeys? hnamed ()]
    constructor
    · rintro ⟨path, rfl, hne, hat⟩
      obtain ⟨front, p, back, hflat, rfl, hback⟩ := (atKeys?_unflattenEntries_iff es hne v).1 hat
      exact ⟨front, p, back, hflat, rfl, hback⟩
    · rintro ⟨front, p, back, hflat, rfl, hback⟩
      have hne := Path.split_ne_nil p
      exact ⟨_, rfl, hne,
        (atKeys?_unflattenEntries_iff es hne v).2 ⟨front, p, back, hflat, rfl, hback⟩⟩

/-- A mapping in which paths say several things of one place. -/
def conflicts : List (Key × Value) :=
  [(.str "a", .atom (.int 1)), (.str "a.b", .atom (.int 2)), (.str "c:d", .atom (.int 3)),
    (.str "c", .map () [(.str "d", .map () []), (.str "e", .list () [.str "x"])]),
    (.str "a:b", .map () [(.atom (.int 8), .atom (.bool true))])]

theorem unflatten_last_write_conflicts :
    ∃ built, (map () conflicts).unflatten = .ok (map () built) ∧
      (map () built).get "c.d" = .ok (map () []) ∧
      ([.str "a", .str "b", .str "8"], .atom (.bool true)) ∈ entryKeyLeaves built := by
  have hflat : (map () conflicts).flatten "" =
      .ok [("a", .atom (.int 1)), ("a.b", .atom (.int 2)), ("c:d", .atom (.int 3)),
        ("c.d", map () []), ("c.e", .list () [.str "x"]), ("a:b.8", .atom (.bool true))] :=
    rfl
  obtain ⟨built, hbuilt, hget, hleaf⟩ := unflatten_last_write hflat
  refine ⟨built, hbuilt, ?_, ?_⟩
  · exact hget [_, _, _] "c.d" _ [_, _] rfl (by decide) (by decide +kernel)
  · have hsplit : ["a", "b", "8"] = Path.split "a:b.8" := by decide +kernel
    exact (hleaf _ _).2
      ⟨[_, _, _, _, _], "a:b.8", [], rfl, congrArg (List.map Key.str) hsplit, nofun⟩

end Tree

end LayeredConfig
