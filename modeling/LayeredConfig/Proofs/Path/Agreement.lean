import LayeredConfig.Proofs.Path.Codec
import LayeredConfig.Proofs.Path.Readings
import Mathlib.Data.List.Nodup

/-!
# Leaves read at their paths

Where the keys of each mapping have different written forms, none of them empty and
none with a separator in it, the path of a leaf has the written forms of the keys for
its segments, and each of these names one key.  So each leaf is read at its own path,
and nowhere else, as long as a look-up goes through mappings only.

* `Path.split_foldl_extend` — the segments of a path that is joined from parts.
* `Tree.leafPlaces` — the leaves of a tree by their places.
* `Tree.locate?_entryBranches` — the segments of a leaf lead to its place.
* `Tree.mem_entryBranches_of_locate?` — the segments that lead to a leaf are its own.
* `Tree.flatten_find?_agree` — taking a tree apart and reading it agree.
-/

namespace LayeredConfig

/-! ## Paths joined from parts -/

namespace Path

/-- The segments of a path that is joined from parts below another one. -/
theorem split_foldl_extend {parent : String} (hp : parent ≠ "") {parts : List String}
    (h : ∀ s ∈ parts, IsPart s) : split (parts.foldl extend parent) = split parent ++ parts := by
  induction parts generalizing parent with
  | nil => exact (List.append_nil _).symm
  | cons s parts ih =>
    obtain ⟨hs, hparts⟩ := List.forall_mem_cons.1 h
    rw [List.foldl_cons, ih (extend_ne_empty hp s) hparts, split_extend hp hs, List.append_assoc]
    rfl

theorem foldl_extend_ne_empty {parent : String} (hp : parent ≠ "") (parts : List String) :
    parts.foldl extend parent ≠ "" := by
  induction parts generalizing parent with
  | nil => exact hp
  | cons s parts ih => exact ih (extend_ne_empty hp s)

/-- A path that is joined from segments, none of them empty, has these segments. -/
theorem split_foldl_extend_root {segments : List String} (hne : segments ≠ [])
    (h : ∀ s ∈ segments, IsSegment s) :
    segments.foldl extend "" ≠ "" ∧ split (segments.foldl extend "") = segments := by
  obtain ⟨s, ss, rfl⟩ := List.exists_cons_of_ne_nil hne
  obtain ⟨⟨hs, hpart⟩, hss⟩ := List.forall_mem_cons.1 h
  have hextend : extend "" s = s := if_pos rfl
  rw [List.foldl_cons, hextend]
  refine ⟨foldl_extend_ne_empty hs ss, ?_⟩
  rw [split_foldl_extend hs fun s' hs' => (hss s' hs').2, split_of_isPart hpart]
  rfl

/-- A path none of whose segments is empty is joined from them again, in normal form. -/
theorem foldl_extend_split_of_isSegment {path : String} (h : ∀ s ∈ split path, IsSegment s) :
    (split path).foldl extend "" = normalize path := by
  have hne : path ≠ "" := by
    rintro rfl
    exact (h "" (by decide +kernel)).1 rfl
  refine foldl_extend_split hne fun c hc => ?_
  obtain ⟨cs, hcs⟩ := List.head?_eq_some_iff.1 hc
  rw [Bool.eq_false_iff]
  intro hsep
  -- else the first segment would be empty
  have hfirst : "" ∈ split path := by
    rw [split, hcs, splitChars_cons, if_pos hsep]
    exact List.mem_cons_self
  exact (h "" hfirst).1 rfl

end Path

namespace Tree

variable {α : Type}

/-! ## Keys by their written forms -/

theorem textKeyedEntries_cons_iff {k : Key} {v : Tree α} {es : List (Key × Tree α)} :
    textKeyedEntries ((k, v) :: es) = true ↔ k.isWritable = true ∧ Path.IsSegment k.text ∧
      (∀ e ∈ es, e.1.text ≠ k.text) ∧ v.textKeyed = true ∧ textKeyedEntries es = true := by
  simp [textKeyedEntries, and_assoc]

mutual

/-- Keys with written forms can be written into paths. -/
theorem isLegible_of_textKeyed : (t : Tree α) → t.textKeyed = true → t.isLegible = true
  | atom _, _ => rfl
  | list _ _, _ => rfl
  | map _ es, h => areLegible_of_textKeyed es h
  | tuple _, _ => rfl
  | set _, _ => rfl

theorem areLegible_of_textKeyed : (es : List (Key × Tree α)) → textKeyedEntries es = true →
    areLegible es = true
  | [], _ => rfl
  | (_, v) :: es, h => by
    obtain ⟨hk, -, -, hv, hes⟩ := textKeyedEntries_cons_iff.1 h
    exact areLegible_cons_iff.2
      ⟨hk, isLegible_of_textKeyed v hv, areLegible_of_textKeyed es hes⟩

end

theorem nodup_texts_of_textKeyed {es : List (Key × Tree α)} (h : textKeyedEntries es = true) :
    (es.map fun e => e.1.text).Nodup := by
  induction es with
  | nil => exact List.nodup_nil
  | cons e es ih =>
    obtain ⟨-, -, hnew, -, hes⟩ := textKeyedEntries_cons_iff.1 h
    refine List.nodup_cons.2 ⟨fun hmem => ?_, ih hes⟩
    obtain ⟨f, hf, htext⟩ := List.mem_map.1 hmem
    exact hnew f hf htext

theorem isWritable_of_textKeyed {es : List (Key × Tree α)} (h : textKeyedEntries es = true) :
    ∀ e ∈ es, e.1.isWritable = true := by
  induction es with
  | nil => exact nofun
  | cons e es ih =>
    obtain ⟨hk, -, -, -, hes⟩ := textKeyedEntries_cons_iff.1 h
    exact List.forall_mem_cons.2 ⟨hk, ih hes⟩

/-- The written form of a key that no other key has names its entry. -/
theorem child?_text {es : List (Key × Tree α)} (hkeyed : textKeyedEntries es = true) {i : Nat}
    {e : Key × Tree α} (h : es[i]? = some e) (tag : α) :
    child? e.1.text (map tag es) = .ok (some (i, e.2)) := by
  -- the look-up does not fail, since every key can be written, and it finds an entry
  obtain ⟨j, w, hnamed⟩ : ∃ j w, namedPlace? e.1.text es = .ok (some (j, w)) := by
    rcases namedPlace?_cases e.1.text es with ⟨j, w, -, hplace⟩ | ⟨-, hplace⟩
    · exact ⟨j, w, hplace⟩
    rw [hplace, textPlace?_of_forall _ (isWritable_of_textKeyed hkeyed)]
    cases hfirst : findPlace? (fun k => decide (k.text = e.1.text)) es with
    | some hit => exact ⟨hit.1, hit.2, rfl⟩
    | none =>
      have hno := findPlace?_eq_none_iff.1 hfirst e.1
        (List.mem_map_of_mem (List.mem_of_getElem? h))
      simp at hno
  obtain ⟨k, hk, htext⟩ := exists_of_namedPlace? hnamed
  have hi : i < (es.map fun e => e.1.text).length := by
    rw [List.length_map]
    exact (List.getElem?_eq_some_iff.1 h).1
  obtain rfl : i = j := by
    refine (List.getElem?_inj hi (nodup_texts_of_textKeyed hkeyed)).1 ?_
    rw [List.getElem?_map, List.getElem?_map, h, hk, Option.map_some, Option.map_some, htext]
  rw [hk] at h
  cases h
  exact hnamed

mutual

theorem isSegment_of_mem_branches : (v : Tree α) → v.textKeyed = true →
    ∀ b ∈ branches v, ∀ s ∈ b.1, Path.IsSegment s
  | map _ [], _, b, hb => by
    rw [List.mem_singleton.1 hb]
    exact nofun
  | map _ (e :: es), h, b, hb => (isSegment_of_mem_entryBranches (e :: es) h b hb).2
  | atom _, _, b, hb => by
    rw [List.mem_singleton.1 hb]
    exact nofun
  | list _ _, _, b, hb => by
    rw [List.mem_singleton.1 hb]
    exact nofun
  | tuple _, _, b, hb => by
    rw [List.mem_singleton.1 hb]
    exact nofun
  | set _, _, b, hb => by
    rw [List.mem_singleton.1 hb]
    exact nofun

/-- The written forms of the keys on the way to a leaf are segments. -/
theorem isSegment_of_mem_entryBranches : (es : List (Key × Tree α)) → textKeyedEntries es = true →
    ∀ b ∈ entryBranches es, b.1 ≠ [] ∧ ∀ s ∈ b.1, Path.IsSegment s
  | [], _, _, hb => by cases hb
  | (k, v) :: es, h, b, hb => by
    obtain ⟨-, hk, -, hv, hes⟩ := textKeyedEntries_cons_iff.1 h
    rcases List.mem_append.1 hb with hfirst | hrest
    · obtain ⟨below, hbelow, rfl⟩ := List.mem_map.1 hfirst
      exact ⟨by simp, List.forall_mem_cons.2 ⟨hk, isSegment_of_mem_branches v hv below hbelow⟩⟩
    · exact isSegment_of_mem_entryBranches es hes b hrest

end

/-! ## Leaves by their places -/

mutual

/-- The leaves of a value, each with the places passed on the way to it. -/
def leafPlaces : Tree α → List (List Nat × Tree α)
  | map t [] => [([], map t [])]
  | map _ (e :: es) => entryLeafPlaces 0 (e :: es)
  | leaf => [([], leaf)]

/-- The leaves of the entries of a mapping from the given place on. -/
def entryLeafPlaces (i : Nat) : List (Key × Tree α) → List (List Nat × Tree α)
  | [] => []
  | (_, v) :: es => (leafPlaces v).map (fun leaf => (i :: leaf.1, leaf.2)) ++
      entryLeafPlaces (i + 1) es

end

/-- The places of leaves begin at the given one. -/
theorem exists_of_mem_entryLeafPlaces {es : List (Key × Tree α)} {i : Nat}
    {leaf : List Nat × Tree α} (h : leaf ∈ entryLeafPlaces i es) :
    ∃ j rest, leaf.1 = j :: rest ∧ i ≤ j := by
  induction es generalizing i with
  | nil => cases h
  | cons e es ih =>
    rcases List.mem_append.1 h with hfirst | hrest
    · obtain ⟨below, -, rfl⟩ := List.mem_map.1 hfirst
      exact ⟨i, below.1, rfl, le_refl i⟩
    · obtain ⟨j, rest, hj, hle⟩ := ih hrest
      exact ⟨j, rest, hj, by omega⟩

mutual

theorem nodup_leafPlaces : (v : Tree α) → ((leafPlaces v).map (·.1)).Nodup
  | map _ [] => List.nodup_singleton _
  | map _ (e :: es) => nodup_entryLeafPlaces (e :: es) 0
  | atom _ => List.nodup_singleton _
  | list _ _ => List.nodup_singleton _
  | tuple _ => List.nodup_singleton _
  | set _ => List.nodup_singleton _

/-- No two leaves stand at one place. -/
theorem nodup_entryLeafPlaces :
    (es : List (Key × Tree α)) → ∀ i, ((entryLeafPlaces i es).map (·.1)).Nodup
  | [], _ => List.nodup_nil
  | (k, v) :: es, i => by
    rw [entryLeafPlaces, List.map_append, List.map_map, List.nodup_append]
    refine ⟨?_, nodup_entryLeafPlaces es (i + 1), ?_⟩
    · have hv := (nodup_leafPlaces v).map (List.cons_injective (a := i))
      rwa [List.map_map] at hv
    · intro a ha b hb
      obtain ⟨below, -, rfl⟩ := List.mem_map.1 ha
      obtain ⟨leaf, hleaf, rfl⟩ := List.mem_map.1 hb
      obtain ⟨j, rest, hj, hle⟩ := exists_of_mem_entryLeafPlaces hleaf
      rw [hj]
      intro heq
      have hij : i = j := (List.cons.inj heq).1
      omega

end

mutual

theorem locate?_branches : (v : Tree α) → v.textKeyed = true →
    (branches v).map (fun b => (locate? b.1 v, b.2)) =
      (leafPlaces v).map fun leaf => (.ok (some leaf), leaf.2)
  | map _ [], _ => rfl
  | map t (e :: es), h =>
    locate?_entryBranches t (e :: es) (e :: es) h 0 fun j f hf => by
      rw [Nat.zero_add]
      exact child?_text h hf t
  | atom _, _ => rfl
  | list _ _, _ => rfl
  | tuple _, _ => rfl
  | set _, _ => rfl

/-- The written forms of the keys on the way to a leaf lead to the place of that leaf, for entries
that stand in a mapping from some place on. -/
theorem locate?_entryBranches (tag : α) (all : List (Key × Tree α)) :
    (es : List (Key × Tree α)) → textKeyedEntries es = true → ∀ i,
      (∀ j e, es[j]? = some e → child? e.1.text (map tag all) = .ok (some (i + j, e.2))) →
        (entryBranches es).map (fun b => (locate? b.1 (map tag all), b.2)) =
          (entryLeafPlaces i es).map fun leaf => (.ok (some leaf), leaf.2)
  | [], _, _, _ => rfl
  | (k, v) :: es, h, i, hchild => by
    obtain ⟨-, -, -, hv, hes⟩ := textKeyedEntries_cons_iff.1 h
    have hk : child? k.text (map tag all) = .ok (some (i, v)) := hchild 0 (k, v) rfl
    have hrest := locate?_entryBranches tag all es hes (i + 1) fun j e he => by
      rw [Nat.add_right_comm]
      exact hchild (j + 1) e he
    -- from the child on, look-ups go as they go in the child alone
    have hfirst := congrArg (List.map fun found : Except NumeralError (Option (List Nat × Tree α)) ×
      Tree α => (found.1.map (Option.map fun hit => (i :: hit.1, hit.2)), found.2))
      (locate?_branches v hv)
    rw [List.map_map, List.map_map] at hfirst
    rw [entryBranches, entryLeafPlaces, List.map_append, List.map_append, hrest, List.map_map,
      List.map_map]
    refine congrArg (· ++ _) (Eq.trans (List.map_congr_left fun b _ => ?_) hfirst)
    exact congrArg (·, b.2) (locate?_cons_of_child? hk b.1)

end

/-- Segments that lead through mappings to a leaf are the written forms of the keys on the way to
it. -/
theorem mem_entryBranches_of_locate? {segments : List String} (hne : segments ≠ []) {tag : α}
    {es : List (Key × Tree α)} {steps : List Nat} {v : Tree α}
    (h : locate? segments (map tag es) = .ok (some (steps, v)))
    (hrows : rowFree segments (map tag es) = true) (hv : v.IsLeaf) :
    (segments, v) ∈ entryBranches es := by
  induction segments generalizing tag es steps with
  | nil => exact absurd rfl hne
  | cons s ss ih =>
    obtain ⟨i, u, rest, hchild, hrest, -⟩ := exists_of_locate?_cons h
    obtain ⟨k, hk, rfl⟩ := exists_of_namedPlace? hchild
    have hrows' : rowFree ss u = true := by
      rw [rowFree, hchild] at hrows
      simpa [isRow] using hrows
    suffices hb : (ss, v) ∈ branches u from mem_entryBranches (List.mem_of_getElem? hk) hb
    cases ss with
    | nil =>
      cases hrest
      rw [branches_of_isLeaf hv]
      exact List.mem_singleton_self _
    | cons s' ss =>
      obtain ⟨j, w, rest', hchild', -, -⟩ := exists_of_locate?_cons hrest
      rcases child?_cases u with ⟨t, sub, rfl⟩ | ⟨items, hrow⟩ | ⟨-, hnone⟩
      · have hsub : sub ≠ [] := by
          rintro rfl
          cases hchild'
        rw [branches_map_of_ne_nil hsub]
        exact ih (by simp) hrest hrows'
      · have hnorow := isRow_of_rowFree hrows'
        rw [isRow_eq, hrow] at hnorow
        cases hnorow
      · rw [hnone] at hchild'
        cases hchild'

/-! ## Taking apart and reading -/

section Entries

variable {es : List (Key × Tree α)} (h : textKeyedEntries es = true)

include h

/-- The path of a leaf leads where its segments lead. -/
theorem find?_foldl_extend {b : List String × Tree α} (hb : b ∈ entryBranches es) (tag : α) :
    find? (b.1.foldl Path.extend "") (map tag es) = locate? b.1 (map tag es) := by
  obtain ⟨hne, hsegments⟩ := isSegment_of_mem_entryBranches es h b hb
  obtain ⟨hpath, hsplit⟩ := Path.split_foldl_extend_root hne hsegments
  rw [find?, if_neg hpath, hsplit]

/-- The paths of the leaves lead to their places, one after the other. -/
theorem find?_entryLeaves (tag : α) :
    (entryLeaves "" es).map (fun leaf => (find? leaf.1 (map tag es), leaf.2)) =
      (entryLeafPlaces 0 es).map fun place => (.ok (some place), place.2) := by
  have hplaces := locate?_entryBranches tag es es h 0 fun j e he => by
    rw [Nat.zero_add]
    exact child?_text h he tag
  rw [entryLeaves_eq_foldl, List.map_map, ← hplaces]
  refine List.map_congr_left fun b hb => ?_
  exact congrArg (·, b.2) (find?_foldl_extend h hb tag)

/-- No two leaves have the same path. -/
theorem nodup_entryLeaves (tag : α) : ((entryLeaves "" es).map (·.1)).Nodup := by
  have hplaces : ((entryLeafPlaces 0 es).map fun place =>
      (Except.ok (some place) : Except NumeralError (Option (List Nat × Tree α)))).Nodup :=
    (List.Nodup.of_map _ (nodup_entryLeafPlaces es 0)).map fun _ _ heq => by simpa using heq
  have hfound := congrArg (List.map Prod.fst) (find?_entryLeaves h tag)
  rw [List.map_map, List.map_map] at hfound
  have hpaths : (((entryLeaves "" es).map (·.1)).map fun p => find? p (map tag es)).Nodup := by
    rw [List.map_map]
    exact hfound ▸ hplaces
  exact hpaths.of_map

theorem flattenEntries_of_textKeyed (tag : α) : flattenEntries "" es = entryLeaves "" es :=
  Flat.ofList_of_pairwise (List.pairwise_map.1 (nodup_entryLeaves h tag))

/-- A path that leads through mappings to a leaf is, in normal form, the path of that leaf. -/
theorem mem_entryLeaves_of_find? {tag : α} {path : String} {steps : List Nat} {v : Tree α}
    (hfind : find? path (map tag es) = .ok (some (steps, v)))
    (hrows : rowFree (Path.split path) (map tag es) = true) (hv : v.IsLeaf) :
    (Path.normalize path, v) ∈ entryLeaves "" es := by
  rw [find?] at hfind
  split at hfind
  · cases hfind
  · have hb := mem_entryBranches_of_locate? (Path.split_ne_nil path) hfind hrows hv
    obtain ⟨-, hsegments⟩ := isSegment_of_mem_entryBranches es h _ hb
    rw [entryLeaves_eq_foldl, ← Path.foldl_extend_split_of_isSegment hsegments]
    exact List.mem_map_of_mem hb

end Entries

/-- Taking a tree apart and reading it agree, if the keys of each mapping have different written
forms that are segments: the entries are the leaves of the tree, each once and in their order; each
leaf is read at its path, at its own place; and a path that leads through mappings to a leaf is, in
normal form, the path of that leaf. -/
theorem flatten_find?_agree {es : List (Key × Value)} (h : textKeyedEntries es = true) :
    ∃ flat, (map () es).flatten "" = .ok flat ∧ (flat.map (·.1)).Nodup ∧
      (flat.map fun leaf => ((map () es).find? leaf.1, leaf.2)) =
        (entryLeafPlaces 0 es).map (fun place => (.ok (some place), place.2)) ∧
      (∀ leaf ∈ flat, (map () es).get leaf.1 = .ok leaf.2) ∧
      ∀ p steps v, (map () es).find? p = .ok (some (steps, v)) →
        rowFree (Path.split p) (map () es) = true → v.IsLeaf → (Path.normalize p, v) ∈ flat := by
  have hflat : (map () es).flatten "" = .ok (entryLeaves "" es) := by
    rw [flatten_of_areLegible () (areLegible_of_textKeyed es h), flattenEntries_of_textKeyed h ()]
  refine ⟨entryLeaves "" es, hflat, nodup_entryLeaves h (), find?_entryLeaves h (),
    fun leaf hleaf => ?_,
    fun p steps v hfind hrows hv => mem_entryLeaves_of_find? h hfind hrows hv⟩
  have hmem := List.mem_map_of_mem (f := fun leaf => ((map () es).find? leaf.1, leaf.2)) hleaf
  rw [find?_entryLeaves h ()] at hmem
  obtain ⟨place, -, heq⟩ := List.mem_map.1 hmem
  obtain ⟨hfind, hv⟩ := Prod.mk.inj heq
  rw [get, ← hfind, ← hv]
  rfl

/-- A mapping with a number, a truth value and no value for keys. -/
def gateway : List (Key × Value) :=
  [(.str "ports", .map () [(.atom (.int 8080), .str "web"), (.atom (.bool true), .map () [])]),
    (.atom .null, .list () [.str "x"])]

theorem flatten_find?_agree_gateway :
    ∃ flat, (map () gateway).flatten "" = .ok flat ∧
      flat.map (fun leaf => (map () gateway).find? leaf.1) =
        [.ok (some ([0, 0], .str "web")), .ok (some ([0, 1], .map () [])),
          .ok (some ([1], .list () [.str "x"]))] ∧
      ("ports.True", .map () []) ∈ flat := by
  have htext : textKeyedEntries gateway = true := by decide +kernel
  obtain ⟨flat, hflat, -, hplaces, -, hread⟩ := flatten_find?_agree htext
  refine ⟨flat, hflat, ?_, ?_⟩
  · have hfound := congrArg (List.map Prod.fst) hplaces
    rw [List.map_map, List.map_map] at hfound
    exact hfound
  · have hports : child? "ports" (map () gateway) = .ok (some (0,
        .map () [(.atom (.int 8080), .str "web"), (.atom (.bool true), .map () [])])) :=
      child?_text htext (e := (.str "ports", _)) rfl ()
    have hkey : child? "True" (map ()
        [(.atom (.int 8080), .str "web"), (.atom (.bool true), .map () [])]) =
          .ok (some (1, .map () [])) :=
      child?_text (by decide +kernel) (e := (.atom (.bool true), .map () [])) rfl ()
    have hsplit : Path.split "ports:True" = ["ports", "True"] := by decide +kernel
    have hfind : (map () gateway).find? "ports:True" = .ok (some ([0, 1], .map () [])) := by
      rw [find?, if_neg (by decide), hsplit, locate?_cons_of_child? hports,
        locate?_cons_of_child? hkey]
      rfl
    have hnormal : Path.normalize "ports:True" = "ports.True" := by decide +kernel
    exact hnormal ▸ hread "ports:True" _ _ hfind (by decide +kernel) (by simp [IsLeaf])

end Tree

end LayeredConfig
