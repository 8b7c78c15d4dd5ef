import LayeredConfig.Proofs.Path.Branches
import LayeredConfig.Proofs.Path.Legible

/-!
# Flat and nested trees

Taken apart and put together, a tree is the same again, if the paths of its leaves
lead back to its keys.  Put together and taken apart, flat leaves are the same again
but for their order, if none of their paths is a front of another one: a write at a
path that is apart from all leaves adds its own leaf to them and leaves the others
alone.

* `Tree.leavesAt_eq_foldl` — the path of a leaf is joined from the keys on the way to it.
* `Tree.entryBranches_writeEntries` — a write apart from all leaves adds one leaf.
* `Flat.Nestable` — flat leaves that can be nested.
* `Tree.flatten_unflatten` — both round trips.
-/

namespace LayeredConfig

/-! ## Paths in normal form -/

namespace Path

theorem normalize_of_notMem {path : String} (h : ':' ∉ path.toList) : normalize path = path := by
  rw [← String.toList_inj, normalize, String.toList_ofList]
  refine (List.map_congr_left fun c hc => ?_).trans (List.map_id _)
  have hne : c ≠ ':' := by
    rintro rfl
    exact h hc
  exact if_neg hne

/-- A path with no colon that does not begin with a point is joined again from its segments. -/
theorem foldl_extend_split_self {path : String} (hcolon : ':' ∉ path.toList)
    (hstart : path.toList.head? ≠ some '.') : (split path).foldl extend "" = path := by
  by_cases hempty : path = ""
  · subst hempty
    rfl
  · rw [foldl_extend_split hempty, normalize_of_notMem hcolon]
    intro c hc
    have hmem : c ∈ path.toList := List.mem_of_mem_head? hc
    have hpoint : c ≠ '.' := by
      rintro rfl
      exact hstart hc
    have hother : c ≠ ':' := by
      rintro rfl
      exact hcolon hmem
    simp [isSeparator, hpoint, hother]

end Path

/-! ## Entries around a key -/

/-- What is found under a key stands between other entries, which stay when the key is written. -/
theorem Entries.exists_append_of_find? {β : Type} {s : String} {es : List (Key × β)} {v : β}
    (h : find? (.str s) es = some v) : ∃ front back, es = front ++ (.str s, v) :: back ∧
      ∀ w, insert (.str s) w es = front ++ (.str s, w) :: back := by
  induction es with
  | nil => cases h
  | cons e es ih =>
    obtain ⟨k, u⟩ := e
    by_cases hk : (Key.str s).same k = true
    · obtain rfl := Key.same_str_iff.1 hk
      rw [find?, if_pos hk] at h
      cases h
      refine ⟨[], es, rfl, fun w => ?_⟩
      rw [insert, if_pos hk]
      rfl
    · rw [find?, if_neg hk] at h
      obtain ⟨front, back, rfl, hinsert⟩ := ih h
      refine ⟨(k, u) :: front, back, rfl, fun w => ?_⟩
      rw [insert, if_neg hk, hinsert, List.cons_append]

namespace Tree

variable {α : Type}

/-! ## Leaves -/

/-- The value is no mapping with entries. -/
def IsLeaf (v : Tree α) : Prop :=
  ∀ t e es, v ≠ map t (e :: es)

theorem isLeaf_or_exists (v : Tree α) : v.IsLeaf ∨ ∃ t e es, v = map t (e :: es) := by
  by_cases h : v.IsLeaf
  · exact Or.inl h
  · simp only [IsLeaf, not_forall, not_not] at h
    exact Or.inr h

theorem leavesAt_of_isLeaf {v : Tree α} (h : v.IsLeaf) (path : String) :
    leavesAt path v = [(path, v)] := by
  cases v with
  | map t es =>
    cases es with
    | nil => rfl
    | cons e es => exact absurd rfl (h t e es)
  | _ => rfl

theorem named_of_isLeaf {kind : String → Prop} {v : Tree α} (h : v.IsLeaf) : v.Named kind := by
  cases v with
  | map t es =>
    cases es with
    | nil => trivial
    | cons e es => exact absurd rfl (h t e es)
  | _ => trivial

theorem isLeaf_of_mem_flattenEntries {parent : String} {es : List (Key × Tree α)}
    {leaf : String × Tree α} (h : leaf ∈ flattenEntries parent es) : leaf.2.IsLeaf :=
  fun _ _ _ => ne_map_of_mem_entryLeaves parent es (Flat.mem_of_mem_ofList h)

theorem branches_of_isLeaf {v : Tree α} (h : v.IsLeaf) : branches v = [([], v)] := by
  cases v with
  | map t es =>
    cases es with
    | nil => rfl
    | cons e es => exact absurd rfl (h t e es)
  | _ => rfl

mutual

theorem leavesAt_eq_foldl (path : String) : (v : Tree α) →
    leavesAt path v = (branches v).map fun b => (b.1.foldl Path.extend path, b.2)
  | map _ [] => rfl
  | map _ (e :: es) => entryLeaves_eq_foldl path (e :: es)
  | atom _ => rfl
  | list _ _ => rfl
  | tuple _ => rfl
  | set _ => rfl

/-- The path of a leaf is joined from the keys on the way to it. -/
theorem entryLeaves_eq_foldl (parent : String) : (es : List (Key × Tree α)) →
    entryLeaves parent es = (entryBranches es).map fun b => (b.1.foldl Path.extend parent, b.2)
  | [] => rfl
  | (k, v) :: es => by
    rw [entryLeaves, entryBranches, List.map_append, List.map_map,
      leavesAt_eq_foldl (Path.extend parent k.text) v, entryLeaves_eq_foldl parent es]
    rfl

end

theorem entryBranches_append (es fs : List (Key × Tree α)) :
    entryBranches (es ++ fs) = entryBranches es ++ entryBranches fs := by
  induction es with
  | nil => rfl
  | cons e es ih => rw [List.cons_append, entryBranches, entryBranches, ih, List.append_assoc]

theorem mem_entryBranches {k : Key} {v : Tree α} {es : List (Key × Tree α)} (h : (k, v) ∈ es)
    {b : List String × Tree α} (hb : b ∈ branches v) : (k.text :: b.1, b.2) ∈ entryBranches es := by
  obtain ⟨front, back, rfl⟩ := List.append_of_mem h
  rw [entryBranches_append, entryBranches]
  exact List.mem_append_right _ (List.mem_append_left _ (List.mem_map_of_mem hb))

/-- A mapping of leaves is flat already. -/
theorem flattenEntries_toEntries {flat : Flat α} (honce : (flat.map (·.1)).Nodup)
    (hleaf : ∀ leaf ∈ flat, leaf.2.IsLeaf) : flattenEntries "" flat.toEntries = flat := by
  have hall : entryLeaves "" flat.toEntries = flat := by
    clear honce
    induction flat with
    | nil => rfl
    | cons leaf flat ih =>
      obtain ⟨hfirst, hrest⟩ := List.forall_mem_cons.1 hleaf
      have hpath : Path.extend "" (Key.str leaf.1).text = leaf.1 := if_pos rfl
      rw [Flat.toEntries, List.map_cons, entryLeaves, hpath, leavesAt_of_isLeaf hfirst,
        ← Flat.toEntries, ih hrest]
      rfl
  rw [flattenEntries, hall]
  exact Flat.ofList_of_pairwise (List.pairwise_map.1 honce)

/-! ## One more leaf -/

theorem branches_map_of_ne_nil {es : List (Key × Tree α)} (h : es ≠ []) (t : α) :
    branches (map t es) = entryBranches es := by
  obtain ⟨e, es, rfl⟩ := List.exists_cons_of_ne_nil h
  rfl

/-- A path that is apart from the leaves of some entries has segments. -/
theorem ne_nil_of_apart {e : Key × Tree α} {es : List (Key × Tree α)} {ss : List String}
    (hapart : ∀ b ∈ entryBranches (e :: es), Path.Apart b.1 ss) : ss ≠ [] := by
  rintro rfl
  obtain ⟨b, hb⟩ := List.exists_mem_of_ne_nil _ (entryBranches_ne_nil e es)
  exact (hapart b hb).2 List.nil_prefix

/-- Where all leaves are apart from a path below a key, the key holds a mapping with entries, if it
holds anything. -/
theorem exists_map_of_apart {s : String} {ss : List String} {es : List (Key × Tree α)}
    {u : Tree α} (hfind : Entries.find? (.str s) es = some u)
    (hapart : ∀ b ∈ entryBranches es, Path.Apart b.1 (s :: ss)) :
    ∃ t e sub, u = map t (e :: sub) ∧ ∀ b ∈ entryBranches (e :: sub), Path.Apart b.1 ss := by
  have hbelow : ∀ b ∈ branches u, Path.Apart b.1 ss := by
    intro b hb
    exact Path.apart_cons_iff.1 (hapart _ (mem_entryBranches (mem_of_find? hfind) hb))
  rcases u.isLeaf_or_exists with hleaf | ⟨t, e, sub, rfl⟩
  · have hend := hbelow ([], u) (by rw [branches_of_isLeaf hleaf]; exact List.mem_singleton_self _)
    exact absurd List.nil_prefix hend.1
  · exact ⟨t, e, sub, rfl, hbelow⟩

section Written

variable [Inhabited α] {v : Tree α}

theorem writeEntries_ne_nil {ss : List String} (hne : ss ≠ []) (es : List (Key × Tree α)) :
    writeEntries v ss es ≠ [] := by
  obtain ⟨s, ss, rfl⟩ := List.exists_cons_of_ne_nil hne
  intro hnil
  have hfind := find?_writeEntries_self v s ss es
  rw [hnil] at hfind
  cases hfind

/-- A leaf that is written apart from all others is one more leaf, and the others stay. -/
theorem entryBranches_writeEntries (hv : v.IsLeaf) {ss : List String} (hne : ss ≠ [])
    {es : List (Key × Tree α)} (hapart : ∀ b ∈ entryBranches es, Path.Apart b.1 ss) :
    (entryBranches (writeEntries v ss es)).Perm ((ss, v) :: entryBranches es) := by
  induction ss generalizing es with
  | nil => exact absurd rfl hne
  | cons s ss ih =>
    rw [writeEntries_cons]
    cases hfind : Entries.find? (.str s) es with
    | none =>
      have hnew : (branches (writeBelow v ss none)).Perm [(ss, v)] := by
        cases ss with
        | nil => rw [writeBelow, branches_of_isLeaf hv]
        | cons s' ss =>
          show (branches (map default (writeEntries v (s' :: ss) []))).Perm [(s' :: ss, v)]
          rw [branches_map_of_ne_nil (writeEntries_ne_nil (by simp) [])]
          exact ih (by simp) fun b hb => absurd hb List.not_mem_nil
      rw [Entries.insert_of_find?_eq_none hfind, entryBranches_append, entryBranches,
        entryBranches, List.append_nil]
      exact ((hnew.map _).append_left _).trans List.perm_append_comm
    | some u =>
      obtain ⟨t, e, sub, rfl, hbelow⟩ := exists_map_of_apart hfind hapart
      obtain ⟨front, back, rfl, hinsert⟩ := Entries.exists_append_of_find? hfind
      have hss : ss ≠ [] := ne_nil_of_apart hbelow
      have hnew : (branches (writeBelow v ss (some (map t (e :: sub))))).Perm
          ((ss, v) :: branches (map t (e :: sub))) := by
        obtain ⟨s', ss, rfl⟩ := List.exists_cons_of_ne_nil hss
        rw [writeBelow, branches_map_of_ne_nil (writeEntries_ne_nil hss _)]
        exact ih hss hbelow
      rw [hinsert, entryBranches_append, entryBranches_append, entryBranches, entryBranches]
      exact (((hnew.map _).append_right _).append_left _).trans List.perm_middle

/-- Leaves that are apart from each other, written one after the other, are the leaves of what they
make up. -/
theorem entryBranches_writeAll {leaves : List (List String × Tree α)}
    (hleaf : ∀ leaf ∈ leaves, leaf.2.IsLeaf) (hne : ∀ leaf ∈ leaves, leaf.1 ≠ [])
    (hapart : leaves.Pairwise fun a b => Path.Apart a.1 b.1) {es : List (Key × Tree α)}
    (hes : ∀ b ∈ entryBranches es, ∀ leaf ∈ leaves, Path.Apart b.1 leaf.1) :
    (entryBranches (writeAll leaves es)).Perm (leaves ++ entryBranches es) := by
  induction leaves generalizing es with
  | nil => exact .refl _
  | cons leaf leaves ih =>
    obtain ⟨hfirst, hrest⟩ := List.forall_mem_cons.1 hleaf
    obtain ⟨hfirstne, hrestne⟩ := List.forall_mem_cons.1 hne
    obtain ⟨hthen, hlater⟩ := List.pairwise_cons.1 hapart
    have hone : (entryBranches (writeEntries leaf.2 leaf.1 es)).Perm
        (leaf :: entryBranches es) :=
      entryBranches_writeEntries hfirst hfirstne fun b hb => hes b hb leaf List.mem_cons_self
    have hstill : ∀ b ∈ entryBranches (writeEntries leaf.2 leaf.1 es), ∀ other ∈ leaves,
        Path.Apart b.1 other.1 := by
      intro b hb other hother
      rcases List.mem_cons.1 (hone.mem_iff.1 hb) with rfl | hb
      · exact hthen other hother
      · exact hes b hb other (List.mem_cons_of_mem _ hother)
    calc entryBranches (writeAll leaves (writeEntries leaf.2 leaf.1 es))
        |>.Perm (leaves ++ entryBranches (writeEntries leaf.2 leaf.1 es)) :=
          ih hrest hrestne hlater hstill
      _ |>.Perm (leaves ++ leaf :: entryBranches es) := hone.append_left leaves
      _ |>.Perm (leaf :: leaves ++ entryBranches es) := List.perm_middle

end Written

/-! ## Round trips -/

end Tree

/-- Flat leaves that can be nested: each path once, in normal form and not beginning with a point,
none a front of another one, and no mappings with entries for leaves. -/
structure Flat.Nestable (flat : Flat Unit) : Prop where
  once : (flat.map (·.1)).Nodup
  colon : ∀ leaf ∈ flat, ':' ∉ leaf.1.toList
  start : ∀ leaf ∈ flat, leaf.1.toList.head? ≠ some '.'
  front : ∀ a ∈ flat, ∀ b ∈ flat,
    Path.split a.1 <+: Path.split b.1 → Path.split a.1 = Path.split b.1
  leaf : ∀ leaf ∈ flat, leaf.2.IsLeaf

namespace Flat.Nestable

variable {flat : Flat Unit} (h : flat.Nestable)

include h

theorem path_eq {leaf : String × Value} (hmem : leaf ∈ flat) :
    (Path.split leaf.1).foldl Path.extend "" = leaf.1 :=
  Path.foldl_extend_split_self (h.colon leaf hmem) (h.start leaf hmem)

/-- The paths are apart from each other. -/
theorem pairwise_apart :
    flat.Pairwise fun a b => Path.Apart (Path.split a.1) (Path.split b.1) := by
  refine (List.pairwise_map.1 h.once).imp_of_mem fun {a b} ha hb hne => ?_
  have hdiff : Path.split a.1 ≠ Path.split b.1 := by
    intro heq
    rw [← h.path_eq ha, ← h.path_eq hb, heq] at hne
    exact hne rfl
  exact ⟨fun hfront => hdiff (h.front a ha b hb hfront),
    fun hfront => hdiff (h.front b hb a ha hfront).symm⟩

end Flat.Nestable

namespace Tree

mutual

/-- The same leaves make up the same tree. -/
theorem graft_id : (v : Value) → graft id v = v
  | map _ [] => rfl
  | map _ (e :: es) => congrArg (map ()) (graftEntries_id (e :: es))
  | atom _ => rfl
  | list _ _ => rfl
  | tuple _ => rfl
  | set _ => rfl

theorem graftEntries_id : (es : List (Key × Value)) → graftEntries id es = es
  | [] => rfl
  | (k, v) :: es => by rw [graftEntries, graft_id v, graftEntries_id es]

end

theorem entriesOfFlat_eq_writeAll (flat : Flat Unit) :
    entriesOfFlat flat = writeAll (flat.map fun leaf => (Path.split leaf.1, leaf.2)) [] := by
  rw [entriesOfFlat, writeAll, List.foldl_map]

/-- A tree whose paths lead back to its keys is nested already. -/
theorem unflattenEntries_of_rooted {es : List (Key × Value)} (h : Rooted es) :
    unflattenEntries es = es :=
  calc unflattenEntries es
      = entriesOfFlat (entryLeaves "" es) := by
        rw [unflattenEntries, flattenEntries_eq_entryLeaves h]
    _ = writeAll ((entryBranches es).map fun b => (b.1, id b.2)) [] := by
        rw [entriesOfFlat_eq_writeAll, entryLeaves_root h]
        simp
    _ = graftEntries id es := writeAll_entryBranches id es h.named fun _ _ => rfl
    _ = es := graftEntries_id es

/-- Such a tree is made up again of its own leaves. -/
theorem unflattenEntries_flattenEntries {es : List (Key × Value)} (h : Rooted es) :
    unflattenEntries (flattenEntries "" es).toEntries = es := by
  have hapart := pairwise_apart_entryLeaves h
  have honce : ((flattenEntries "" es).map (·.1)).Nodup := by
    rw [flattenEntries_eq_entryLeaves h, List.Nodup, List.pairwise_map]
    refine hapart.imp fun {a b} hab heq => hab.1 ?_
    rw [heq]
  rw [unflattenEntries,
    flattenEntries_toEntries honce fun leaf hmem => isLeaf_of_mem_flattenEntries hmem]
  exact unflattenEntries_of_rooted h

/-- Leaves that can be nested are the leaves of the tree that they make up. -/
theorem flattenEntries_unflattenEntries {flat : Flat Unit} (h : flat.Nestable) :
    (flattenEntries "" (unflattenEntries flat.toEntries)).Perm flat := by
  have hbranches : (entryBranches (entriesOfFlat flat)).Perm
      (flat.map fun leaf => (Path.split leaf.1, leaf.2)) := by
    rw [entriesOfFlat_eq_writeAll]
    have hall : ∀ leaf ∈ flat.map fun leaf => (Path.split leaf.1, leaf.2),
        leaf.2.IsLeaf ∧ leaf.1 ≠ [] := by
      intro leaf hmem
      obtain ⟨plain, hplain, rfl⟩ := List.mem_map.1 hmem
      exact ⟨h.leaf plain hplain, Path.split_ne_nil plain.1⟩
    have hwritten := entryBranches_writeAll (fun leaf hmem => (hall leaf hmem).1)
      (fun leaf hmem => (hall leaf hmem).2) (List.pairwise_map.2 h.pairwise_apart)
      (show ∀ b ∈ entryBranches [], _ from nofun)
    rwa [entryBranches, List.append_nil] at hwritten
  have hleaves : (entryLeaves "" (entriesOfFlat flat)).Perm flat := by
    rw [entryLeaves_eq_foldl]
    refine (hbranches.map _).trans ?_
    rw [List.map_map]
    refine .of_eq ((List.map_congr_left fun leaf hmem => ?_).trans (List.map_id flat))
    exact Prod.ext (h.path_eq hmem) rfl
  have honce : (entryLeaves "" (entriesOfFlat flat)).Pairwise fun a b => a.1 ≠ b.1 :=
    List.pairwise_map.1 ((hleaves.map Prod.fst).nodup_iff.2 h.once)
  rw [unflattenEntries, flattenEntries_toEntries h.once h.leaf, flattenEntries,
    Flat.ofList_of_pairwise honce]
  exact hleaves

/-- Taking a tree apart and putting leaves together undo each other: the one for trees whose paths
lead back to their keys, the other, but for the order of leaves, for leaves that can be
nested. -/
theorem flatten_unflatten :
    (∀ es : List (Key × Value), Rooted es → ∃ flat, (map () es).flatten "" = .ok flat ∧
      (map () flat.toEntries).unflatten = .ok (map () es)) ∧
    ∀ flat : Flat Unit, flat.Nestable → ∃ t flat', (map () flat.toEntries).unflatten = .ok t ∧
      t.flatten "" = .ok flat' ∧ flat'.Perm flat := by
  constructor
  · intro es h
    have hleaves : areLegible (flattenEntries "" es).toEntries = true :=
      areLegible_toEntries fun _ hmem => isLegible_of_mem_flattenEntries hmem
    refine ⟨_, flatten_of_areLegible () (areLegible_of_named es h.named) "", ?_⟩
    rw [unflatten_of_areLegible () hleaves, unflattenEntries_flattenEntries h]
  · intro flat h
    have hleaves : areLegible flat.toEntries = true :=
      areLegible_toEntries fun leaf hmem => isLegible_of_ne_map (h.leaf leaf hmem)
    exact ⟨_, _, unflatten_of_areLegible () hleaves,
      flatten_of_areLegible () (areLegible_unflattenEntries _) "",
      flattenEntries_unflattenEntries h⟩

/-- A tree with empty keys and an empty mapping. -/
def blanks : List (Key × Value) :=
  [(.str "", .map () []), (.str "a", .map () [(.str "b", .atom (.int 1)), (.str "", .str "x")]),
    (.str "c", .list () [])]

/-- Leaves in whose paths segments are empty. -/
def blankLeaves : Flat Unit :=
  [("a.b", .atom (.int 1)), ("", .str "x"), ("c", .map () []), ("a.", .list () [])]

theorem flatten_unflatten_blanks :
    (∃ flat, (map () blanks).flatten "" = .ok flat ∧
      (map () flat.toEntries).unflatten = .ok (map () blanks)) ∧
    ∃ t flat', (map () blankLeaves.toEntries).unflatten = .ok t ∧
      t.flatten "" = .ok flat' ∧ flat'.Perm blankLeaves := by
  refine ⟨flatten_unflatten.1 blanks ⟨?_, ?_⟩, flatten_unflatten.2 blankLeaves ⟨?_, ?_, ?_, ?_, ?_⟩⟩
  · simp [blanks, NamedEntries, Named, Path.IsPart]
    decide
  · intro t e sub
    have hfirst : Entries.find? (.str "") blanks = some (map () []) := if_pos rfl
    simp [hfirst]
  · decide +kernel
  · decide +kernel
  · decide +kernel
  · decide +kernel
  · simp [blankLeaves, IsLeaf]

end Tree

end LayeredConfig
