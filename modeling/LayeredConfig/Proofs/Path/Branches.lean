import LayeredConfig.Proofs.Path.Leaves
import LayeredConfig.Proofs.Path.Names

/-!
# Trees taken apart and put together

In a tree whose keys hold no separators, the path of a leaf says which keys lead to it.
So the leaves of a tree are apart from each other, and written one after the other,
with other values perhaps, they make up the tree again with these values for its
leaves.

* `Tree.Rooted` — the trees of which this is true.
* `Tree.entryLeaves_root` — the paths of the leaves are the keys on the way.
* `Tree.pairwise_apart_entryBranches` — no leaf stands in the way of another one.
* `Tree.writeAll_entryBranches` — leaves that are written make up the tree.
-/

namespace LayeredConfig

/-! ## Segments -/

namespace Path

/-- The text is a segment that is not empty. -/
def IsSegment (s : String) : Prop :=
  s ≠ "" ∧ ∀ c ∈ s.toList, isSeparator c = false

instance : DecidablePred IsSegment := fun s =>
  decidable_of_iff (s ≠ "" ∧ (s.toList.all fun c => !isSeparator c) = true)
    (by simp [IsSegment, List.all_eq_true])

/-- No separator stands in the text, which may be empty. -/
def IsPart (s : String) : Prop :=
  ∀ c ∈ s.toList, isSeparator c = false

theorem isPart_of_mem_split {path s : String} (h : s ∈ split path) : IsPart s := by
  obtain ⟨cs, hcs, rfl⟩ := List.mem_map.1 h
  intro c hc
  rw [String.toList_ofList] at hc
  exact isSeparator_of_mem_splitChars hcs hc

theorem splitChars_of_not_isSeparator {cs : List Char} (h : ∀ c ∈ cs, isSeparator c = false) :
    splitChars cs = [cs] := by
  induction cs with
  | nil => exact splitChars_nil
  | cons c cs ih =>
    obtain ⟨hc, hcs⟩ := List.forall_mem_cons.1 h
    rw [splitChars_cons, hc, ih hcs]
    rfl

theorem splitChars_append_separator {c : Char} (hc : isSeparator c = true) (cs ds : List Char) :
    splitChars (cs ++ c :: ds) = splitChars cs ++ splitChars ds := by
  induction cs with
  | nil => rw [List.nil_append, splitChars_cons, if_pos hc, splitChars_nil, List.singleton_append]
  | cons d cs ih =>
    obtain ⟨first, rest, h⟩ := List.exists_cons_of_ne_nil (splitChars_ne_nil cs)
    rw [List.cons_append, splitChars_cons, splitChars_cons, ih, h]
    split <;> rfl

theorem split_of_isPart {s : String} (hs : IsPart s) : split s = [s] := by
  rw [split, splitChars_of_not_isSeparator hs]
  simp

theorem extend_ne_empty {parent : String} (hp : parent ≠ "") (s : String) :
    extend parent s ≠ "" := by
  intro h
  have hlist := toList_extend hp s
  rw [h] at hlist
  simp at hlist

/-- A part comes after the segments of the path that it extends. -/
theorem split_extend {parent s : String} (hp : parent ≠ "") (hs : IsPart s) :
    split (extend parent s) = split parent ++ [s] := by
  rw [split, toList_extend hp, splitChars_append_separator (by decide), List.map_append, split,
    splitChars_of_not_isSeparator hs]
  simp

theorem apart_cons_iff {s : String} {p q : List String} :
    Apart (s :: p) (s :: q) ↔ Apart p q := by
  simp [Apart, List.cons_prefix_cons]

theorem apart_cons_of_ne {s s' : String} (h : s ≠ s') (p q : List String) :
    Apart (s :: p) (s' :: q) := by
  simp [Apart, List.cons_prefix_cons, h, h.symm]

/-- Neither of two ways that are apart is at its end. -/
theorem exists_cons_of_apart {p q : List String} (h : Apart p q) :
    ∃ s p' s' q', p = s :: p' ∧ q = s' :: q' := by
  cases p with
  | nil => exact absurd List.nil_prefix h.1
  | cons s p' =>
    cases q with
    | nil => exact absurd List.nil_prefix h.2
    | cons s' q' => exact ⟨s, p', s', q', rfl, rfl⟩

end Path

/-! ## Branches -/

namespace Tree

section Branches

variable {α : Type}

mutual

/-- The leaves of a value, each with the texts of the keys on the way to it. -/
def branches : Tree α → List (List String × Tree α)
  | map t [] => [([], map t [])]
  | map _ (e :: es) => entryBranches (e :: es)
  | leaf => [([], leaf)]

/-- The leaves of the entries of a mapping, each with the texts of the keys on the way to it. -/
def entryBranches : List (Key × Tree α) → List (List String × Tree α)
  | [] => []
  | (k, v) :: es => (branches v).map (fun b => (k.text :: b.1, b.2)) ++ entryBranches es

end

mutual

theorem leavesAt_eq_branches {path : String} (hne : path ≠ "") :
    (v : Tree α) → v.Named Path.IsPart →
      (leavesAt path v).map (fun leaf => (Path.split leaf.1, leaf.2)) =
        (branches v).map fun b => (Path.split path ++ b.1, b.2)
  | map _ [], _ => by simp [leavesAt, branches]
  | map _ (e :: es), h => entryLeaves_eq_branches hne (e :: es) h
  | atom _, _ => by simp [leavesAt, branches]
  | list _ _, _ => by simp [leavesAt, branches]
  | tuple _, _ => by simp [leavesAt, branches]
  | set _, _ => by simp [leavesAt, branches]

/-- The segments of a leaf's path are those of the mapping's path and the keys on the way. -/
theorem entryLeaves_eq_branches {parent : String} (hne : parent ≠ "") :
    (es : List (Key × Tree α)) → NamedEntries Path.IsPart es →
      (entryLeaves parent es).map (fun leaf => (Path.split leaf.1, leaf.2)) =
        (entryBranches es).map fun b => (Path.split parent ++ b.1, b.2)
  | [], _ => rfl
  | (k, v) :: es, h => by
    obtain ⟨⟨s, rfl, hs⟩, -, hv, hes⟩ := h
    have hfirst := leavesAt_eq_branches (Path.extend_ne_empty hne s) v hv
    rw [entryLeaves, entryBranches, List.map_append, List.map_append, List.map_map,
      entryLeaves_eq_branches hne es hes]
    congr 1
    refine hfirst.trans ?_
    rw [Path.split_extend hne hs]
    simp [Key.text, Atom.text]

end

/-- The entries of a whole tree whose paths lead back to its keys: no key holds a separator, and the
empty key, which no path below it begins with, holds no mapping with entries. -/
structure Rooted (es : List (Key × Tree α)) : Prop where
  named : NamedEntries Path.IsPart es
  root (t : α) (e : Key × Tree α) (sub : List (Key × Tree α)) :
    Entries.find? (.str "") es ≠ some (map t (e :: sub))

theorem Rooted.tail {k : Key} {v : Tree α} {es : List (Key × Tree α)}
    (h : Rooted ((k, v) :: es)) : Rooted es := by
  obtain ⟨⟨⟨s, rfl, -⟩, hnew, -, hes⟩, hroot⟩ := h
  refine ⟨hes, fun t e' sub hfind => ?_⟩
  by_cases hs : s = ""
  · -- the empty key is the first one, so it does not come again
    subst hs
    exact hnew (List.mem_map_of_mem (mem_of_find? hfind))
  · have hne : ¬ (Key.str "").same (.str s) = true := fun hsame =>
      hs (by simpa using Key.same_str_iff.1 hsame)
    refine hroot t e' sub ?_
    rw [Entries.find?, if_neg hne, hfind]

theorem rooted_of_isSegment {es : List (Key × Tree α)} (h : NamedEntries Path.IsSegment es) :
    Rooted es := by
  refine ⟨namedEntries_mono (fun s hs => hs.2) es h, fun t e sub hfind => ?_⟩
  obtain ⟨s, hs, hne, -⟩ := exists_of_mem_keys h (List.mem_map_of_mem (mem_of_find? hfind))
  exact hne (by simpa using hs.symm)

/-- The segments of the leaves' paths are the keys on the way to them. -/
theorem entryLeaves_root {es : List (Key × Tree α)} (h : Rooted es) :
    (entryLeaves "" es).map (fun leaf => (Path.split leaf.1, leaf.2)) = entryBranches es := by
  induction es with
  | nil => rfl
  | cons e es ih =>
    obtain ⟨k, v⟩ := e
    obtain ⟨⟨s, rfl, hs⟩, -, hv, -⟩ := h.named
    have hfirst : (leavesAt s v).map (fun leaf => (Path.split leaf.1, leaf.2)) =
        (branches v).map fun b => (s :: b.1, b.2) := by
      by_cases hempty : s = ""
      · subst hempty
        cases v with
        | map t sub =>
          cases sub with
          | nil => rfl
          | cons e sub =>
            have hroot := h.root t e sub
            rw [Entries.find?, if_pos (Key.same_str_iff.2 rfl)] at hroot
            exact absurd rfl hroot
        | _ => rfl
      · have hbranches := leavesAt_eq_branches hempty v hv
        rwa [Path.split_of_isPart hs] at hbranches
    have hextend : Path.extend "" (Key.str s).text = s := if_pos rfl
    rw [entryLeaves, entryBranches, List.map_append, ih h.tail, hextend, hfirst]
    rfl

variable {kind : String → Prop}

/-- The branches of entries begin with their keys. -/
theorem exists_key_of_mem_entryBranches {es : List (Key × Tree α)} {b : List String × Tree α}
    (h : b ∈ entryBranches es) : ∃ k ∈ es.map (·.1), ∃ rest, b.1 = k.text :: rest := by
  induction es with
  | nil => cases h
  | cons e es ih =>
    obtain ⟨k, v⟩ := e
    rw [entryBranches, List.mem_append] at h
    rcases h with h | h
    · obtain ⟨below, -, rfl⟩ := List.mem_map.1 h
      exact ⟨k, List.mem_cons_self, below.1, rfl⟩
    · obtain ⟨l, hl, hrest⟩ := ih h
      exact ⟨l, List.mem_cons_of_mem _ hl, hrest⟩

mutual

theorem kind_of_mem_branches : (v : Tree α) → v.Named kind → ∀ b ∈ branches v, ∀ s ∈ b.1, kind s
  | map _ [], _ => by simp [branches]
  | map _ (e :: es), h => kind_of_mem_entryBranches (e :: es) h
  | atom _, _ => by simp [branches]
  | list _ _, _ => by simp [branches]
  | tuple _, _ => by simp [branches]
  | set _, _ => by simp [branches]

/-- The keys on the way to a leaf of a named tree are of the tree's kind. -/
theorem kind_of_mem_entryBranches : (es : List (Key × Tree α)) → NamedEntries kind es →
    ∀ b ∈ entryBranches es, ∀ s ∈ b.1, kind s
  | [], _ => nofun
  | (k, v) :: es, ⟨⟨s, hk, hs⟩, _, hv, hes⟩ => by
    subst hk
    intro b hb s' hs'
    rcases List.mem_append.1 hb with hb | hb
    · obtain ⟨below, hbelow, rfl⟩ := List.mem_map.1 hb
      rcases List.mem_cons.1 hs' with rfl | hs'
      · exact hs
      · exact kind_of_mem_branches v hv below hbelow s' hs'
    · exact kind_of_mem_entryBranches es hes b hb s' hs'

end

mutual

theorem pairwise_apart_branches :
    (v : Tree α) → v.Named kind → (branches v).Pairwise fun a b => Path.Apart a.1 b.1
  | map _ [], _ => List.pairwise_singleton _ _
  | map _ (e :: es), h => pairwise_apart_entryBranches (e :: es) h
  | atom _, _ => List.pairwise_singleton _ _
  | list _ _, _ => List.pairwise_singleton _ _
  | tuple _, _ => List.pairwise_singleton _ _
  | set _, _ => List.pairwise_singleton _ _

/-- No leaf of a named tree stands on the way to another one. -/
theorem pairwise_apart_entryBranches :
    (es : List (Key × Tree α)) → NamedEntries kind es →
      (entryBranches es).Pairwise fun a b => Path.Apart a.1 b.1
  | [], _ => List.Pairwise.nil
  | (k, v) :: es, h => by
    obtain ⟨⟨s, rfl, -⟩, hnew, hv, hes⟩ := h
    rw [entryBranches, List.pairwise_append]
    refine ⟨?_, pairwise_apart_entryBranches es hes, ?_⟩
    · rw [List.pairwise_map]
      exact (pairwise_apart_branches v hv).imp Path.apart_cons_iff.2
    · intro a ha b hb
      obtain ⟨below, -, rfl⟩ := List.mem_map.1 ha
      obtain ⟨k, hk, rest, hrest⟩ := exists_key_of_mem_entryBranches hb
      obtain ⟨s', rfl, -⟩ := exists_of_mem_keys hes hk
      have hne : s ≠ s' := by
        rintro rfl
        exact hnew hk
      rw [hrest]
      exact Path.apart_cons_of_ne hne _ _

end

/-- The leaves of a tree whose paths lead back to its keys are apart. -/
theorem pairwise_apart_entryLeaves {es : List (Key × Tree α)} (h : Rooted es) :
    (entryLeaves "" es).Pairwise fun a b => Path.Apart (Path.split a.1) (Path.split b.1) := by
  have hbranches := pairwise_apart_entryBranches es h.named
  rw [← entryLeaves_root h, List.pairwise_map] at hbranches
  exact hbranches

/-- No two leaves of such a tree have the same path. -/
theorem flattenEntries_eq_entryLeaves {es : List (Key × Tree α)} (h : Rooted es) :
    flattenEntries "" es = entryLeaves "" es :=
  Flat.ofList_of_pairwise ((pairwise_apart_entryLeaves h).imp fun {a b} hapart heq =>
    hapart.1 (by rw [heq]))

end Branches

/-! ## Leaves written again -/

/-- The entries with values written one after the other. -/
def writeAll {α : Type} [Inhabited α] (leaves : List (List String × Tree α))
    (es : List (Key × Tree α)) : List (Key × Tree α) :=
  leaves.foldl (fun es leaf => writeEntries leaf.2 leaf.1 es) es

section Written

variable {α : Type} [Inhabited α] {s : String} {es : List (Key × Tree α)}

/-- A write below the last key changes that key's value alone. -/
theorem writeEntries_append_singleton (h : Entries.find? (.str s) es = none) (v : Tree α)
    (ss : List String) (held : Tree α) :
    writeEntries v (s :: ss) (es ++ [(.str s, held)]) =
      es ++ [(.str s, writeBelow v ss (some held))] := by
  have hself : (Key.str s).same (.str s) = true := Key.same_str_iff.2 rfl
  have hfind : Entries.find? (.str s) (es ++ [(.str s, held)]) = some held := by
    rw [← Entries.insert_of_find?_eq_none h, Entries.find?_insert_self hself]
  rw [writeEntries_cons, hfind, ← Entries.insert_of_find?_eq_none h,
    Entries.insert_insert_self hself, Entries.insert_of_find?_eq_none h]

/-- Values written below the last key, which is that of a mapping, are written into that
mapping. -/
theorem writeAll_append_singleton (h : Entries.find? (.str s) es = none)
    {leaves : List (List String × Tree α)} (hne : ∀ leaf ∈ leaves, leaf.1 ≠ []) (t : α)
    (sub : List (Key × Tree α)) :
    writeAll (leaves.map fun leaf => (s :: leaf.1, leaf.2)) (es ++ [(.str s, map t sub)]) =
      es ++ [(.str s, map t (writeAll leaves sub))] := by
  induction leaves generalizing sub with
  | nil => rfl
  | cons leaf leaves ih =>
    obtain ⟨hfirst, hrest⟩ := List.forall_mem_cons.1 hne
    obtain ⟨s', ss, hpath⟩ := List.exists_cons_of_ne_nil hfirst
    have hwrite := writeEntries_append_singleton h leaf.2 leaf.1 (map t sub)
    rw [hpath, writeBelow, ← hpath] at hwrite
    rw [List.map_cons, writeAll, List.foldl_cons, hwrite]
    exact ih hrest (writeEntries leaf.2 leaf.1 sub)

/-- Values written below a new key make up a mapping there. -/
theorem writeAll_of_find?_eq_none (h : Entries.find? (.str s) es = none)
    {leaves : List (List String × Tree α)} (hne : ∀ leaf ∈ leaves, leaf.1 ≠ [])
    (hsome : leaves ≠ []) :
    writeAll (leaves.map fun leaf => (s :: leaf.1, leaf.2)) es =
      es ++ [(.str s, map default (writeAll leaves []))] := by
  obtain ⟨leaf, leaves, rfl⟩ := List.exists_cons_of_ne_nil hsome
  obtain ⟨hfirst, hrest⟩ := List.forall_mem_cons.1 hne
  obtain ⟨s', ss, hpath⟩ := List.exists_cons_of_ne_nil hfirst
  have hwrite : writeEntries leaf.2 (s :: leaf.1) es =
      es ++ [(.str s, map default (writeEntries leaf.2 leaf.1 []))] := by
    rw [writeEntries_cons, h, hpath, writeBelow, Entries.insert_of_find?_eq_none h]
    simp
  rw [List.map_cons, writeAll, List.foldl_cons, hwrite]
  exact writeAll_append_singleton h hrest default _

end Written

/-! ## The tree with other leaves -/

mutual

/-- The tree with other values for its leaves. -/
def graft (f : Value → Value) : Value → Value
  | map t [] => f (map t [])
  | map t (e :: es) => map t (graftEntries f (e :: es))
  | leaf => f leaf

/-- The entries with other values for their leaves. -/
def graftEntries (f : Value → Value) : List (Key × Value) → List (Key × Value)
  | [] => []
  | (k, v) :: es => (k, graft f v) :: graftEntries f es

end

variable {kind : String → Prop} (f : Value → Value)

mutual

theorem branches_ne_nil {α : Type} : (v : Tree α) → branches v ≠ []
  | map _ [] => by simp [branches]
  | map _ (e :: es) => entryBranches_ne_nil e es
  | atom _ => by simp [branches]
  | list _ _ => by simp [branches]
  | tuple _ => by simp [branches]
  | set _ => by simp [branches]

theorem entryBranches_ne_nil {α : Type} : (e : Key × Tree α) → (es : List (Key × Tree α)) →
    entryBranches (e :: es) ≠ []
  | (k, v), es => by
    have hv := branches_ne_nil v
    simp [entryBranches, hv]

end

mutual

theorem writeAll_branches {s : String} :
    (v : Value) → v.Named kind → ∀ {es : List (Key × Value)}, Entries.find? (.str s) es = none →
      writeAll ((branches v).map fun b => (s :: b.1, f b.2)) es = es ++ [(.str s, graft f v)]
  | map t [], _, es, h => Entries.insert_of_find?_eq_none h _
  | map t (e :: gs), hv, es, h => by
    have hgs : writeAll ((entryBranches (e :: gs)).map fun b => (b.1, f b.2)) [] =
        graftEntries f (e :: gs) :=
      writeAll_entryBranches (e :: gs) hv fun _ _ => rfl
    have hne : ∀ leaf ∈ (entryBranches (e :: gs)).map fun b => (b.1, f b.2), leaf.1 ≠ [] := by
      intro leaf hleaf
      obtain ⟨b, hb, rfl⟩ := List.mem_map.1 hleaf
      obtain ⟨k, -, rest, hrest⟩ := exists_key_of_mem_entryBranches hb
      simp [hrest]
    have hwrite := writeAll_of_find?_eq_none h hne (by simpa using entryBranches_ne_nil e gs)
    rw [hgs, List.map_map] at hwrite
    exact hwrite
  | atom _, _, es, h => Entries.insert_of_find?_eq_none h _
  | list _ _, _, es, h => Entries.insert_of_find?_eq_none h _
  | tuple _, _, es, h => Entries.insert_of_find?_eq_none h _
  | set _, _, es, h => Entries.insert_of_find?_eq_none h _

/-- The leaves of entries, written with other values under keys that are not there yet, make up the
entries with these values. -/
theorem writeAll_entryBranches :
    (gs : List (Key × Value)) → NamedEntries kind gs → ∀ {es : List (Key × Value)},
      (∀ s, Key.str s ∈ gs.map (·.1) → Entries.find? (.str s) es = none) →
      writeAll ((entryBranches gs).map fun b => (b.1, f b.2)) es = es ++ graftEntries f gs
  | [], _, es, _ => (List.append_nil es).symm
  | (k, v) :: gs, h, es, hes => by
    obtain ⟨⟨s, rfl, -⟩, hnew, hv, hgs⟩ := h
    have hs : Entries.find? (.str s) es = none := hes s List.mem_cons_self
    have hfirst := writeAll_branches v hv hs
    have hrest : ∀ s', Key.str s' ∈ gs.map (·.1) →
        Entries.find? (.str s') (es ++ [(.str s, graft f v)]) = none := by
      intro s' hs'
      have hne : s' ≠ s := by
        rintro rfl
        exact hnew hs'
      rw [← Entries.insert_of_find?_eq_none hs, Entries.find?_insert_of_ne hne]
      exact hes s' (List.mem_cons_of_mem _ hs')
    have hall := writeAll_entryBranches gs hgs hrest
    rw [List.append_assoc] at hall
    rw [entryBranches, List.map_append, List.map_map, writeAll, List.foldl_append]
    change writeAll _ (writeAll ((branches v).map fun b => (s :: b.1, f b.2)) es) = _
    rw [hfirst]
    exact hall

end

end Tree

end LayeredConfig
