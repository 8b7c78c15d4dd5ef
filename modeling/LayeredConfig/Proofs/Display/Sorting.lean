import LayeredConfig.Proofs.Display.Selection
import LayeredConfig.Proofs.Path.Arranged
import Mathlib.Data.List.Pairwise
import Mathlib.Data.List.Permutation
import Mathlib.Data.String.Basic

/-!
# What is shown in order

The leaves of both trees are put in the order of their paths, and a nested view is made
up of them again.  Shown flat, the paths are in order; shown nested, the keys of a mapping
are in the order of the paths below them.  That is the order of the keys themselves unless
a key goes on from another one, which holds entries, with a character below the point: a
hyphen, for instance.

* `View.pairwise_sortLeaves` — leaves in order.
* `View.Shown` — leaves of trees whose keys are segments, and of what is shown of them.
* `View.tree_sorted` — the view in order and the one that is not.
-/

namespace LayeredConfig

theorem Atom.lessList_map_toNat (cs ds : List Char) :
    Atom.lessList (cs.map Char.toNat) (ds.map Char.toNat) = decide (cs < ds) := by
  induction cs generalizing ds with
  | nil => cases ds <;> simp [lessList]
  | cons c cs ih =>
    cases ds with
    | nil => simp [lessList]
    | cons d ds =>
      have hlt : c.toNat < d.toNat ↔ c < d := Iff.rfl
      have heq : c.toNat = d.toNat ↔ c = d := Char.toNat_inj
      simp [lessList, ih, List.cons_lt_cons_iff, hlt, heq]

namespace View

/-! ## Leaves in order -/

/-- Leaves of different paths come out in the order of these. -/
theorem pairwise_sortLeaves {leaves : Flat Unit} (honce : (leaves.map (·.1)).Nodup) :
    (sortLeaves leaves).Pairwise fun a b => a.1 < b.1 := by
  have hle : ∀ a b : String × Value,
      (!Atom.lessList (b.1.toList.map Char.toNat) (a.1.toList.map Char.toNat)) = true ↔
        a.1 ≤ b.1 := by
    intro a b
    rw [Atom.lessList_map_toNat, ← not_lt, String.lt_iff]
    simp
  have hsorted : (sortLeaves leaves).Pairwise fun a b => a.1 ≤ b.1 := by
    refine (List.pairwise_mergeSort (fun a b c => ?_) (fun a b => ?_) leaves).imp fun {a b} h =>
      (hle a b).1 h
    · rw [hle, hle, hle]
      exact le_trans
    · rw [Bool.or_eq_true, hle, hle]
      exact le_total _ _
  have hnodup : ((sortLeaves leaves).map (·.1)).Nodup :=
    ((List.mergeSort_perm leaves _).map _).nodup_iff.2 honce
  exact hsorted.imp₂ (fun _ _ h hne => lt_of_le_of_ne h hne) (List.pairwise_map.1 hnodup)

/-! ## Leaves that are shown -/

/-- Leaves whose paths have segments for their keys and lead to different places. -/
structure Shown (leaves : Flat Unit) : Prop where
  path : ∀ leaf ∈ leaves, leaf.1.toList = Path.joined (Path.split leaf.1)
  segments : ∀ leaf ∈ leaves, ∀ s ∈ Path.split leaf.1, Path.IsSegment s
  apart : leaves.Pairwise fun a b => Path.Apart (Path.split a.1) (Path.split b.1)
  leaf : ∀ leaf ∈ leaves, leaf.2.IsLeaf

namespace Shown

variable {leaves : Flat Unit}

theorem perm (h : Shown leaves) {leaves' : Flat Unit} (hperm : leaves'.Perm leaves) :
    Shown leaves' where
  path leaf hmem := h.path leaf (hperm.mem_iff.1 hmem)
  segments leaf hmem := h.segments leaf (hperm.mem_iff.1 hmem)
  apart := (hperm.pairwise_iff fun {_ _} => Path.Apart.symm).2 h.apart
  leaf leaf hmem := h.leaf leaf (hperm.mem_iff.1 hmem)

theorem filter (h : Shown leaves) (shows : String × Value → Bool) :
    Shown (leaves.filter shows) where
  path leaf hmem := h.path leaf (List.mem_of_mem_filter hmem)
  segments leaf hmem := h.segments leaf (List.mem_of_mem_filter hmem)
  apart := h.apart.filter shows
  leaf leaf hmem := h.leaf leaf (List.mem_of_mem_filter hmem)

/-- Different paths lead to the leaves. -/
theorem nodup (h : Shown leaves) : (leaves.map (·.1)).Nodup :=
  List.pairwise_map.2 (h.apart.imp fun {a b} hapart heq => hapart.1 (by rw [heq]))

/-- Such leaves can be nested. -/
theorem nestable (h : Shown leaves) : leaves.Nestable where
  once := h.nodup
  colon leaf hmem := by
    rw [h.path leaf hmem]
    have hsegments := h.segments leaf hmem
    generalize Path.split leaf.1 = segments at hsegments
    cases segments with
    | nil => exact List.not_mem_nil
    | cons s ss =>
      have hcolon : ∀ t ∈ s :: ss, ':' ∉ t.toList := fun t ht hmem =>
        absurd ((hsegments t ht).2 ':' hmem) (by decide)
      simp only [Path.joined, Path.pointed, List.mem_append, List.mem_flatMap, List.mem_cons]
      rintro (hs | ⟨t, ht, hpoint | ht'⟩)
      · exact hcolon s List.mem_cons_self hs
      · exact absurd hpoint (by decide)
      · exact hcolon t (List.mem_cons_of_mem _ ht) ht'
  start leaf hmem := by
    rw [h.path leaf hmem]
    obtain ⟨s, ss, hsplit⟩ := List.exists_cons_of_ne_nil (Path.split_ne_nil leaf.1)
    obtain ⟨hne, hpart⟩ := h.segments leaf hmem s (hsplit ▸ List.mem_cons_self)
    rw [hsplit, Path.joined]
    cases hs : s.toList with
    | nil => exact absurd (String.toList_inj.1 hs) hne
    | cons c cs =>
      rintro ⟨⟩
      exact absurd (hpart '.' (hs ▸ List.mem_cons_self)) (by decide)
  front a ha b hb hfront := by
    by_cases hab : a = b
    · rw [hab]
    · have : Std.Symm fun a b : String × Value => Path.Apart (Path.split a.1) (Path.split b.1) :=
        ⟨fun _ _ => Path.Apart.symm⟩
      exact absurd hfront (h.apart.forall ha hb hab).1
  leaf := h.leaf

end Shown

/-- The leaves of a tree whose keys are segments can be shown. -/
theorem shown_flattenEntries {es : List (Key × Value)} (hes : Tree.NamedEntries Path.IsSegment es) :
    Shown (Tree.flattenEntries "" es) := by
  have hrooted := Tree.rooted_of_isSegment hes
  rw [Tree.flattenEntries_eq_entryLeaves hrooted]
  have hjoin := Tree.entryLeaves_eq_foldl "" es
  have hways : ∀ b ∈ Tree.entryBranches es, (Path.split (b.1.foldl Path.extend ""), b.2) = b := by
    have hroot := Tree.entryLeaves_root hrooted
    rw [hjoin, List.map_map] at hroot
    exact List.map_inj_left.1 (hroot.trans (List.map_id _).symm)
  have hleaves : ∀ leaf ∈ Tree.entryLeaves "" es, ∃ b ∈ Tree.entryBranches es,
      leaf.1 = b.1.foldl Path.extend "" ∧ Path.split leaf.1 = b.1 := by
    intro leaf hmem
    rw [hjoin] at hmem
    obtain ⟨b, hb, rfl⟩ := List.mem_map.1 hmem
    exact ⟨b, hb, rfl, congrArg Prod.fst (hways b hb)⟩
  refine ⟨fun leaf hmem => ?_, fun leaf hmem => ?_, Tree.pairwise_apart_entryLeaves hrooted,
    fun leaf hmem t e sub => Tree.ne_map_of_mem_entryLeaves "" es hmem⟩
  · obtain ⟨b, hb, hpath, hsplit⟩ := hleaves leaf hmem
    obtain ⟨k, hk, rest, hb'⟩ := Tree.exists_key_of_mem_entryBranches hb
    obtain ⟨s, hs, hne, -⟩ := Tree.exists_of_mem_keys hes hk
    rw [hsplit, hpath, hb', hs, List.foldl_cons]
    exact Path.toList_foldl_extend hne rest
  · obtain ⟨b, hb, -, hsplit⟩ := hleaves leaf hmem
    rw [hsplit]
    exact Tree.kind_of_mem_entryBranches es hes b hb

/-- The leaf is among those that the options ask for. -/
def shows (o : ViewOptions) (leaf : String × Value) : Bool :=
  !o.debug || keeps leaf.2

theorem eq_filter_of_select {o : ViewOptions} {es : List (Key × Value)} {leaves : Flat Unit}
    (h : select o (.map () es) = .ok leaves) : leaves = (ordered o es).filter (shows o) := by
  have hshown := select_of_forall_not_obstacle (exists_select_iff.1 ⟨leaves, h⟩)
  rw [h] at hshown
  rw [Except.ok.inj hshown]
  cases hdebug : o.debug with
  | false =>
    have hall : shows o = fun _ => true := by
      funext leaf
      simp [shows, hdebug]
    rw [hall, List.filter_true]
    rfl
  | true =>
    have hkeeps : shows o = fun leaf => keeps leaf.2 := by
      funext leaf
      simp [shows, hdebug]
    rw [hkeeps, if_pos rfl]

/-! ## Both trees side by side -/

/-- Leaves below a name; where there are none, an empty mapping stands. -/
def side (name : String) : Flat Unit → Flat Unit
  | [] => [(name, .map () [])]
  | leaf :: leaves => (leaf :: leaves).map fun leaf => (name ++ "." ++ leaf.1, leaf.2)

theorem leavesAt_toEntries {name : String} (hname : name ≠ "") {leaves : Flat Unit}
    (hleaf : ∀ leaf ∈ leaves, leaf.2.IsLeaf) :
    Tree.leavesAt name (.map () leaves.toEntries) = side name leaves := by
  have hentries : ∀ leaves : Flat Unit, (∀ leaf ∈ leaves, leaf.2.IsLeaf) →
      Tree.entryLeaves name leaves.toEntries =
        leaves.map fun leaf => (name ++ "." ++ leaf.1, leaf.2) := by
    intro leaves hleaf
    induction leaves with
    | nil => rfl
    | cons leaf leaves ih =>
      obtain ⟨hfirst, hrest⟩ := List.forall_mem_cons.1 hleaf
      have hpath : Path.extend name (Key.str leaf.1).text = name ++ "." ++ leaf.1 := if_neg hname
      rw [Flat.toEntries, List.map_cons, Tree.entryLeaves, hpath, Tree.leavesAt_of_isLeaf hfirst,
        ← Flat.toEntries, ih hrest]
      rfl
  cases leaves with
  | nil => rfl
  | cons leaf leaves => exact hentries (leaf :: leaves) hleaf

theorem mem_side {name : String} {leaves : Flat Unit} {leaf : String × Value}
    (h : leaf ∈ side name leaves) :
    (leaves = [] ∧ leaf = (name, .map () [])) ∨
      ∃ below ∈ leaves, leaf = (name ++ "." ++ below.1, below.2) := by
  cases leaves with
  | nil => exact Or.inl ⟨rfl, List.mem_singleton.1 h⟩
  | cons first leaves =>
    obtain ⟨below, hbelow, rfl⟩ := List.mem_map.1 h
    exact Or.inr ⟨below, hbelow, rfl⟩

theorem split_side {name : String} (hname : Path.IsPart name) (path : String) :
    Path.split (name ++ "." ++ path) = name :: Path.split path := by
  have hlist : (name ++ "." ++ path).toList = name.toList ++ '.' :: path.toList := by simp
  rw [Path.split, hlist, Path.splitChars_append_separator (by decide), List.map_append,
    ← Path.split, ← Path.split, Path.split_of_isPart hname]
  rfl

theorem shown_side {name : String} (hname : Path.IsSegment name) {leaves : Flat Unit}
    (h : Shown leaves) : Shown (side name leaves) where
  path leaf hmem := by
    rcases mem_side hmem with ⟨-, rfl⟩ | ⟨below, hbelow, rfl⟩
    · rw [Path.split_of_isPart hname.2]
      exact (List.append_nil _).symm
    · obtain ⟨s, ss, hsplit⟩ := List.exists_cons_of_ne_nil (Path.split_ne_nil below.1)
      rw [split_side hname.2, hsplit, Path.joined_cons_cons, ← hsplit, ← h.path below hbelow]
      simp
  segments leaf hmem := by
    rcases mem_side hmem with ⟨-, rfl⟩ | ⟨below, hbelow, rfl⟩
    · rw [Path.split_of_isPart hname.2]
      exact List.forall_mem_singleton.2 hname
    · rw [split_side hname.2]
      exact List.forall_mem_cons.2 ⟨hname, h.segments below hbelow⟩
  apart := by
    cases leaves with
    | nil => exact List.pairwise_singleton _ _
    | cons leaf leaves =>
      refine List.pairwise_map.2 (h.apart.imp fun {a b} hapart => ?_)
      rw [split_side hname.2, split_side hname.2]
      exact Path.apart_cons_iff.2 hapart
  leaf leaf hmem := by
    rcases mem_side hmem with ⟨-, rfl⟩ | ⟨below, hbelow, rfl⟩
    · exact nofun
    · exact h.leaf below hbelow

theorem exists_split_of_mem_side {name : String} (hname : Path.IsSegment name) {leaves : Flat Unit}
    {leaf : String × Value} (h : leaf ∈ side name leaves) :
    ∃ rest, Path.split leaf.1 = name :: rest := by
  rcases mem_side h with ⟨-, rfl⟩ | ⟨below, -, rfl⟩
  · exact ⟨[], Path.split_of_isPart hname.2⟩
  · exact ⟨_, split_side hname.2 below.1⟩

theorem pairwise_side (name : String) {leaves : Flat Unit}
    (h : leaves.Pairwise fun a b => a.1 < b.1) :
    (side name leaves).Pairwise fun a b => a.1 < b.1 := by
  cases leaves with
  | nil => exact List.pairwise_singleton _ _
  | cons leaf leaves =>
    refine List.pairwise_map.2 (h.imp fun {a b} hlt => ?_)
    rw [String.lt_iff, String.toList_append (s := name ++ "."),
      String.toList_append (s := name ++ ".")]
    exact List.append_left_lt (String.lt_iff.1 hlt)

/-- The leaves of both trees, each under the name of its tree. -/
def sides (config data : Flat Unit) : Flat Unit :=
  side "config" config ++ side "data" data

theorem isSegment_config : Path.IsSegment "config" := by
  decide

theorem isSegment_data : Path.IsSegment "data" := by
  decide

section Sides

variable {config data : Flat Unit} (hconfig : Shown config) (hdata : Shown data)

include hconfig hdata

theorem shown_sides : Shown (sides config data) := by
  have hleft := shown_side isSegment_config hconfig
  have hright := shown_side isSegment_data hdata
  refine ⟨List.forall_mem_append.2 ⟨hleft.path, hright.path⟩,
    List.forall_mem_append.2 ⟨hleft.segments, hright.segments⟩,
    List.pairwise_append.2 ⟨hleft.apart, hright.apart, fun a ha b hb => ?_⟩,
    List.forall_mem_append.2 ⟨hleft.leaf, hright.leaf⟩⟩
  obtain ⟨p, hp⟩ := exists_split_of_mem_side isSegment_config ha
  obtain ⟨q, hq⟩ := exists_split_of_mem_side isSegment_data hb
  rw [hp, hq]
  exact Path.apart_cons_of_ne (by decide) p q

/-- Where the leaves of both trees are in order, those of the definition come first. -/
theorem pairwise_sides (hleft : config.Pairwise fun a b => a.1 < b.1)
    (hright : data.Pairwise fun a b => a.1 < b.1) :
    (sides config data).Pairwise fun a b => a.1 < b.1 := by
  refine List.pairwise_append.2 ⟨pairwise_side _ hleft, pairwise_side _ hright, fun a ha b hb => ?_⟩
  obtain ⟨p, hp⟩ := exists_split_of_mem_side isSegment_config ha
  obtain ⟨q, hq⟩ := exists_split_of_mem_side isSegment_data hb
  rw [String.lt_iff, (shown_side isSegment_config hconfig).path a ha,
    (shown_side isSegment_data hdata).path b hb, hp, hq]
  exact List.cons_lt_cons_iff.2 (Or.inl (by decide))

theorem flattenEntries_sides :
    Tree.flattenEntries "" [(.str "config", .map () config.toEntries),
      (.str "data", .map () data.toEntries)] = sides config data := by
  have hleaves : Tree.entryLeaves "" [(.str "config", .map () config.toEntries),
      (.str "data", .map () data.toEntries)] = sides config data := by
    change Tree.leavesAt "config" _ ++ (Tree.leavesAt "data" _ ++ []) = _
    rw [leavesAt_toEntries isSegment_config.1 hconfig.leaf,
      leavesAt_toEntries isSegment_data.1 hdata.leaf, List.append_nil]
    rfl
  rw [Tree.flattenEntries, hleaves]
  exact Flat.ofList_of_pairwise (List.pairwise_map.1 (shown_sides hconfig hdata).nodup)

end Sides

/-! ## The view -/

variable {es fs : List (Key × Value)}

/-- A view is made of the leaves that are shown of both trees. -/
theorem tree_eq {o : ViewOptions} {config data : Flat Unit}
    (hselect : select o (.map () es) = .ok config) (hselect' : select o (.map () fs) = .ok data)
    (hconfig : Shown config) (hdata : Shown data) :
    tree o (.map () es) (.map () fs) = .ok (.map () (if o.flat then (sides config data).toEntries
      else Tree.entriesOfFlat (sides config data))) := by
  have hsides := flattenEntries_sides hconfig hdata
  simp only [tree, hselect, hselect', bind, Except.bind, pure, Except.pure, Tree.unflattenEntries,
    hsides]
  split <;> rfl

theorem exists_select_of_tree {o : ViewOptions} {t u v : Value} (h : tree o t u = .ok v) :
    ∃ config data, select o t = .ok config ∧ select o u = .ok data := by
  unfold tree at h
  cases hconfig : select o t with
  | error e =>
    rw [hconfig] at h
    cases h
  | ok config =>
    cases hdata : select o u with
    | error e =>
      rw [hconfig, hdata] at h
      cases h
    | ok data => exact ⟨config, data, rfl, rfl⟩

/-- The leaves of a view are the leaves that are shown. -/
theorem exists_flatten_sides {config data : Flat Unit} (hconfig : Shown config) (hdata : Shown data)
    (flat : Bool) : ∃ leaves : Flat Unit,
      (Tree.map () (if flat then (sides config data).toEntries
        else Tree.entriesOfFlat (sides config data)) : Value).flatten "" = .ok leaves ∧
      leaves.Perm (sides config data) := by
  have hshown := shown_sides hconfig hdata
  have hself : Tree.flattenEntries "" (sides config data).toEntries = sides config data :=
    Tree.flattenEntries_toEntries hshown.nodup hshown.leaf
  have hlegible : ∀ leaf ∈ sides config data, leaf.2.isLegible = true :=
    fun leaf hmem => Tree.isLegible_of_ne_map (hshown.leaf leaf hmem)
  cases flat with
  | true =>
    exact ⟨_, Tree.flatten_of_areLegible () (Tree.areLegible_toEntries hlegible) "", .of_eq hself⟩
  | false =>
    have hnested : Tree.entriesOfFlat (sides config data) =
        Tree.unflattenEntries (sides config data).toEntries := by
      rw [Tree.unflattenEntries, hself]
    refine ⟨_, Tree.flatten_of_areLegible () (Tree.areLegible_entriesOfFlat hlegible) "", ?_⟩
    rw [hnested]
    exact Tree.flattenEntries_unflattenEntries hshown.nestable

/-- Leaves in order are nested to entries in the order of the paths below them. -/
theorem inPathOrder_entriesOfFlat {leaves : Flat Unit} (h : Shown leaves)
    (horder : leaves.Pairwise fun a b => a.1 < b.1) :
    Tree.NamedEntries Path.IsPart (Tree.entriesOfFlat leaves) ∧
      Tree.InPathOrder (Tree.entriesOfFlat leaves) := by
  rw [Tree.entriesOfFlat_eq_writeAll]
  refine Tree.inPathOrder_writeAll (List.forall_mem_map.2 h.leaf) (List.forall_mem_map.2 ?_)
    (List.pairwise_map.2 ?_) trivial trivial nofun
  · exact fun leaf hmem =>
      ⟨Path.split_ne_nil leaf.1, fun s hs => (h.segments leaf hmem s hs).2⟩
  · refine (h.apart.and horder).imp_of_mem fun {a b} ha hb hab => ⟨hab.1, ?_⟩
    rw [← h.path a ha, ← h.path b hb]
    exact String.lt_iff.1 hab.2

theorem perm_side (name : String) {leaves leaves' : Flat Unit} (h : leaves.Perm leaves') :
    (side name leaves).Perm (side name leaves') := by
  cases leaves with
  | nil => rw [h.nil_eq]
  | cons leaf leaves =>
    cases leaves' with
    | nil => exact absurd h.length_eq (by simp)
    | cons leaf' leaves' =>
      rw [side, side]
      exact h.map _

/-- Put in order or not, the same leaves are shown. -/
theorem exists_select_perm {flat debug sorted : Bool} (sorted' : Bool) {leaves : Flat Unit}
    (h : select ⟨flat, sorted, debug⟩ (.map () es) = .ok leaves) :
    ∃ leaves', select ⟨flat, sorted', debug⟩ (.map () es) = .ok leaves' ∧ leaves'.Perm leaves := by
  have hexists := exists_select_iff.1 ⟨leaves, h⟩
  obtain ⟨leaves', hleaves'⟩ := (exists_select_iff (o := ⟨flat, sorted', debug⟩)).2 hexists
  refine ⟨leaves', hleaves', ?_⟩
  rw [eq_filter_of_select h, eq_filter_of_select hleaves']
  exact ((perm_ordered _ es).trans (perm_ordered _ es).symm).filter _

section Segments

variable (hes : Tree.NamedEntries Path.IsSegment es)

include hes

theorem shown_of_select {o : ViewOptions} {leaves : Flat Unit}
    (h : select o (.map () es) = .ok leaves) : Shown leaves := by
  rw [eq_filter_of_select h]
  exact ((shown_flattenEntries hes).perm (perm_ordered o es)).filter _

theorem pairwise_of_select {flat debug : Bool} {leaves : Flat Unit}
    (h : select ⟨flat, true, debug⟩ (.map () es) = .ok leaves) :
    leaves.Pairwise fun a b => a.1 < b.1 := by
  rw [eq_filter_of_select h]
  exact (pairwise_sortLeaves (shown_flattenEntries hes).nodup).filter _

variable (hfs : Tree.NamedEntries Path.IsSegment fs)

include hfs

/-- Where there is a view, there is one with the leaves in order or out of it, and the leaves are the
same. -/
theorem exists_tree_perm {flat debug sorted : Bool} (sorted' : Bool) {v : Value}
    (h : tree ⟨flat, sorted, debug⟩ (.map () es) (.map () fs) = .ok v) :
    ∃ w leaves leaves', tree ⟨flat, sorted', debug⟩ (.map () es) (.map () fs) = .ok w ∧
      v.flatten "" = .ok leaves ∧ w.flatten "" = .ok leaves' ∧ leaves.Perm leaves' := by
  obtain ⟨config, data, hconfig, hdata⟩ := exists_select_of_tree h
  obtain ⟨config', hconfig', hperm⟩ := exists_select_perm sorted' hconfig
  obtain ⟨data', hdata', hperm'⟩ := exists_select_perm sorted' hdata
  have hshown := shown_of_select hes hconfig
  have hshown' := shown_of_select hfs hdata
  rw [tree_eq hconfig hdata hshown hshown'] at h
  obtain ⟨leaves, hleaves, hsides⟩ := exists_flatten_sides hshown hshown' flat
  obtain ⟨leaves', hleaves', hsides'⟩ :=
    exists_flatten_sides (shown_of_select hes hconfig') (shown_of_select hfs hdata') flat
  refine ⟨_, leaves, leaves', tree_eq hconfig' hdata' (shown_of_select hes hconfig')
    (shown_of_select hfs hdata'), Except.ok.inj h ▸ hleaves, hleaves', ?_⟩
  have hboth : (sides config' data').Perm (sides config data) :=
    (perm_side _ hperm).append (perm_side _ hperm')
  exact hsides.trans (hboth.symm.trans hsides'.symm)

/-- Of trees whose keys are segments there is a view in order if and only if there is one that is not
put in order, and both have the same leaves at the same paths.  Shown flat, its paths are in order.
Shown nested, the keys of each mapping are in the order of the paths below them, so they are in
their own order if and only if no key goes on from a later one, which holds entries, with a
character below the point. -/
theorem tree_sorted (flat debug : Bool) :
    ((∃ v, tree ⟨flat, true, debug⟩ (.map () es) (.map () fs) = .ok v) ↔
      ∃ w, tree ⟨flat, false, debug⟩ (.map () es) (.map () fs) = .ok w) ∧
    ∀ v, tree ⟨flat, true, debug⟩ (.map () es) (.map () fs) = .ok v →
      (∃ w leaves leaves', tree ⟨flat, false, debug⟩ (.map () es) (.map () fs) = .ok w ∧
        v.flatten "" = .ok leaves ∧ w.flatten "" = .ok leaves' ∧ leaves.Perm leaves') ∧
      (flat = true → ∃ leaves : Flat Unit, v = .map () leaves.toEntries ∧
        leaves.Pairwise fun a b => a.1 < b.1) ∧
      (flat = false → ∃ entries, v = .map () entries ∧ Tree.NamedEntries Path.IsPart entries ∧
        Tree.InPathOrder entries ∧
        (Tree.ArrangedEntries (fun e f => e.1.text < f.1.text) entries ↔
          Tree.ArrangedEntries (fun e f => ¬ Tree.Overtakes e f) entries)) := by
  refine ⟨⟨?_, ?_⟩, fun v h => ⟨exists_tree_perm hes hfs false h, ?_⟩⟩
  · rintro ⟨v, h⟩
    obtain ⟨w, -, -, hw, -⟩ := exists_tree_perm hes hfs false h
    exact ⟨w, hw⟩
  · rintro ⟨w, h⟩
    obtain ⟨v, -, -, hv, -⟩ := exists_tree_perm hes hfs true h
    exact ⟨v, hv⟩
  · obtain ⟨config, data, hconfig, hdata⟩ := exists_select_of_tree h
    have hshown := shown_of_select hes hconfig
    have hshown' := shown_of_select hfs hdata
    have horder := pairwise_sides hshown hshown' (pairwise_of_select hes hconfig)
      (pairwise_of_select hfs hdata)
    rw [tree_eq hconfig hdata hshown hshown'] at h
    cases h
    refine ⟨?_, ?_⟩
    · rintro rfl
      exact ⟨_, rfl, horder⟩
    · rintro rfl
      obtain ⟨hnamed, hpaths⟩ := inPathOrder_entriesOfFlat (shown_sides hshown hshown') horder
      exact ⟨_, rfl, hnamed, hpaths, Tree.arrangedEntries_text_iff hnamed hpaths⟩

end Segments

/-- A key that holds an entry, and one that goes on from it with a hyphen. -/
def hyphened : List (Key × Value) :=
  [(.str "a", .map () [(.str "z", .atom (.int 1))]), (.str "a-b", .atom (.int 2))]

theorem namedEntries_hyphened : Tree.NamedEntries Path.IsSegment hyphened := by
  simp [hyphened, Tree.NamedEntries, Tree.Named, Path.IsSegment]
  decide

/-- Put in order and shown nested, the longer key comes first. -/
theorem not_rising_hyphened :
    Tree.NamedEntries Path.IsSegment hyphened ∧
    ∃ entries, tree ⟨false, true, false⟩ (.map () hyphened) (.map () []) = .ok (.map () entries) ∧
      ¬ Tree.ArrangedEntries (fun e f => e.1.text < f.1.text) entries := by
  refine ⟨namedEntries_hyphened, [(.str "config", .map () [(.str "a-b", .atom (.int 2)),
    (.str "a", .map () [(.str "z", .atom (.int 1))])]), (.str "data", .map () [])],
    by cbv, ?_⟩
  rintro ⟨-, ⟨hlt, -⟩, -⟩
  exact absurd (hlt _ (List.mem_singleton_self _)) (by decide)

/-- Both trees hold the hyphen, and the view in order has the leaves of the other one. -/
theorem tree_sorted_hyphened :
    Tree.NamedEntries Path.IsSegment hyphened ∧ ∃ entries w leaves leaves',
      tree ⟨false, true, false⟩ (.map () hyphened) (.map () hyphened) = .ok (.map () entries) ∧
      tree ⟨false, false, false⟩ (.map () hyphened) (.map () hyphened) = .ok w ∧
      (Tree.map () entries).flatten "" = .ok leaves ∧ w.flatten "" = .ok leaves' ∧
      leaves.Perm leaves' ∧ Tree.InPathOrder entries := by
  have hnamed := namedEntries_hyphened
  obtain ⟨hexists, hall⟩ := tree_sorted hnamed hnamed false false
  obtain ⟨v, hv⟩ := hexists.2 ⟨_, rfl⟩
  obtain ⟨⟨w, leaves, leaves', hw, hleaves, hleaves', hperm⟩, -, hnested⟩ := hall v hv
  obtain ⟨entries, rfl, -, horder, -⟩ := hnested rfl
  exact ⟨hnamed, entries, w, leaves, leaves', hv, hw, hleaves, hleaves', hperm, horder⟩

end View

end LayeredConfig
