import LayeredConfig.Resolve.Shared
import Mathlib.Data.List.Infix

/-!
# Writes at paths that are apart

Two paths are apart if neither of them is a front of the other.  A write at one
of them changes nothing on the way to the other one, and nothing at its end.

* `Path.Apart` — neither path is a front of the other.
* `Tree.Way` — what stands on the way to a path, and what at its end.
* `Tree.way_writeEntries` — a write keeps the way to a path apart from its own.
* `Tree.way_writeEntries_self` — what has been written stands at the end of its way.
* `Tree.way_replaceShareEntries` — a change of marked containers keeps a way through
  mappings without marks.
-/

namespace LayeredConfig

/-- Only the text itself is the same key as a text. -/
theorem Key.same_str_iff {s : String} {k : Key} : (Key.str s).same k = true ↔ k = .str s := by
  cases k with
  | tuple items => simp [Key.same]
  | atom a => cases a <;> simp [Key.same, Atom.same, Atom.toInt?, eq_comm]

theorem Key.same_str_right_iff {s : String} {k : Key} : k.same (.str s) = true ↔ k = .str s := by
  cases k with
  | tuple items => simp [Key.same]
  | atom a => cases a <;> simp [Key.same, Atom.same, Atom.toInt?]

/-! ## Entries of other keys -/

namespace Entries

variable {β : Type}

theorem find?_insert_of_ne_str {s : String} {k : Key} (h : k ≠ .str s) (v : β)
    (es : List (Key × β)) : find? (.str s) (insert k v es) = find? (.str s) es := by
  have hs : ¬ (Key.str s).same k = true := fun hsame => h (Key.same_str_iff.1 hsame)
  induction es with
  | nil => simp [insert, find?, hs]
  | cons e es ih =>
    obtain ⟨l, w⟩ := e
    by_cases hl : k.same l = true
    · have hsl : ¬ (Key.str s).same l = true := fun hsame => by
        obtain rfl := Key.same_str_iff.1 hsame
        exact h (Key.same_str_right_iff.1 hl)
      simp [insert, find?, hl, hsl]
    · simp [insert, find?, hl, ih]

theorem find?_insert_of_ne {s s' : String} (h : s ≠ s') (v : β) (es : List (Key × β)) :
    find? (.str s) (insert (.str s') v es) = find? (.str s) es :=
  find?_insert_of_ne_str (by simpa using h.symm) v es

/-- A key that is not there yet comes at the end. -/
theorem insert_of_find?_eq_none {k : Key} {es : List (Key × β)} (h : find? k es = none) (v : β) :
    insert k v es = es ++ [(k, v)] := by
  induction es with
  | nil => rfl
  | cons e es ih =>
    obtain ⟨k', w⟩ := e
    by_cases hk : k.same k' = true
    · simp [find?, hk] at h
    · simp only [find?, hk] at h
      simp [insert, hk, ih h]

theorem insert_insert_self {k : Key} (hk : k.same k = true) (v w : β) (es : List (Key × β)) :
    insert k w (insert k v es) = insert k w es := by
  induction es with
  | nil => simp [insert, hk]
  | cons e es ih =>
    obtain ⟨k', u⟩ := e
    by_cases h : k.same k' = true
    · simp [insert, h]
    · simp [insert, h, ih]

end Entries

/-! ## Paths that are apart -/

namespace Path

/-- Neither path is a front of the other, nor are they the same. -/
def Apart (p q : List String) : Prop :=
  ¬ p <+: q ∧ ¬ q <+: p

instance (p q : List String) : Decidable (Apart p q) :=
  inferInstanceAs (Decidable (¬ p <+: q ∧ ¬ q <+: p))

theorem Apart.symm {p q : List String} (h : Apart p q) : Apart q p :=
  ⟨h.2, h.1⟩

end Path

namespace Tree

variable {α : Type} [Inhabited α]

/-! ## What a write leaves at a key -/

/-- The value of a key with a value written below it. -/
def writeBelow (v : Tree α) : List String → Option (Tree α) → Tree α
  | [], _ => v
  | s :: ss, some (map t sub) => map t (writeEntries v (s :: ss) sub)
  | s :: ss, _ => map default (writeEntries v (s :: ss) [])

theorem writeEntries_cons (v : Tree α) (s : String) (ss : List String)
    (es : List (Key × Tree α)) :
    writeEntries v (s :: ss) es =
      Entries.insert (.str s) (writeBelow v ss (Entries.find? (.str s) es)) es := by
  cases ss with
  | nil => rfl
  | cons s' ss =>
    rw [writeEntries]
    · cases Entries.find? (.str s) es with
      | none => rfl
      | some u => cases u <;> rfl
    · simp

/-- What stands at the first key of a path after a write at the path. -/
theorem find?_writeEntries_self (v : Tree α) (s : String) (ss : List String)
    (es : List (Key × Tree α)) :
    Entries.find? (.str s) (writeEntries v (s :: ss) es) =
      some (writeBelow v ss (Entries.find? (.str s) es)) := by
  rw [writeEntries_cons, Entries.find?_insert_self (Key.same_str_iff.2 rfl)]

/-- A write does not show at other keys than the first one of its path. -/
theorem find?_writeEntries_of_ne {s s' : String} (h : s ≠ s') (v : Tree α) (ss : List String)
    (es : List (Key × Tree α)) :
    Entries.find? (.str s) (writeEntries v (s' :: ss) es) = Entries.find? (.str s) es := by
  rw [writeEntries_cons, Entries.find?_insert_of_ne h]

/-! ## Other tags -/

section MapTag

variable {β : Type} (f : α → β)

omit [Inhabited α] in
theorem find?_mapTagEntries (k : Key) (es : List (Key × Tree α)) :
    Entries.find? k (mapTagEntries f es) = (Entries.find? k es).map (mapTag f) := by
  induction es with
  | nil => rfl
  | cons e es ih =>
    obtain ⟨k', v⟩ := e
    simp only [mapTagEntries, Entries.find?]
    split
    · rfl
    · exact ih

omit [Inhabited α] in
theorem mapTagEntries_insert (k : Key) (v : Tree α) (es : List (Key × Tree α)) :
    mapTagEntries f (Entries.insert k v es) =
      Entries.insert k (v.mapTag f) (mapTagEntries f es) := by
  induction es with
  | nil => rfl
  | cons e es ih =>
    obtain ⟨k', w⟩ := e
    simp only [mapTagEntries, Entries.insert]
    split
    · rfl
    · rw [mapTagEntries, ih]

/-- Writing and giving other tags may change places, if new mappings get the tag that they have
by default. -/
theorem mapTagEntries_writeEntries [Inhabited β] (hf : f default = default) (v : Tree α)
    (segments : List String) (es : List (Key × Tree α)) :
    mapTagEntries f (writeEntries v segments es) =
      writeEntries (v.mapTag f) segments (mapTagEntries f es) := by
  induction segments generalizing es with
  | nil => rfl
  | cons s ss ih =>
    rw [writeEntries_cons, writeEntries_cons, mapTagEntries_insert, find?_mapTagEntries]
    congr 1
    cases ss with
    | nil => rfl
    | cons s' ss =>
      have hnew : mapTag f (map default (writeEntries v (s' :: ss) [])) =
          map default (writeEntries (v.mapTag f) (s' :: ss) []) := by
        rw [mapTag, ih, hf, mapTagEntries]
      cases Entries.find? (.str s) es with
      | none => exact hnew
      | some u =>
        cases u with
        | map t sub =>
          show mapTag f (map t (writeEntries v (s' :: ss) sub)) =
            map (f t) (writeEntries (v.mapTag f) (s' :: ss) (mapTagEntries f sub))
          rw [mapTag, ih]
        | _ => exact hnew

variable [Inhabited β]

mutual

/-- So may copying and giving other tags. -/
theorem mapTag_copy (hf : f default = default) : (t : Tree α) →
    t.copy.mapTag f = (t.mapTag f).copy
  | atom _ => rfl
  | list _ items => by rw [copy, mapTag, mapTag, copy, hf, mapTagItems_copyItems hf items]
  | tuple items => by rw [copy, mapTag, mapTag, copy, hf, mapTagItems_copyItems hf items]
  | map _ es => by rw [copy, mapTag, mapTag, copy, hf, mapTagEntries_copyEntries hf es]
  | set _ => rfl

theorem mapTagItems_copyItems (hf : f default = default) : (items : List (Tree α)) →
    mapTagItems f (copyItems items) = copyItems (mapTagItems f items)
  | [] => rfl
  | x :: xs => by
    rw [copyItems, mapTagItems, mapTagItems, copyItems, mapTag_copy hf x,
      mapTagItems_copyItems hf xs]

theorem mapTagEntries_copyEntries (hf : f default = default) : (es : List (Key × Tree α)) →
    mapTagEntries f (copyEntries es) = copyEntries (mapTagEntries f es)
  | [] => rfl
  | (_, v) :: es => by
    rw [copyEntries, mapTagEntries, mapTagEntries, copyEntries, mapTag_copy hf v,
      mapTagEntries_copyEntries hf es]

end

omit [Inhabited α] [Inhabited β] in
theorem isUndefined_mapTag (v : Tree α) : (v.mapTag f).isUndefined = v.isUndefined := by
  cases v with
  | atom a => cases a <;> rfl
  | _ => rfl

mutual

/-- So may laying a layer over something and giving other tags. -/
theorem mapTag_overlay (hf : f default = default) : (layer : Tree α) →
    (held : Option (Tree α)) →
      (overlay layer held).mapTag f = overlay (layer.mapTag f) (held.map (mapTag f))
  | map _ es, some (map t fs) =>
    congrArg (map (f t)) (mapTagEntries_overlayEntries hf es fs)
  | map t es, none => mapTag_copy f hf (map t es)
  | map t es, some (atom _) => mapTag_copy f hf (map t es)
  | map t es, some (list _ _) => mapTag_copy f hf (map t es)
  | map t es, some (tuple _) => mapTag_copy f hf (map t es)
  | map t es, some (set _) => mapTag_copy f hf (map t es)
  | atom _, _ => rfl
  | list t items, _ => mapTag_copy f hf (list t items)
  | tuple items, _ => mapTag_copy f hf (tuple items)
  | set _, _ => rfl

theorem mapTagEntries_overlayEntries (hf : f default = default) :
    (es fs : List (Key × Tree α)) →
      mapTagEntries f (overlayEntries es fs) =
        overlayEntries (mapTagEntries f es) (mapTagEntries f fs)
  | [], _ => rfl
  | (k, v) :: es, fs => by
    simp only [overlayEntries, mapTagEntries, isUndefined_mapTag, find?_mapTagEntries,
      Option.isSome_map]
    split
    · exact mapTagEntries_overlayEntries hf es fs
    · rw [mapTagEntries_overlayEntries hf es, mapTagEntries_insert, mapTag_overlay hf v]

end

end MapTag

/-! ## The way to a path -/

/-- Mappings with tags that are `free` lead along the segments as far as there is anything, and
what stands at their end satisfies `last`, if only that there is nothing. -/
def Way (free : α → Prop) (last : Option (Tree α) → Prop) :
    List String → List (Key × Tree α) → Prop
  | [], _ => True
  | [s], es => last (Entries.find? (.str s) es)
  | s :: s' :: ss, es =>
    match Entries.find? (.str s) es with
    | none => last none
    | some (map t sub) => free t ∧ Way free last (s' :: ss) sub
    | some _ => False

variable {free : α → Prop} {last last' : Option (Tree α) → Prop}

omit [Inhabited α] in
/-- Nothing stands on any way through no entries. -/
theorem way_nil (h : last none) (segments : List String) :
    Way free last segments ([] : List (Key × Tree α)) := by
  match segments with
  | [] => trivial
  | [_] => exact h
  | _ :: _ :: _ => exact h

omit [Inhabited α] in
/-- The way along at least two segments goes through a mapping, or ends before it has begun. -/
theorem way_cons_cons_iff {s s' : String} {ss : List String} {es : List (Key × Tree α)} :
    Way free last (s :: s' :: ss) es ↔
      (Entries.find? (.str s) es = none ∧ last none) ∨
        ∃ t sub, Entries.find? (.str s) es = some (map t sub) ∧ free t ∧
          Way free last (s' :: ss) sub := by
  rw [Way]
  cases Entries.find? (.str s) es with
  | none => simp
  | some u => cases u <;> simp

/-- A write keeps the way to a path, unless it comes to stand on that way or at its end; it may
only come to stand below the end if that is no matter. -/
theorem way_writeEntries (hfree : free default) (v : Tree α) {segments written : List String}
    (hon : ¬ written <+: segments) (hbelow : segments <+: written → ∀ o, last o)
    {es : List (Key × Tree α)} (h : Way free last segments es) :
    Way free last segments (writeEntries v written es) := by
  induction segments generalizing written es with
  | nil => trivial
  | cons s ss ih =>
    cases written with
    | nil => exact absurd List.nil_prefix hon
    | cons w ws =>
      by_cases hw : s = w
      · subst hw
        have hon' : ¬ ws <+: ss := fun hp => hon (List.cons_prefix_cons.2 ⟨rfl, hp⟩)
        have hbelow' : ss <+: ws → ∀ o, last o := fun hp =>
          hbelow (List.cons_prefix_cons.2 ⟨rfl, hp⟩)
        cases ss with
        | nil => exact hbelow' List.nil_prefix _
        | cons s' ss =>
          cases ws with
          | nil => exact absurd List.nil_prefix hon'
          | cons w' ws =>
            rw [way_cons_cons_iff, find?_writeEntries_self]
            right
            rcases way_cons_cons_iff.1 h with ⟨hnone, hlast⟩ | ⟨t, sub, hsome, ht, hsub⟩
            · rw [hnone]
              exact ⟨default, _, rfl, hfree, ih hon' hbelow' (way_nil hlast _)⟩
            · rw [hsome]
              exact ⟨t, _, rfl, ht, ih hon' hbelow' hsub⟩
      · cases ss with
        | nil =>
          rw [Way, find?_writeEntries_of_ne hw]
          exact h
        | cons s' ss =>
          rw [way_cons_cons_iff, find?_writeEntries_of_ne hw]
          exact way_cons_cons_iff.1 h

/-- A write at a path that is apart keeps the way and its end. -/
theorem way_writeEntries_of_apart (hfree : free default) (v : Tree α)
    {segments written : List String} (hapart : Path.Apart segments written)
    {es : List (Key × Tree α)} (h : Way free last segments es) :
    Way free last segments (writeEntries v written es) :=
  way_writeEntries hfree v hapart.2 (fun hp => absurd hp hapart.1) h

/-- What has been written stands at the end of its way. -/
theorem way_writeEntries_self (hfree : free default) {v : Tree α} (hv : last' (some v))
    {segments : List String} {es : List (Key × Tree α)} (h : Way free last segments es) :
    Way free last' segments (writeEntries v segments es) := by
  induction segments generalizing es with
  | nil => trivial
  | cons s ss ih =>
    cases ss with
    | nil =>
      rw [Way, find?_writeEntries_self]
      exact hv
    | cons s' ss =>
      rw [way_cons_cons_iff, find?_writeEntries_self]
      right
      rcases way_cons_cons_iff.1 h with ⟨hnone, hlast⟩ | ⟨t, sub, hsome, ht, hsub⟩
      · rw [hnone]
        exact ⟨default, _, rfl, hfree, ih (way_nil hlast _)⟩
      · rw [hsome]
        exact ⟨t, _, rfl, ht, ih hsub⟩

/-! ## Marked containers -/

omit [Inhabited α] in
theorem find?_replaceShareEntries (share : Share) (new : Shared) (k : Key)
    (es : List (Key × Shared)) :
    Entries.find? k (replaceShareEntries share new es) =
      (Entries.find? k es).map (replaceShare share new) := by
  induction es with
  | nil => rfl
  | cons e es ih =>
    obtain ⟨k', v⟩ := e
    simp only [replaceShareEntries, Entries.find?]
    split
    · rfl
    · exact ih

omit [Inhabited α] in
/-- What a write changes below a mapping: what it changes deeper, or else that mapping itself. -/
theorem writeRevision?_of_find? {s s' : String} {ss : List String} {m : Option Share}
    {sub es : List (Key × Shared)} (h : Entries.find? (.str s) es = some (map m sub)) (v : Shared) :
    writeRevision? v (s :: s' :: ss) es =
      (writeRevision? v (s' :: ss) sub).or
        (m.map fun share => ⟨share, map m (writeEntries v (s' :: ss) sub)⟩) := by
  rw [writeRevision?, h]
  dsimp only
  cases writeRevision? v (s' :: ss) sub <;> rfl

omit [Inhabited α] in
/-- A write that changes a marked mapping goes through the mapping of its first key; that one is
changed unless a deeper one is. -/
theorem writeRevision?_cases {v : Shared} {segments : List String} {es : List (Key × Shared)}
    {rev : Revision} (h : writeRevision? v segments es = some rev) :
    ∃ s ss m sub, segments = s :: ss ∧ Entries.find? (.str s) es = some (map m sub) ∧
      (writeRevision? v ss sub = some rev ∨
        m = some rev.share ∧ rev.content = map m (writeEntries v ss sub)) := by
  match segments with
  | [] => simp [writeRevision?] at h
  | [_] => simp [writeRevision?] at h
  | s :: s' :: ss =>
    have hmap : ∃ m sub, Entries.find? (.str s) es = some (map m sub) := by
      unfold writeRevision? at h
      split at h
      · rename_i m sub hfind
        exact ⟨m, sub, hfind⟩
      · cases h
    obtain ⟨m, sub, hfind⟩ := hmap
    refine ⟨s, s' :: ss, m, sub, rfl, hfind, ?_⟩
    rw [writeRevision?_of_find? hfind] at h
    cases hdeeper : writeRevision? v (s' :: ss) sub with
    | some deeper =>
      rw [hdeeper] at h
      exact Or.inl h
    | none =>
      rw [hdeeper] at h
      obtain ⟨share, rfl, rfl⟩ := Option.map_eq_some_iff.1 h
      exact Or.inr ⟨rfl, rfl⟩

omit [Inhabited α] in
/-- A write whose way goes through mappings without marks changes no marked container. -/
theorem writeRevision?_eq_none {last : Option Shared → Prop} (v : Shared) {segments : List String}
    {es : List (Key × Shared)} (h : Way (· = none) last segments es) :
    writeRevision? v segments es = none := by
  induction segments generalizing es with
  | nil => rfl
  | cons s ss ih =>
    cases ss with
    | nil => rfl
    | cons s' ss =>
      rcases way_cons_cons_iff.1 h with ⟨hnone, -⟩ | ⟨t, sub, hsome, rfl, hsub⟩
      · rw [writeRevision?, hnone]
      · rw [writeRevision?_of_find? hsome, ih hsub]
        rfl

omit [Inhabited α] in
/-- A change of marked containers keeps a way through mappings without marks. -/
theorem way_replaceShareEntries {last : Option Shared → Prop} (share : Share) (new : Shared)
    (hlast : ∀ o, last o → last (o.map (replaceShare share new))) {segments : List String}
    {es : List (Key × Shared)} (h : Way (· = none) last segments es) :
    Way (· = none) last segments (replaceShareEntries share new es) := by
  induction segments generalizing es with
  | nil => trivial
  | cons s ss ih =>
    cases ss with
    | nil =>
      rw [Way, find?_replaceShareEntries]
      exact hlast _ h
    | cons s' ss =>
      rw [way_cons_cons_iff, find?_replaceShareEntries]
      rcases way_cons_cons_iff.1 h with ⟨hnone, hnothing⟩ | ⟨t, sub, hsome, rfl, hsub⟩
      · exact Or.inl ⟨by rw [hnone]; rfl, hnothing⟩
      · refine Or.inr ⟨none, replaceShareEntries share new sub, ?_, rfl, ih hsub⟩
        rw [hsome, Option.map_some, replaceShare, if_neg (by simp)]

end Tree

end LayeredConfig
