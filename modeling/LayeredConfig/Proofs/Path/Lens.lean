import LayeredConfig.Proofs.Layer.Merging
import LayeredConfig.Proofs.Path.Branches
import LayeredConfig.Proofs.Path.Ways

/-!
# Reading and writing at paths

A write makes its own way, so whatever the tree is like, what has been written at a
path is read there.  A write forgets what was written at its path and below it, the
places of the keys included.  Writes at two paths that are apart may change places; what
they leave differs at most in the order of new keys.

* `Tree.Reordered` — the same tree but for the order of keys.
* `Tree.exists_mapping_below` — a write below a value is a write into one mapping.
* `Tree.writeEntries_writeEntries_of_front` — a write forgets those at and below its path.
* `Tree.reorderedEntries_writeEntries` — writes apart from each other may change places.
* `Tree.write_get_laws` — the three laws for trees and paths.
-/

namespace LayeredConfig.Tree

variable {α : Type}

/-! ## Trees but for the order of keys -/

mutual

/-- The same tree, but for the order of the keys in its mappings. -/
inductive Reordered : Tree α → Tree α → Prop where
  /-- Any tree is itself. -/
  | refl (t : Tree α) : Reordered t t
  /-- Mappings with the same tag, entries reordered. -/
  | map (tag : α) {es fs : List (Key × Tree α)} (h : ReorderedEntries es fs) :
      Reordered (map tag es) (map tag fs)

/-- The same entries in another order, and with reordered values. -/
inductive ReorderedEntries : List (Key × Tree α) → List (Key × Tree α) → Prop where
  /-- No entries. -/
  | nil : ReorderedEntries [] []
  /-- The first key is the same. -/
  | cons (k : Key) {v w : Tree α} {es fs : List (Key × Tree α)} (h : Reordered v w)
      (hrest : ReorderedEntries es fs) : ReorderedEntries ((k, v) :: es) ((k, w) :: fs)
  /-- The first two entries change places. -/
  | swap (e f : Key × Tree α) (es : List (Key × Tree α)) :
      ReorderedEntries (e :: f :: es) (f :: e :: es)
  /-- One order after the other. -/
  | trans {es fs gs : List (Key × Tree α)} (h : ReorderedEntries es fs)
      (h' : ReorderedEntries fs gs) : ReorderedEntries es gs

end

theorem ReorderedEntries.refl (es : List (Key × Tree α)) : ReorderedEntries es es := by
  induction es with
  | nil => exact .nil
  | cons e es ih => exact .cons e.1 (.refl e.2) ih

theorem ReorderedEntries.append_left (front : List (Key × Tree α)) {es fs : List (Key × Tree α)}
    (h : ReorderedEntries es fs) : ReorderedEntries (front ++ es) (front ++ fs) := by
  induction front with
  | nil => exact h
  | cons e front ih => exact .cons e.1 (.refl e.2) ih

/-- Values that are reordered may be written under a key. -/
theorem Reordered.insert (k : Key) {v w : Tree α} (h : Reordered v w)
    (es : List (Key × Tree α)) :
    ReorderedEntries (Entries.insert k v es) (Entries.insert k w es) := by
  induction es with
  | nil => exact .cons k h .nil
  | cons e es ih =>
    obtain ⟨k', u⟩ := e
    by_cases hk : k.same k' = true
    · simp only [Entries.insert, if_pos hk]
      exact .cons k' h (.refl es)
    · simp only [Entries.insert, if_neg hk]
      exact .cons k' (.refl u) ih

/-- Two keys may be written in either order, which shows in the order of entries if both are
new. -/
theorem reorderedEntries_insert_insert {s s' : String} (hne : s ≠ s') (v w : Tree α)
    (es : List (Key × Tree α)) :
    ReorderedEntries (Entries.insert (.str s') w (Entries.insert (.str s) v es))
      (Entries.insert (.str s) v (Entries.insert (.str s') w es)) := by
  by_cases hs : (Entries.find? (.str s) es).isSome
  · rw [Entries.insert_comm hne v w hs]
    exact .refl _
  · by_cases hs' : (Entries.find? (.str s') es).isSome
    · rw [Entries.insert_comm hne.symm w v hs']
      exact .refl _
    · have hnone : Entries.find? (.str s) es = none := by simpa using hs
      have hnone' : Entries.find? (.str s') es = none := by simpa using hs'
      have hthen : Entries.find? (.str s') (Entries.insert (.str s) v es) = none := by
        rwa [Entries.find?_insert_of_ne hne.symm]
      have hthen' : Entries.find? (.str s) (Entries.insert (.str s') w es) = none := by
        rwa [Entries.find?_insert_of_ne hne]
      rw [Entries.insert_of_find?_eq_none hthen, Entries.insert_of_find?_eq_none hthen',
        Entries.insert_of_find?_eq_none hnone, Entries.insert_of_find?_eq_none hnone',
        List.append_assoc, List.append_assoc]
      exact .append_left es (.swap _ _ _)

/-! ## One write after the other -/

variable [Inhabited α]

/-- A write below a value is a write into one mapping, whatever is written: into the value itself
if that is a mapping, else into a new one. -/
theorem exists_mapping_below (o : Option (Tree α)) : ∃ tag sub, ∀ (v : Tree α) (s : String)
    (ss : List String), writeBelow v (s :: ss) o = map tag (writeEntries v (s :: ss) sub) := by
  cases o with
  | none => exact ⟨default, [], fun _ _ _ => rfl⟩
  | some u =>
    cases u with
    | map tag sub => exact ⟨tag, sub, fun _ _ _ => rfl⟩
    | _ => exact ⟨default, [], fun _ _ _ => rfl⟩

/-- A write below the same key as the one before goes on from what that one has left there. -/
theorem writeEntries_writeEntries_self (v w : Tree α) (s : String) (ss ss' : List String)
    (es : List (Key × Tree α)) :
    writeEntries w (s :: ss') (writeEntries v (s :: ss) es) =
      Entries.insert (.str s)
        (writeBelow w ss' (some (writeBelow v ss (Entries.find? (.str s) es)))) es := by
  rw [writeEntries_cons w, find?_writeEntries_self, writeEntries_cons v,
    Entries.insert_insert_self (Key.same_str_iff.2 rfl)]

/-- A write forgets one at its own path, or at a path below it. -/
theorem writeEntries_writeEntries_of_front {ps qs : List String} (hne : ps ≠ [])
    (h : ps <+: qs) (v w : Tree α) (es : List (Key × Tree α)) :
    writeEntries w ps (writeEntries v qs es) = writeEntries w ps es := by
  induction ps generalizing qs es with
  | nil => exact absurd rfl hne
  | cons s ps ih =>
    cases qs with
    | nil => simp at h
    | cons s' qs =>
      obtain ⟨rfl, hrest⟩ := List.cons_prefix_cons.1 h
      rw [writeEntries_writeEntries_self, writeEntries_cons w]
      congr 1
      -- what is left is what stands under the first key
      cases ps with
      | nil => rfl
      | cons s₂ ps =>
        obtain ⟨s₃, qs, rfl⟩ : ∃ s₃ qs', qs = s₃ :: qs' := by
          cases qs with
          | nil => simp at hrest
          | cons s₃ qs => exact ⟨s₃, qs, rfl⟩
        obtain ⟨tag, sub, hbelow⟩ := exists_mapping_below (Entries.find? (.str s) es)
        rw [hbelow, hbelow]
        exact congrArg (map tag) (ih (by simp) hrest sub)

/-- Writes at paths that are apart may change places. -/
theorem reorderedEntries_writeEntries {ps qs : List String} (h : Path.Apart ps qs)
    (v w : Tree α) (es : List (Key × Tree α)) :
    ReorderedEntries (writeEntries w qs (writeEntries v ps es))
      (writeEntries v ps (writeEntries w qs es)) := by
  induction ps generalizing qs es with
  | nil => exact absurd List.nil_prefix h.1
  | cons s ps ih =>
    obtain ⟨_, _, s', qs, -, rfl⟩ := Path.exists_cons_of_apart h
    by_cases hs : s = s'
    · subst hs
      have hrest : Path.Apart ps qs := Path.apart_cons_iff.1 h
      obtain ⟨s₁, ps, s₂, qs, rfl, rfl⟩ := Path.exists_cons_of_apart hrest
      obtain ⟨tag, sub, hbelow⟩ := exists_mapping_below (Entries.find? (.str s) es)
      rw [writeEntries_writeEntries_self, writeEntries_writeEntries_self, hbelow, hbelow]
      exact Reordered.insert _ (.map tag (ih hrest sub)) es
    · rw [writeEntries_cons w s' qs (writeEntries v _ es),
        writeEntries_cons v s ps (writeEntries w _ es), find?_writeEntries_of_ne (Ne.symm hs),
        find?_writeEntries_of_ne hs, writeEntries_cons v, writeEntries_cons w]
      exact reorderedEntries_insert_insert hs _ _ es

/-! ## Trees and paths -/

/-- What has been written at a path is read there. -/
theorem get_write_self (tag : α) (es : List (Key × Tree α)) {path : String} (hne : path ≠ "")
    (v : Tree α) : ((map tag es).write path v).get path = .ok v := by
  have halong : Along (fun _ : Tree α => True) (Path.split path) es :=
    along_of_forall (fun _ => trivial) _ _
  have hway : Way (fun _ => True) (· = some v) (Path.split path)
      (writeEntries v (Path.split path) es) := by
    refine way_of_along trivial (fun _ _ _ => trivial) ?_ halong
    rfl
  obtain ⟨steps, hsteps⟩ := locate?_of_way (Path.split_ne_nil path) hway tag
  rw [write, get, find?, if_neg hne, hsteps]
  rfl

/-- Reading and writing at paths are a lens: what has been written is read; a write forgets one at
or below its path; and writes at paths apart from each other may change places, but for the
order of keys. -/
theorem write_get_laws (tag : α) (es : List (Key × Tree α)) (v w : Tree α) (p q : String) :
    (p ≠ "" → ((map tag es).write p v).get p = .ok v) ∧
    (Path.split p <+: Path.split q →
      ((map tag es).write q v).write p w = (map tag es).write p w) ∧
    (Path.Apart (Path.split p) (Path.split q) →
      Reordered (((map tag es).write p v).write q w) (((map tag es).write q w).write p v)) := by
  refine ⟨fun hne => get_write_self tag es hne v, fun hfront => ?_, fun hapart => ?_⟩
  · exact congrArg (map tag)
      (writeEntries_writeEntries_of_front (Path.split_ne_nil p) hfront v w es)
  · exact .map tag (reorderedEntries_writeEntries hapart v w es)

/-- A mapping in which a list stands on the way of some writes, and a number is a key. -/
def mixed : List (Key × Value) :=
  [(.str "a", .list () [.atom (.int 1)]), (.atom (.int 80), .map () [(.str "b", .str "web")])]

theorem write_get_laws_mixed :
    ((map () mixed).write "a.b" (.str "new")).get "a.b" = .ok (.str "new") ∧
    ((map () mixed).write "a.b.c" (.str "new")).write "a:b" (.str "newer") =
      (map () mixed).write "a:b" (.str "newer") ∧
    Reordered (((map () mixed).write "a.b" (.str "new")).write "80.b" (.str "newer"))
      (((map () mixed).write "80.b" (.str "newer")).write "a.b" (.str "new")) :=
  ⟨(write_get_laws () mixed (.str "new") (.str "newer") "a.b" "80.b").1 (by decide +kernel),
    (write_get_laws () mixed (.str "new") (.str "newer") "a:b" "a.b.c").2.1 (by decide +kernel),
    (write_get_laws () mixed (.str "new") (.str "newer") "a.b" "80.b").2.2 (by decide +kernel)⟩

end LayeredConfig.Tree
