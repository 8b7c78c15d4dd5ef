import LayeredConfig.Path.Flat
import LayeredConfig.Proofs.Path.Writes

/-!
# Leaves and their paths

The leaves of a tree of mappings stand under paths that are joined from the keys
on the way to them.  A path is joined again from its own segments, in normal form,
so what is written at a path is a leaf under it.

* `Path.foldl_extend_split` — a path is joined again from its segments.
* `Tree.mem_entryLeaves_writeEntries` — what is written is a leaf under its path.
* `Flat.exists_ofList_append` — a leaf whose path no other one has keeps its place.
-/

namespace LayeredConfig

/-! ## Paths joined from their segments -/

namespace Path

theorem toList_extend {parent : String} (h : parent ≠ "") (segment : String) :
    (extend parent segment).toList = parent.toList ++ '.' :: segment.toList := by
  rw [extend, if_neg h]
  simp

theorem toList_foldl_extend {parent : String} (h : parent ≠ "") (segments : List String) :
    (segments.foldl extend parent).toList =
      parent.toList ++ segments.flatMap fun s => '.' :: s.toList := by
  induction segments generalizing parent with
  | nil => simp
  | cons s ss ih =>
    have hne : extend parent s ≠ "" := by
      intro heq
      have hlist := toList_extend h s
      rw [heq] at hlist
      simp at hlist
    rw [List.foldl_cons, ih hne, toList_extend h, List.flatMap_cons, List.append_assoc]

/-- The segments with points between them are the characters of the path in normal form. -/
theorem append_flatMap_splitChars {cs first : List Char} {rest : List (List Char)}
    (h : splitChars cs = first :: rest) :
    (first ++ rest.flatMap fun s => '.' :: s) = cs.map normalizeChar := by
  induction cs generalizing first rest with
  | nil =>
    rw [splitChars_nil] at h
    cases h
    rfl
  | cons c cs ih =>
    obtain ⟨second, others, hsplit⟩ := List.exists_cons_of_ne_nil (splitChars_ne_nil cs)
    rw [splitChars_cons, hsplit] at h
    split at h
    · rename_i hc
      cases h
      have hpoint : normalizeChar c = '.' := by
        unfold normalizeChar
        split
        · rfl
        · simpa [isSeparator, *] using hc
      rw [List.map_cons, hpoint, ← ih hsplit]
      rfl
    · rename_i hc
      cases h
      rw [List.map_cons, normalizeChar_of_not_isSeparator (by simpa using hc), ← ih hsplit]
      rfl

/-- A path that does not begin with a separator is joined again from its segments, in normal
form. -/
theorem foldl_extend_split {path : String} (hne : path ≠ "")
    (hfirst : ∀ c ∈ path.toList.head?, isSeparator c = false) :
    (split path).foldl extend "" = normalize path := by
  obtain ⟨c, cs, hcs⟩ := List.exists_cons_of_ne_nil (mt String.toList_eq_nil_iff.1 hne)
  obtain ⟨first, rest, hsplit⟩ := List.exists_cons_of_ne_nil (splitChars_ne_nil cs)
  have hc : isSeparator c = false := hfirst c (by rw [hcs]; rfl)
  have hpath : splitChars path.toList = (c :: first) :: rest := by
    rw [hcs, splitChars_cons, hc, hsplit]
    rfl
  have hone : String.ofList (c :: first) ≠ "" := by
    intro heq
    simpa using congrArg String.toList heq
  have hextend : extend "" (String.ofList (c :: first)) = String.ofList (c :: first) := by
    rw [extend, if_pos rfl]
  rw [← String.toList_inj, split, hpath, List.map_cons, List.foldl_cons, hextend,
    toList_foldl_extend hone, normalize, String.toList_ofList, String.toList_ofList,
    ← append_flatMap_splitChars hpath, List.flatMap_map]
  simp

end Path

/-! ## Each path once -/

namespace Flat

variable {α : Type}

theorem mem_of_mem_insert {path : String} {v : Tree α} {flat : Flat α} {leaf : String × Tree α}
    (h : leaf ∈ insert path v flat) : leaf = (path, v) ∨ leaf ∈ flat := by
  induction flat with
  | nil => exact Or.inl (List.mem_singleton.1 h)
  | cons first flat ih =>
    obtain ⟨p, w⟩ := first
    rw [insert] at h
    split at h
    · rename_i hp
      subst hp
      exact (List.mem_cons.1 h).imp id (List.mem_cons_of_mem _)
    · rcases List.mem_cons.1 h with rfl | h
      · exact Or.inr List.mem_cons_self
      · exact (ih h).imp id (List.mem_cons_of_mem _)

/-- Each path once: no leaf is new. -/
theorem mem_of_mem_ofList {leaves : List (String × Tree α)} {leaf : String × Tree α}
    (h : leaf ∈ ofList leaves) : leaf ∈ leaves := by
  induction leaves using List.reverseRecOn with
  | nil => exact h
  | append_singleton leaves last ih =>
    rw [ofList, List.foldl_concat] at h
    rcases mem_of_mem_insert h with rfl | h
    · exact List.mem_append_right _ (List.mem_singleton_self _)
    · exact List.mem_append_left _ (ih h)

/-- A leaf whose path is not there yet comes at the end. -/
theorem insert_of_notMem {path : String} (v : Tree α) {flat : Flat α}
    (h : ∀ leaf ∈ flat, leaf.1 ≠ path) : insert path v flat = flat ++ [(path, v)] := by
  induction flat with
  | nil => rfl
  | cons first flat ih =>
    obtain ⟨hfirst, hrest⟩ := List.forall_mem_cons.1 h
    rw [insert, if_neg hfirst, ih hrest, List.cons_append]

/-- Leaves with different paths are all kept. -/
theorem ofList_of_pairwise {leaves : List (String × Tree α)}
    (h : leaves.Pairwise fun a b => a.1 ≠ b.1) : ofList leaves = leaves := by
  induction leaves using List.reverseRecOn with
  | nil => rfl
  | append_singleton leaves last ih =>
    obtain ⟨hbefore, -, hlast⟩ := List.pairwise_append.1 h
    rw [ofList, List.foldl_concat, ← ofList, ih hbefore]
    exact insert_of_notMem last.2 fun leaf hmem => hlast leaf hmem last (List.mem_singleton_self _)

/-- A leaf written at another path than that of some leaf leaves this one between the leaves of the
same paths as before. -/
theorem exists_insert_append {path : String} {leaf : String × Tree α} (hne : leaf.1 ≠ path)
    (w : Tree α) (front back : Flat α) :
    ∃ front' back', insert path w (front ++ leaf :: back) = front' ++ leaf :: back' ∧
      (∀ p ∈ front'.map (·.1), p ∈ front.map (·.1)) ∧
      ∀ p ∈ back'.map (·.1), p = path ∨ p ∈ back.map (·.1) := by
  induction front with
  | nil =>
    refine ⟨[], insert path w back, ?_, fun _ h => h, fun p hp => ?_⟩
    · rw [List.nil_append, insert, if_neg hne, List.nil_append]
    · obtain ⟨other, hother, rfl⟩ := List.mem_map.1 hp
      exact (mem_of_mem_insert hother).imp (congrArg Prod.fst) List.mem_map_of_mem
  | cons first front ih =>
    by_cases hfirst : first.1 = path
    · refine ⟨(first.1, w) :: front, back, ?_, fun _ h => h, fun _ h => Or.inr h⟩
      rw [List.cons_append, insert, if_pos hfirst, List.cons_append]
    · obtain ⟨front', back', heq, hfront, hback⟩ := ih
      refine ⟨first :: front', back', ?_, fun p hp => ?_, hback⟩
      · rw [List.cons_append, insert, if_neg hfirst, heq, List.cons_append]
      · rcases List.mem_cons.1 hp with rfl | hp
        · exact List.mem_cons_self
        · exact List.mem_cons_of_mem _ (hfront p hp)

/-- A leaf whose path no other one has stands between the leaves of the paths before it and those
of the paths after it. -/
theorem exists_ofList_append {before after : List (String × Tree α)} {leaf : String × Tree α}
    (hbefore : ∀ other ∈ before, other.1 ≠ leaf.1) (hafter : ∀ other ∈ after, other.1 ≠ leaf.1) :
    ∃ front back, ofList (before ++ leaf :: after) = front ++ leaf :: back ∧
      (∀ p ∈ front.map (·.1), p ∈ before.map (·.1)) ∧
      ∀ p ∈ back.map (·.1), p ∈ after.map (·.1) := by
  induction after using List.reverseRecOn with
  | nil =>
    refine ⟨ofList before, [], ?_, fun p hp => ?_, fun _ h => h⟩
    · rw [ofList, List.foldl_concat, ← ofList]
      exact insert_of_notMem leaf.2 fun other hmem => hbefore other (mem_of_mem_ofList hmem)
    · obtain ⟨other, hother, rfl⟩ := List.mem_map.1 hp
      exact List.mem_map_of_mem (mem_of_mem_ofList hother)
  | append_singleton after last ih =>
    obtain ⟨hrest, hlast⟩ := List.forall_mem_append.1 hafter
    obtain ⟨front, back, heq, hfront, hback⟩ := ih hrest
    have hne : leaf.1 ≠ last.1 := (hlast last (List.mem_singleton_self last)).symm
    obtain ⟨front', back', heq', hfront', hback'⟩ := exists_insert_append hne last.2 front back
    refine ⟨front', back', ?_, fun p hp => hfront p (hfront' p hp), fun p hp => ?_⟩
    · rw [← List.cons_append, ← List.append_assoc, ofList, List.foldl_concat, ← ofList, heq, heq']
    · rw [List.map_append, List.mem_append]
      rcases hback' p hp with rfl | hp
      · exact Or.inr (List.mem_singleton_self _)
      · exact Or.inl (hback p hp)

end Flat

/-! ## Leaves of a tree -/

namespace Tree

variable {α : Type}

mutual

/-- A leaf is no mapping, unless that is empty. -/
theorem ne_map_of_mem_leavesAt {leaf : String × Tree α} {t : α} {e : Key × Tree α}
    {es : List (Key × Tree α)} (path : String) :
    (v : Tree α) → leaf ∈ leavesAt path v → leaf.2 ≠ map t (e :: es)
  | map _ [], h => by
    rw [leavesAt, List.mem_singleton] at h
    rw [h]
    simp
  | map _ (f :: fs), h => ne_map_of_mem_entryLeaves path (f :: fs) (by rwa [leavesAt] at h)
  | atom _, h => by simp_all [leavesAt]
  | list _ _, h => by simp_all [leavesAt]
  | tuple _, h => by simp_all [leavesAt]
  | set _, h => by simp_all [leavesAt]

theorem ne_map_of_mem_entryLeaves {leaf : String × Tree α} {t : α} {e : Key × Tree α}
    {es : List (Key × Tree α)} (parent : String) :
    (fs : List (Key × Tree α)) → leaf ∈ entryLeaves parent fs → leaf.2 ≠ map t (e :: es)
  | [], h => absurd h List.not_mem_nil
  | (k, v) :: fs, h => by
    rw [entryLeaves, List.mem_append] at h
    rcases h with h | h
    · exact ne_map_of_mem_leavesAt _ v h
    · exact ne_map_of_mem_entryLeaves parent fs h

end

/-- The leaves of a tree are no mappings if they are no empty ones. -/
theorem ne_map_of_mem_flattenEntries {parent : String} {es : List (Key × Value)}
    {leaf : String × Value} (hmem : leaf ∈ flattenEntries parent es) (h : leaf.2 ≠ map () [])
    (t : Unit) (fs : List (Key × Value)) : leaf.2 ≠ map t fs := by
  cases fs with
  | nil => exact h
  | cons f fs => exact ne_map_of_mem_entryLeaves parent es (Flat.mem_of_mem_ofList hmem)

theorem mem_leavesAt_of_mem_entryLeaves {path : String} {leaf : String × Tree α}
    {es : List (Key × Tree α)} (h : leaf ∈ entryLeaves path es) (t : α) :
    leaf ∈ leavesAt path (map t es) := by
  cases es with
  | nil => cases h
  | cons e es => exact h

theorem mem_entryLeaves_insert {parent s : String} {v : Tree α} {leaf : String × Tree α}
    (h : leaf ∈ leavesAt (Path.extend parent s) v) (es : List (Key × Tree α)) :
    leaf ∈ entryLeaves parent (Entries.insert (.str s) v es) := by
  induction es with
  | nil => exact List.mem_append_left _ h
  | cons e es ih =>
    obtain ⟨k, w⟩ := e
    unfold Entries.insert
    split
    · rename_i hk
      obtain rfl := Key.same_str_iff.1 hk
      exact List.mem_append_left _ h
    · exact List.mem_append_right _ ih

/-- A scalar that is written is a leaf under the path joined from the segments. -/
theorem mem_entryLeaves_writeEntries [Inhabited α] (a : Atom) {segments : List String}
    (hne : segments ≠ []) (parent : String) (es : List (Key × Tree α)) :
    (segments.foldl Path.extend parent, atom a) ∈
      entryLeaves parent (writeEntries (atom a) segments es) := by
  induction segments generalizing parent es with
  | nil => exact absurd rfl hne
  | cons s ss ih =>
    rw [writeEntries_cons]
    refine mem_entryLeaves_insert ?_ es
    cases ss with
    | nil => exact List.mem_singleton_self _
    | cons s' ss =>
      have hss : s' :: ss ≠ [] := by simp
      have hnew := mem_leavesAt_of_mem_entryLeaves (ih hss (Path.extend parent s) []) default
      cases Entries.find? (.str s) es with
      | none => exact hnew
      | some u =>
        cases u with
        | map t sub => exact mem_leavesAt_of_mem_entryLeaves (ih hss (Path.extend parent s) sub) t
        | _ => exact hnew

end Tree

end LayeredConfig
