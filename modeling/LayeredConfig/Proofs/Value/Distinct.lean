import LayeredConfig.Proofs.Value.Sameness
import LayeredConfig.Value.Entries

/-!
# Entries with different keys

What is found under a key is the same for all keys that are the same.  If no key of
the entries is the same as another one, each of them is found under its own key, and
a write changes one entry and leaves the others.

* `Entries.exists_of_find?`, `Entries.find?_of_mem` — what is found is an entry, and
  each entry is found.
* `Entries.Distinct` — no key is the same as another one.
* `Entries.insert_eq_map` — a write where the key is there.
-/

namespace LayeredConfig

theorem Key.same_congr {k l : Key} (h : k.same l = true) (m : Key) : k.same m = l.same m := by
  rw [Bool.eq_iff_iff]
  exact ⟨Key.same_trans (l.same_comm k ▸ h), Key.same_trans h⟩

namespace Entries

variable {β : Type}

/-- No key is the same as another one. -/
def Distinct (es : List (Key × β)) : Prop :=
  es.Pairwise fun e f => e.1.same f.1 = false

theorem find?_congr {k l : Key} (h : k.same l = true) (es : List (Key × β)) :
    find? k es = find? l es := by
  induction es with
  | nil => rfl
  | cons e es ih => rw [find?, find?, Key.same_congr h, ih]

theorem find?_eq_none_iff {k : Key} {es : List (Key × β)} :
    find? k es = none ↔ ∀ e ∈ es, k.same e.1 = false := by
  induction es with
  | nil => simp [find?]
  | cons e es ih =>
    obtain ⟨l, v⟩ := e
    rw [find?, List.forall_mem_cons, ← ih]
    cases k.same l <;> simp

/-- What is found under a key stands there under one that is the same. -/
theorem exists_of_find? {k : Key} {v : β} {es : List (Key × β)} (h : find? k es = some v) :
    ∃ l, (l, v) ∈ es ∧ k.same l = true := by
  induction es with
  | nil => cases h
  | cons e es ih =>
    obtain ⟨l, w⟩ := e
    rw [find?] at h
    split at h
    · rename_i hsame
      cases h
      exact ⟨l, List.mem_cons_self, hsame⟩
    · obtain ⟨m, hmem, hsame⟩ := ih h
      exact ⟨m, List.mem_cons_of_mem _ hmem, hsame⟩

theorem same_self_of_find? {k : Key} {v : β} {es : List (Key × β)} (h : find? k es = some v) :
    k.same k = true := by
  obtain ⟨l, -, hsame⟩ := exists_of_find? h
  exact Key.same_trans hsame (k.same_comm l ▸ hsame)

/-- An entry is found under each key that is the same as its own. -/
theorem find?_of_mem {es : List (Key × β)} (hes : Distinct es) {l : Key} {v : β}
    (hmem : (l, v) ∈ es) {k : Key} (hsame : k.same l = true) : find? k es = some v := by
  induction es with
  | nil => cases hmem
  | cons e es ih =>
    obtain ⟨m, w⟩ := e
    obtain ⟨hnew, hrest⟩ := List.pairwise_cons.1 hes
    rw [find?]
    rcases List.mem_cons.1 hmem with heq | hmem
    · cases heq
      rw [if_pos hsame]
    · rw [if_neg, ih hrest hmem]
      rw [Key.same_congr hsame, Key.same_comm]
      simp [hnew _ hmem]

theorem contains_eq_any (k : Key) (es : List (Key × β)) :
    contains k es = es.any fun e => k.same e.1 := by
  rw [contains]
  induction es with
  | nil => rfl
  | cons e es ih =>
    obtain ⟨l, v⟩ := e
    rw [find?, List.any_cons, ← ih]
    cases k.same l <;> rfl

/-- A write may read the value before it, and leaves all other entries. -/
theorem insert_eq_map {es : List (Key × β)} (hes : Distinct es) {k : Key} {v : β}
    (h : find? k es = some v) (f : β → β) :
    insert k (f v) es = es.map fun e => (e.1, if k.same e.1 then f e.2 else e.2) := by
  induction es with
  | nil => cases h
  | cons e es ih =>
    obtain ⟨l, w⟩ := e
    obtain ⟨hnew, hrest⟩ := List.pairwise_cons.1 hes
    rw [find?] at h
    rw [insert, List.map_cons]
    split at h
    · rename_i hsame
      cases h
      have hothers : ∀ e ∈ es, (e.1, if k.same e.1 then f e.2 else e.2) = e := by
        intro e he
        rw [Key.same_congr hsame, hnew e he]
        rfl
      rw [List.map_congr_left hothers, List.map_id', if_pos hsame, if_pos hsame]
    · rename_i hsame
      rw [ih hrest h, if_neg hsame, if_neg hsame]

theorem distinct_map {γ : Type} {f : Key × β → γ} {es : List (Key × β)} :
    Distinct (es.map fun e => (e.1, f e)) ↔ Distinct es := by
  rw [Distinct, List.pairwise_map, Distinct]

theorem contains_map {γ : Type} {f : Key × β → γ} (k : Key) (es : List (Key × β)) :
    contains k (es.map fun e => (e.1, f e)) = contains k es := by
  rw [contains_eq_any, contains_eq_any, List.any_map]
  rfl

theorem distinct_append_singleton {es : List (Key × β)} (hes : Distinct es) {k : Key}
    (h : find? k es = none) (v : β) : Distinct (es ++ [(k, v)]) := by
  refine List.pairwise_append.2 ⟨hes, List.pairwise_singleton _ _, fun e he f hf => ?_⟩
  rw [List.mem_singleton.1 hf, Key.same_comm]
  exact find?_eq_none_iff.1 h e he

end Entries

end LayeredConfig
