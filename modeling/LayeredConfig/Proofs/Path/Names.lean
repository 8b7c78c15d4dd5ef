import LayeredConfig.Proofs.Path.Writes
import LayeredConfig.Proofs.Value.Distinct

/-!
# Named trees

A tree is named if every key that a chain of mappings leads to is a text of some
kind, and no key occurs twice in one mapping.  What lists, rows and sets hold is
left out: no path is written through them.

* `Tree.Named` — the predicate, with the kind of texts as a parameter.
* `Tree.namedEntries_writeEntries` — writes at paths of that kind keep trees named.
* `Tree.KeyedOnce` — what is left of it where keys may be anything.
-/

namespace LayeredConfig.Tree

variable {α : Type}

mutual

/-- Every key on a chain of mappings is a text of the given kind, and none occurs twice. -/
def Named (kind : String → Prop) : Tree α → Prop
  | map _ es => NamedEntries kind es
  | _ => True

/-- `Named` for the entries of a mapping. -/
def NamedEntries (kind : String → Prop) : List (Key × Tree α) → Prop
  | [] => True
  | (k, v) :: es =>
    (∃ s, k = .str s ∧ kind s) ∧ k ∉ es.map (·.1) ∧ Named kind v ∧ NamedEntries kind es

end

variable {kind : String → Prop}

theorem exists_of_mem_keys {es : List (Key × Tree α)} (h : NamedEntries kind es) {k : Key}
    (hk : k ∈ es.map (·.1)) : ∃ s, k = .str s ∧ kind s := by
  induction es with
  | nil => cases hk
  | cons e es ih =>
    obtain ⟨l, v⟩ := e
    obtain ⟨hkey, -, -, hes⟩ := h
    rcases List.mem_cons.1 hk with rfl | hk
    · exact hkey
    · exact ih hes hk

mutual

theorem named_mono {kind' : String → Prop} (hkind : ∀ s, kind s → kind' s) :
    (t : Tree α) → t.Named kind → t.Named kind'
  | atom _, h => h
  | list _ _, h => h
  | map _ es, h => namedEntries_mono hkind es h
  | tuple _, h => h
  | set _, h => h

theorem namedEntries_mono {kind' : String → Prop} (hkind : ∀ s, kind s → kind' s) :
    (es : List (Key × Tree α)) → NamedEntries kind es → NamedEntries kind' es
  | [], h => h
  | (_, v) :: es, ⟨⟨s, hk, hs⟩, hnot, hv, hes⟩ =>
    ⟨⟨s, hk, hkind s hs⟩, hnot, named_mono hkind v hv, namedEntries_mono hkind es hes⟩

end

/-- A text that no value is found under is not among the keys. -/
theorem notMem_of_find?_eq_none {s : String} {es : List (Key × Tree α)}
    (h : Entries.find? (.str s) es = none) : Key.str s ∉ es.map (·.1) := by
  induction es with
  | nil => exact List.not_mem_nil
  | cons e es ih =>
    obtain ⟨k, v⟩ := e
    rw [Entries.find?] at h
    split at h
    · cases h
    · rename_i hk
      rw [List.map_cons, List.mem_cons, not_or]
      exact ⟨fun heq => hk (Key.same_str_iff.2 heq.symm), ih h⟩

theorem keys_insert_subset {k l : Key} {v : Tree α} {es : List (Key × Tree α)}
    (h : l ∈ (Entries.insert k v es).map (·.1)) : l = k ∨ l ∈ es.map (·.1) := by
  induction es with
  | nil => exact Or.inl (by simpa [Entries.insert] using h)
  | cons e es ih =>
    obtain ⟨k', w⟩ := e
    unfold Entries.insert at h
    split at h
    · exact Or.inr h
    · rcases List.mem_cons.1 h with rfl | h
      · exact Or.inr List.mem_cons_self
      · exact (ih h).imp id (List.mem_cons_of_mem _)

/-- A named value is written under a key of the right kind. -/
theorem namedEntries_insert {s : String} (hs : kind s) {v : Tree α} (hv : v.Named kind)
    {es : List (Key × Tree α)} (h : NamedEntries kind es) :
    NamedEntries kind (Entries.insert (.str s) v es) := by
  induction es with
  | nil => exact ⟨⟨s, rfl, hs⟩, List.not_mem_nil, hv, trivial⟩
  | cons e es ih =>
    obtain ⟨k, w⟩ := e
    obtain ⟨hk, hnew, hw, hes⟩ := h
    unfold Entries.insert
    split
    · exact ⟨hk, hnew, hv, hes⟩
    · rename_i hne
      refine ⟨hk, fun hmem => ?_, hw, ih hes⟩
      rcases keys_insert_subset hmem with rfl | hmem
      · exact hne (Key.same_str_iff.2 rfl)
      · exact hnew hmem

theorem named_of_find? {s : String} {v : Tree α} {es : List (Key × Tree α)}
    (h : NamedEntries kind es) (hfind : Entries.find? (.str s) es = some v) : v.Named kind := by
  induction es with
  | nil => cases hfind
  | cons e es ih =>
    obtain ⟨k, w⟩ := e
    obtain ⟨-, -, hw, hes⟩ := h
    rw [Entries.find?] at hfind
    split at hfind
    · cases hfind
      exact hw
    · exact ih hes hfind

/-- Writing a named value at a path of the right kind leaves entries named. -/
theorem namedEntries_writeEntries [Inhabited α] {v : Tree α} (hv : v.Named kind)
    {segments : List String} (hs : ∀ s ∈ segments, kind s) {es : List (Key × Tree α)}
    (h : NamedEntries kind es) : NamedEntries kind (writeEntries v segments es) := by
  induction segments generalizing es with
  | nil => exact h
  | cons s ss ih =>
    have hss : ∀ s' ∈ ss, kind s' := fun s' hmem => hs s' (List.mem_cons_of_mem _ hmem)
    rw [writeEntries_cons]
    refine namedEntries_insert (hs s List.mem_cons_self) ?_ h
    cases ss with
    | nil => exact hv
    | cons s' ss =>
      have hnil : NamedEntries kind ([] : List (Key × Tree α)) := trivial
      have hnew : (map default (writeEntries v (s' :: ss) []) : Tree α).Named kind := ih hss hnil
      cases hfind : Entries.find? (.str s) es with
      | none => exact hnew
      | some u =>
        cases u with
        | map t sub => exact ih hss (named_of_find? h hfind)
        | _ => exact hnew

/-! ## Copies -/

section Copies

variable [Inhabited α]

theorem keys_copyEntries (es : List (Key × Tree α)) :
    (copyEntries es).map (·.1) = es.map (·.1) := by
  induction es with
  | nil => rfl
  | cons e es ih => exact congrArg (e.1 :: ·) ih

mutual

theorem named_copy : (t : Tree α) → t.Named kind → t.copy.Named kind
  | atom _, _ => trivial
  | list _ _, _ => trivial
  | map _ es, h => namedEntries_copyEntries es h
  | tuple _, _ => trivial
  | set _, _ => trivial

theorem namedEntries_copyEntries :
    (es : List (Key × Tree α)) → NamedEntries kind es → NamedEntries kind (copyEntries es)
  | [], _ => trivial
  | (k, v) :: es, ⟨hk, hnot, hv, hes⟩ => by
    refine ⟨hk, ?_, named_copy v hv, namedEntries_copyEntries es hes⟩
    rwa [keys_copyEntries]

end

end Copies

/-! ## Keys that occur once -/

mutual

/-- No key is the same as another one of its mapping, on any chain of mappings. -/
def KeyedOnce : Tree α → Prop
  | map _ es => KeyedOnceEntries es
  | _ => True

/-- `KeyedOnce` for the entries of a mapping. -/
def KeyedOnceEntries : List (Key × Tree α) → Prop
  | [] => True
  | (k, v) :: es => (∀ l ∈ es.map (·.1), k.same l = false) ∧ KeyedOnce v ∧ KeyedOnceEntries es

end

mutual

/-- Whether keys occur once can be computed. -/
def decidableKeyedOnce : (t : Tree α) → Decidable t.KeyedOnce
  | map _ es => decidableKeyedOnceEntries es
  | atom _ => .isTrue trivial
  | list _ _ => .isTrue trivial
  | tuple _ => .isTrue trivial
  | set _ => .isTrue trivial

/-- `decidableKeyedOnce` for the entries of a mapping. -/
def decidableKeyedOnceEntries : (es : List (Key × Tree α)) → Decidable (KeyedOnceEntries es)
  | [] => .isTrue trivial
  | (_, v) :: es =>
    have := decidableKeyedOnce v
    have := decidableKeyedOnceEntries es
    inferInstanceAs (Decidable (_ ∧ _ ∧ _))

end

instance (es : List (Key × Tree α)) : Decidable (KeyedOnceEntries es) :=
  decidableKeyedOnceEntries es

/-- A text that is a key once is none of the other keys. -/
theorem notMem_of_same_eq_false {s : String} {es : List (Key × Tree α)}
    (h : ∀ l ∈ es.map (·.1), (Key.str s).same l = false) : Key.str s ∉ es.map (·.1) := by
  intro hmem
  have hself := h _ hmem
  rw [Key.same_str_iff.2 rfl] at hself
  cases hself

mutual

theorem keyedOnce_of_named : (t : Tree α) → t.Named kind → t.KeyedOnce
  | atom _, _ => trivial
  | list _ _, _ => trivial
  | map _ es, h => keyedOnceEntries_of_named es h
  | tuple _, _ => trivial
  | set _, _ => trivial

theorem keyedOnceEntries_of_named :
    (es : List (Key × Tree α)) → NamedEntries kind es → KeyedOnceEntries es
  | [], _ => trivial
  | (k, v) :: es, ⟨⟨s, hk, _⟩, hnot, hv, hes⟩ => by
    subst hk
    refine ⟨fun l hl => ?_, keyedOnce_of_named v hv, keyedOnceEntries_of_named es hes⟩
    rw [Bool.eq_false_iff]
    intro hsame
    exact hnot (Key.same_str_iff.1 hsame ▸ hl)

end

theorem keyedOnce_of_find? {k : Key} {v : Tree α} {es : List (Key × Tree α)}
    (h : KeyedOnceEntries es) (hfind : Entries.find? k es = some v) : v.KeyedOnce := by
  induction es with
  | nil => cases hfind
  | cons e es ih =>
    obtain ⟨l, w⟩ := e
    obtain ⟨-, hw, hes⟩ := h
    rw [Entries.find?] at hfind
    split at hfind
    · cases hfind
      exact hw
    · exact ih hes hfind

theorem mem_of_find? {s : String} {v : Tree α} {es : List (Key × Tree α)}
    (h : Entries.find? (.str s) es = some v) : (Key.str s, v) ∈ es := by
  obtain ⟨k, hmem, hsame⟩ := Entries.exists_of_find? h
  exact Key.same_str_iff.1 hsame ▸ hmem

theorem distinct_of_keyedOnce {es : List (Key × Tree α)} (h : KeyedOnceEntries es) :
    Entries.Distinct es := by
  induction es with
  | nil => exact List.Pairwise.nil
  | cons e es ih =>
    obtain ⟨hnew, -, hrest⟩ := h
    exact List.pairwise_cons.2 ⟨fun f hf => hnew f.1 (List.mem_map_of_mem hf), ih hrest⟩

theorem find?_of_mem {s : String} {v : Tree α} {es : List (Key × Tree α)}
    (hes : KeyedOnceEntries es) (h : (Key.str s, v) ∈ es) : Entries.find? (.str s) es = some v :=
  Entries.find?_of_mem (distinct_of_keyedOnce hes) h (Key.same_str_iff.2 rfl)

/-! ## Other tags -/

section MapTag

variable {β : Type} (f : α → β)

theorem keys_mapTagEntries (es : List (Key × Tree α)) :
    (mapTagEntries f es).map (·.1) = es.map (·.1) := by
  induction es with
  | nil => rfl
  | cons e es ih => exact congrArg (e.1 :: ·) ih

mutual

/-- A tree stays named under other tags. -/
theorem named_mapTag : (t : Tree α) → t.Named kind → (t.mapTag f).Named kind
  | atom _, h => h
  | list _ _, h => h
  | map _ es, h => namedEntries_mapTagEntries es h
  | tuple _, h => h
  | set _, h => h

theorem namedEntries_mapTagEntries :
    (es : List (Key × Tree α)) → NamedEntries kind es → NamedEntries kind (mapTagEntries f es)
  | [], h => h
  | (k, v) :: es, ⟨hk, hnot, hv, hes⟩ => by
    refine ⟨hk, ?_, named_mapTag v hv, namedEntries_mapTagEntries es hes⟩
    rwa [keys_mapTagEntries]

end

end MapTag

end LayeredConfig.Tree
