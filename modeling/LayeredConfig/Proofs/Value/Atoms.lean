import LayeredConfig.Proofs.Path.Legible
import LayeredConfig.Proofs.Path.Settled
import LayeredConfig.Template.Literal

/-!
# What trees are made of

A tree is made of the scalars that stand in it as values, in its keys or in its
sets.  What is taken out of trees, copied or built from them is made of the same
scalars, and of few others: the texts, the words that literals stand for, and the
numbers of which a row of bytes consists.

* `Tree.MadeOf` — every scalar of the tree passes a test.
* `Atom.Common` — a test that everything passes that may come in besides.
* `Tree.madeOf_of_mem_flatten` — what a tree is made of, its leaves are made of.
* `Tree.madeOf_writeEntries`, `Tree.madeOf_writeRevision`, `Tree.madeOf_revise` — writes bring in
  nothing else.
-/

namespace LayeredConfig

mutual

/-- The scalars of a key. -/
def Key.atoms : Key → List Atom
  | .atom a => [a]
  | .tuple items => Key.itemAtoms items

/-- The scalars of a row of keys. -/
def Key.itemAtoms : List Key → List Atom
  | [] => []
  | k :: ks => Key.atoms k ++ Key.itemAtoms ks

end

/-- Texts, words that literals stand for and numbers pass the test. -/
structure Atom.Common (p : Atom → Prop) : Prop where
  str (s : String) : p (.str s)
  undefined : p .undefined
  null : p .null
  bool (b : Bool) : p (.bool b)
  int (n : Int) : p (.int n)

/-- Everything common is something else than the scalar of a look-up that has found nothing. -/
theorem Atom.common_ne_missing : Atom.Common (· ≠ .missing) where
  str _ := nofun
  undefined := nofun
  null := nofun
  bool _ := nofun
  int _ := nofun

namespace Tree

variable {α β : Type}

mutual

/-- The scalars that stand in a tree, in its keys and in its sets. -/
def atoms : Tree α → List Atom
  | atom a => [a]
  | list _ items => itemAtoms items
  | map _ es => entryAtoms es
  | tuple items => itemAtoms items
  | set members => Key.itemAtoms members

/-- The scalars of the items of a list. -/
def itemAtoms : List (Tree α) → List Atom
  | [] => []
  | x :: xs => atoms x ++ itemAtoms xs

/-- The scalars of the entries of a mapping. -/
def entryAtoms : List (Key × Tree α) → List Atom
  | [] => []
  | (k, v) :: es => k.atoms ++ atoms v ++ entryAtoms es

end

variable {p : Atom → Prop}

/-- Every scalar of the tree passes a test. -/
def MadeOf (p : Atom → Prop) (t : Tree α) : Prop :=
  ∀ a ∈ t.atoms, p a

/-- Every scalar of the key and of the value passes a test. -/
def EntryMadeOf (p : Atom → Prop) (e : Key × Tree α) : Prop :=
  (∀ a ∈ e.1.atoms, p a) ∧ e.2.MadeOf p

theorem madeOf_ne_iff {a : Atom} {t : Tree α} : t.MadeOf (· ≠ a) ↔ a ∉ t.atoms :=
  ⟨fun h ha => h a ha rfl, fun h _ hb hab => h (hab ▸ hb)⟩

/-! ## What containers are made of -/

@[simp] theorem madeOf_atom_iff {a : Atom} : (atom a : Tree α).MadeOf p ↔ p a := by
  simp [MadeOf, atoms]

theorem mem_itemAtoms_iff {items : List (Tree α)} {a : Atom} :
    a ∈ itemAtoms items ↔ ∃ x ∈ items, a ∈ x.atoms := by
  induction items with
  | nil => simp [itemAtoms]
  | cons x xs ih => simp [itemAtoms, ih]

theorem mem_entryAtoms_iff {es : List (Key × Tree α)} {a : Atom} :
    a ∈ entryAtoms es ↔ ∃ e ∈ es, a ∈ e.1.atoms ∨ a ∈ e.2.atoms := by
  induction es with
  | nil => simp [entryAtoms]
  | cons e es ih =>
    obtain ⟨k, v⟩ := e
    simp [entryAtoms, ih, or_assoc]

theorem forall_mem_itemAtoms_iff {items : List (Tree α)} :
    (∀ a ∈ itemAtoms items, p a) ↔ ∀ x ∈ items, x.MadeOf p := by
  simp only [MadeOf, mem_itemAtoms_iff]
  exact ⟨fun h x hx a ha => h a ⟨x, hx, ha⟩, fun h a ⟨x, hx, ha⟩ => h x hx a ha⟩

theorem madeOf_list_iff {t : α} {items : List (Tree α)} :
    (list t items).MadeOf p ↔ ∀ x ∈ items, x.MadeOf p :=
  forall_mem_itemAtoms_iff

theorem madeOf_tuple_iff {items : List (Tree α)} :
    (tuple items).MadeOf p ↔ ∀ x ∈ items, x.MadeOf p :=
  forall_mem_itemAtoms_iff

theorem madeOf_map_iff {t : α} {es : List (Key × Tree α)} :
    (map t es).MadeOf p ↔ ∀ e ∈ es, EntryMadeOf p e := by
  simp only [MadeOf, atoms, mem_entryAtoms_iff]
  constructor
  · exact fun h e he => ⟨fun a ha => h a ⟨e, he, Or.inl ha⟩, fun a ha => h a ⟨e, he, Or.inr ha⟩⟩
  · rintro h a ⟨e, he, ha | ha⟩
    · exact (h e he).1 a ha
    · exact (h e he).2 a ha

/-! ## The same scalars -/

mutual

@[simp] theorem atoms_mapTag (f : α → β) : (t : Tree α) → (t.mapTag f).atoms = t.atoms
  | atom _ => rfl
  | list _ items => itemAtoms_mapTagItems f items
  | map _ es => entryAtoms_mapTagEntries f es
  | tuple items => itemAtoms_mapTagItems f items
  | set _ => rfl

theorem itemAtoms_mapTagItems (f : α → β) :
    (items : List (Tree α)) → itemAtoms (mapTagItems f items) = itemAtoms items
  | [] => rfl
  | x :: xs => by rw [mapTagItems, itemAtoms, atoms_mapTag f x, itemAtoms_mapTagItems f xs, itemAtoms]

theorem entryAtoms_mapTagEntries (f : α → β) :
    (es : List (Key × Tree α)) → entryAtoms (mapTagEntries f es) = entryAtoms es
  | [] => rfl
  | (_, v) :: es => by
    rw [mapTagEntries, entryAtoms, atoms_mapTag f v, entryAtoms_mapTagEntries f es, entryAtoms]

end

mutual

@[simp] theorem atoms_copy [Inhabited α] : (t : Tree α) → t.copy.atoms = t.atoms
  | atom _ => rfl
  | list _ items => itemAtoms_copyItems items
  | map _ es => entryAtoms_copyEntries es
  | tuple items => itemAtoms_copyItems items
  | set _ => rfl

theorem itemAtoms_copyItems [Inhabited α] :
    (items : List (Tree α)) → itemAtoms (copyItems items) = itemAtoms items
  | [] => rfl
  | x :: xs => by rw [copyItems, itemAtoms, atoms_copy x, itemAtoms_copyItems xs, itemAtoms]

theorem entryAtoms_copyEntries [Inhabited α] :
    (es : List (Key × Tree α)) → entryAtoms (copyEntries es) = entryAtoms es
  | [] => rfl
  | (_, v) :: es => by
    rw [copyEntries, entryAtoms, atoms_copy v, entryAtoms_copyEntries es, entryAtoms]

end

@[simp] theorem atoms_unmarked (v : Value) : v.unmarked.atoms = v.atoms :=
  atoms_mapTag _ v

@[simp] theorem atoms_withMark (share : Share) (v : Shared) :
    (v.withMark share).atoms = v.atoms := by
  cases v <;> rfl

/-! ## What is taken out of trees -/

theorem madeOf_of_place? (hp : Atom.Common p) {t u : Tree α} (h : t.MadeOf p) {i : Nat}
    (hu : t.place? i = some u) : u.MadeOf p := by
  cases t with
  | list tag items => exact madeOf_list_iff.1 h u (List.mem_of_getElem? hu)
  | tuple items => exact madeOf_tuple_iff.1 h u (List.mem_of_getElem? hu)
  | map tag es =>
    obtain ⟨e, he, rfl⟩ := Option.map_eq_some_iff.1 hu
    exact (madeOf_map_iff.1 h e (List.mem_of_getElem? he)).2
  | set members => cases hu
  | atom a =>
    cases a with
    | bytes bs =>
      rw [place?, List.getElem?_map] at hu
      obtain ⟨b, -, rfl⟩ := Option.map_eq_some_iff.1 hu
      exact madeOf_atom_iff.2 (hp.int _)
    | _ => cases hu

/-- What stands in a tree is made of what the tree is made of. -/
theorem madeOf_of_descend (hp : Atom.Common p) {t u : Tree α} (h : t.MadeOf p) {steps : List Nat}
    (hu : t.descend steps = some u) : u.MadeOf p := by
  induction steps generalizing t with
  | nil =>
    cases hu
    exact h
  | cons i steps ih =>
    obtain ⟨x, hx, hux⟩ := Option.bind_eq_some_iff.1 hu
    exact ih (madeOf_of_place? hp h hx) hux

mutual

theorem madeOf_of_mem_leavesAt {leaf : String × Tree α} (path : String) :
    (v : Tree α) → v.MadeOf p → leaf ∈ leavesAt path v → leaf.2.MadeOf p
  | map _ [], h, hmem => List.mem_singleton.1 hmem ▸ h
  | map _ (e :: es), h, hmem => madeOf_of_mem_entryLeaves path (e :: es) (madeOf_map_iff.1 h) hmem
  | atom _, h, hmem => List.mem_singleton.1 hmem ▸ h
  | list _ _, h, hmem => List.mem_singleton.1 hmem ▸ h
  | tuple _, h, hmem => List.mem_singleton.1 hmem ▸ h
  | set _, h, hmem => List.mem_singleton.1 hmem ▸ h

theorem madeOf_of_mem_entryLeaves {leaf : String × Tree α} (parent : String) :
    (es : List (Key × Tree α)) → (∀ e ∈ es, EntryMadeOf p e) → leaf ∈ entryLeaves parent es →
      leaf.2.MadeOf p
  | [], _, hmem => by cases hmem
  | (k, v) :: es, h, hmem => by
    obtain ⟨⟨-, hv⟩, hes⟩ := List.forall_mem_cons.1 h
    rcases List.mem_append.1 hmem with hfirst | hrest
    · exact madeOf_of_mem_leavesAt (Path.extend parent k.text) v hv hfirst
    · exact madeOf_of_mem_entryLeaves parent es hes hrest

end

/-- What a tree is made of, its leaves are made of. -/
theorem madeOf_of_mem_flatten {t : Tree α} (h : t.MadeOf p) {parent : String} {leaves : Flat α}
    (hleaves : t.flatten parent = .ok leaves) : ∀ leaf ∈ leaves, leaf.2.MadeOf p := by
  obtain ⟨tag, es, rfl, -, rfl⟩ := flatten_eq_ok_iff.1 hleaves
  exact fun leaf hmem =>
    madeOf_of_mem_entryLeaves parent es (madeOf_map_iff.1 h) (Flat.mem_of_mem_ofList hmem)

/-! ## Literals -/

theorem madeOf_str (hp : Atom.Common p) (s : String) : (str s : Tree α).MadeOf p :=
  madeOf_atom_iff.2 (hp.str s)

theorem madeOf_undefined (hp : Atom.Common p) : (undefined : Tree α).MadeOf p :=
  madeOf_atom_iff.2 hp.undefined

theorem madeOf_literal (hp : Atom.Common p) (s : String) :
    (Template.literal s : Tree α).MadeOf p := by
  unfold Template.literal
  split
  · rename_i a ha
    rw [madeOf_atom_iff]
    unfold Template.wordValue? at ha
    split_ifs at ha <;> cases ha
    exacts [hp.undefined, hp.null, hp.bool true, hp.bool false]
  · split <;> exact madeOf_str hp _

theorem madeOf_coerce (hp : Atom.Common p) (given : Tree α) {v : Tree β} (h : v.MadeOf p) :
    (Template.coerce given v).MadeOf p := by
  unfold Template.coerce
  split
  · split
    · split
      · exact h
      · exact madeOf_literal hp _
    · exact madeOf_literal hp _
  · exact h

/-! ## Writes -/

theorem entryMadeOf_insert (hp : Atom.Common p) {s : String} {v : Tree α} (hv : v.MadeOf p)
    {es : List (Key × Tree α)} (hes : ∀ e ∈ es, EntryMadeOf p e) :
    ∀ e ∈ Entries.insert (.str s) v es, EntryMadeOf p e := by
  intro e he
  refine ⟨?_, Entries.forall_mem_insert hv (fun e he => (hes e he).2) e he⟩
  rcases keys_insert_subset (List.mem_map_of_mem he) with hkey | hkey
  · rw [hkey]
    simpa [Key.atoms] using hp.str s
  · obtain ⟨e', he', hkey⟩ := List.mem_map.1 hkey
    exact hkey ▸ (hes e' he').1

theorem madeOf_writeEntries [Inhabited α] (hp : Atom.Common p) {v : Tree α} (hv : v.MadeOf p)
    (segments : List String) {es : List (Key × Tree α)} (hes : ∀ e ∈ es, EntryMadeOf p e) :
    ∀ e ∈ writeEntries v segments es, EntryMadeOf p e := by
  induction segments generalizing es with
  | nil => exact hes
  | cons s ss ih =>
    cases ss with
    | nil => exact entryMadeOf_insert hp hv hes
    | cons s' ss =>
      unfold writeEntries
      split
      · rename_i tag sub hfind
        obtain ⟨k, hk, -⟩ := Entries.exists_of_find? hfind
        have hsub : ∀ e ∈ sub, EntryMadeOf p e := madeOf_map_iff.1 (hes _ hk).2
        exact entryMadeOf_insert hp (madeOf_map_iff.2 (ih hsub)) hes
      · have hnil : ∀ e ∈ ([] : List (Key × Tree α)), EntryMadeOf p e := by simp
        exact entryMadeOf_insert hp (madeOf_map_iff.2 (ih hnil)) hes

/-- The container that a write changes wherever it occurs is made of what was there and of what is
written. -/
theorem madeOf_writeRevision (hp : Atom.Common p) {v : Shared} (hv : v.MadeOf p)
    {segments : List String} {es : List (Key × Shared)} (hes : ∀ e ∈ es, EntryMadeOf p e)
    {rev : Revision} (h : writeRevision? v segments es = some rev) : rev.content.MadeOf p := by
  induction segments generalizing es with
  | nil => simp [writeRevision?] at h
  | cons s ss ih =>
    obtain ⟨_, _, m, sub, ⟨⟩, hfind, hrev⟩ := writeRevision?_cases h
    obtain ⟨k, hk, -⟩ := Entries.exists_of_find? hfind
    have hsub : ∀ e ∈ sub, EntryMadeOf p e := madeOf_map_iff.1 (hes _ hk).2
    rcases hrev with hdeeper | ⟨-, hcontent⟩
    · exact ih hsub hdeeper
    · rw [hcontent]
      exact madeOf_map_iff.2 (madeOf_writeEntries hp hv ss hsub)

mutual

theorem madeOf_replaceShare (share : Share) {new : Shared} (hnew : new.MadeOf p) :
    (t : Shared) → t.MadeOf p → (replaceShare share new t).MadeOf p
  | atom _, h => h
  | list _ items, h => by
    unfold replaceShare
    split
    · exact hnew
    · exact madeOf_list_iff.2 (madeOf_replaceShareItems share hnew items (madeOf_list_iff.1 h))
  | map _ es, h => by
    unfold replaceShare
    split
    · exact hnew
    · exact madeOf_map_iff.2 (madeOf_replaceShareEntries share hnew es (madeOf_map_iff.1 h))
  | tuple items, h =>
    madeOf_tuple_iff.2 (madeOf_replaceShareItems share hnew items (madeOf_tuple_iff.1 h))
  | set _, h => h

theorem madeOf_replaceShareItems (share : Share) {new : Shared} (hnew : new.MadeOf p) :
    (items : List Shared) → (∀ x ∈ items, x.MadeOf p) →
      ∀ x ∈ replaceShareItems share new items, x.MadeOf p
  | [], _ => nofun
  | x :: xs, h => by
    obtain ⟨hx, hxs⟩ := List.forall_mem_cons.1 h
    exact List.forall_mem_cons.2
      ⟨madeOf_replaceShare share hnew x hx, madeOf_replaceShareItems share hnew xs hxs⟩

theorem madeOf_replaceShareEntries (share : Share) {new : Shared} (hnew : new.MadeOf p) :
    (es : List (Key × Shared)) → (∀ e ∈ es, EntryMadeOf p e) →
      ∀ e ∈ replaceShareEntries share new es, EntryMadeOf p e
  | [], _ => nofun
  | (_, v) :: es, h => by
    obtain ⟨⟨hk, hv⟩, hes⟩ := List.forall_mem_cons.1 h
    exact List.forall_mem_cons.2
      ⟨⟨hk, madeOf_replaceShare share hnew v hv⟩, madeOf_replaceShareEntries share hnew es hes⟩

end

/-- A change of a container brings in what its new content is made of. -/
theorem madeOf_revise {rev : Revision} (hrev : rev.content.MadeOf p) {t : Shared}
    (h : t.MadeOf p) : (t.revise rev).MadeOf p :=
  madeOf_replaceShare rev.share hrev t h

end Tree

end LayeredConfig
