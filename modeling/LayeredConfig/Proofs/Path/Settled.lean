import LayeredConfig.Proofs.Path.Places
import LayeredConfig.Proofs.Path.Writes
import LayeredConfig.Proofs.Value.Distinct
import LayeredConfig.Template.Placeholder

/-!
# Settled trees

A tree is settled if no text in it has a placeholder, however deep it stands.
The containers of a settled tree are settled, and so is every tree that is built
by writing settled values into a settled one, through shared containers too.

* `Tree.settled_list_iff`, `Tree.settled_map_iff` — a container is settled if
  and only if what it holds is.
* `Tree.settled_of_mem_entryLeaves` — the leaves of a settled tree are settled.
* `Tree.settled_writeEntries`, `Tree.settled_writeRevision` — writes keep trees
  settled.
-/

namespace LayeredConfig

namespace Entries

variable {β : Type}

/-- What holds of a value and of the values of entries holds after the value is written. -/
theorem forall_mem_insert {p : β → Prop} {k : Key} {v : β} {es : List (Key × β)} (hv : p v)
    (h : ∀ e ∈ es, p e.2) : ∀ e ∈ insert k v es, p e.2 := by
  induction es with
  | nil => simpa [insert] using hv
  | cons e es ih =>
    obtain ⟨k', w⟩ := e
    have hrest : ∀ e ∈ es, p e.2 := fun e he => h e (List.mem_cons_of_mem _ he)
    unfold insert
    split
    · intro e he
      rcases List.mem_cons.1 he with rfl | he
      · exact hv
      · exact hrest e he
    · intro e he
      rcases List.mem_cons.1 he with rfl | he
      · exact h _ List.mem_cons_self
      · exact ih hrest e he

end Entries

namespace Tree

variable {α : Type}

/-- No text that stands in the tree has a placeholder. -/
def Settled (t : Tree α) : Prop :=
  ∀ steps s, t.descend steps = some (.str s) → Template.hasPlaceholder s.toList = false

/-! ## What a settled tree holds -/

theorem settled_str_iff {s : String} :
    (str s : Tree α).Settled ↔ Template.hasPlaceholder s.toList = false := by
  constructor
  · exact fun h => h [] s rfl
  · intro h steps t ht
    cases steps with
    | nil =>
      cases ht
      exact h
    | cons i steps => cases ht

theorem settled_atom {a : Atom} (h : ∀ s, a ≠ .str s) : (atom a : Tree α).Settled := by
  intro steps s hs
  cases steps with
  | nil =>
    cases hs
    exact absurd rfl (h s)
  | cons i steps =>
    cases a with
    | bytes bs =>
      -- the bytes of a row of bytes are numbers, and nothing stands below them
      obtain ⟨t, ht, hst⟩ := Option.bind_eq_some_iff.1 hs
      rw [place?, List.getElem?_map] at ht
      obtain ⟨b, -, rfl⟩ := Option.map_eq_some_iff.1 ht
      cases steps with
      | nil => cases hst
      | cons j steps => cases hst
    | _ => cases hs

theorem settled_set (members : List Key) : (set members : Tree α).Settled := by
  intro steps s hs
  cases steps <;> cases hs

/-- A value that is no text is settled if and only if its children are. -/
theorem settled_iff_of_place? {t : Tree α} {children : List (Tree α)} (hne : ∀ s, t ≠ .str s)
    (hplace : ∀ i, t.place? i = children[i]?) : t.Settled ↔ ∀ x ∈ children, x.Settled := by
  constructor
  · intro h x hx steps s hs
    obtain ⟨i, hi⟩ := List.mem_iff_getElem?.1 hx
    refine h (i :: steps) s ?_
    rw [descend, hplace, hi]
    exact hs
  · intro h steps s hs
    cases steps with
    | nil => exact absurd (Option.some.inj hs) (hne s)
    | cons i steps =>
      obtain ⟨x, hx, hsx⟩ := Option.bind_eq_some_iff.1 hs
      rw [hplace] at hx
      exact h x (List.mem_of_getElem? hx) steps s hsx

theorem settled_list_iff {tag : α} {items : List (Tree α)} :
    (list tag items).Settled ↔ ∀ x ∈ items, x.Settled :=
  settled_iff_of_place? (fun _ h => by cases h) fun _ => rfl

theorem settled_tuple_iff {items : List (Tree α)} :
    (tuple items).Settled ↔ ∀ x ∈ items, x.Settled :=
  settled_iff_of_place? (fun _ h => by cases h) fun _ => rfl

theorem settled_map_iff {tag : α} {es : List (Key × Tree α)} :
    (map tag es).Settled ↔ ∀ e ∈ es, e.2.Settled := by
  have h : (map tag es).Settled ↔ ∀ x ∈ es.map (·.2), x.Settled :=
    settled_iff_of_place? (fun _ h => by cases h) fun i => by rw [place?, List.getElem?_map]
  rw [h, List.forall_mem_map]

theorem settled_withMark {v : Shared} (h : v.Settled) (share : Share) :
    (v.withMark share).Settled := by
  cases v with
  | list m items => exact settled_list_iff.2 (settled_list_iff.1 h)
  | map m es => exact settled_map_iff.2 (settled_map_iff.1 h)
  | _ => exact h

/-! ## Leaves -/

mutual

/-- The leaves of a settled tree are settled. -/
theorem settled_of_mem_leavesAt {leaf : String × Tree α} (path : String) :
    (v : Tree α) → v.Settled → leaf ∈ leavesAt path v → leaf.2.Settled
  | map _ [], h, hmem => by
    obtain rfl := List.mem_singleton.1 hmem
    exact h
  | map _ (e :: es), h, hmem =>
    settled_of_mem_entryLeaves path (e :: es) (settled_map_iff.1 h) hmem
  | atom _, h, hmem => by
    obtain rfl := List.mem_singleton.1 hmem
    exact h
  | list _ _, h, hmem => by
    obtain rfl := List.mem_singleton.1 hmem
    exact h
  | tuple _, h, hmem => by
    obtain rfl := List.mem_singleton.1 hmem
    exact h
  | set _, h, hmem => by
    obtain rfl := List.mem_singleton.1 hmem
    exact h

theorem settled_of_mem_entryLeaves {leaf : String × Tree α} (parent : String) :
    (es : List (Key × Tree α)) → (∀ e ∈ es, e.2.Settled) → leaf ∈ entryLeaves parent es →
      leaf.2.Settled
  | [], _, hmem => by cases hmem
  | (k, v) :: es, h, hmem => by
    obtain ⟨hv, hes⟩ := List.forall_mem_cons.1 h
    rcases List.mem_append.1 hmem with hfirst | hrest
    · exact settled_of_mem_leavesAt (Path.extend parent k.text) v hv hfirst
    · exact settled_of_mem_entryLeaves parent es hes hrest

end

/-! ## Copies -/

mutual

theorem settled_copy [Inhabited α] : (v : Tree α) → v.Settled → v.copy.Settled
  | atom _, h => h
  | list _ items, h => settled_list_iff.2 (settled_copyItems items (settled_list_iff.1 h))
  | tuple items, h => settled_list_iff.2 (settled_copyItems items (settled_tuple_iff.1 h))
  | map _ es, h => settled_map_iff.2 (settled_copyEntries es (settled_map_iff.1 h))
  | set _, h => h

theorem settled_copyItems [Inhabited α] :
    (items : List (Tree α)) → (∀ x ∈ items, x.Settled) → ∀ x ∈ copyItems items, x.Settled
  | [], _ => nofun
  | x :: xs, h => by
    obtain ⟨hx, hxs⟩ := List.forall_mem_cons.1 h
    exact List.forall_mem_cons.2 ⟨settled_copy x hx, settled_copyItems xs hxs⟩

theorem settled_copyEntries [Inhabited α] :
    (es : List (Key × Tree α)) → (∀ e ∈ es, e.2.Settled) → ∀ e ∈ copyEntries es, e.2.Settled
  | [], _ => nofun
  | (k, v) :: es, h => by
    obtain ⟨hv, hes⟩ := List.forall_mem_cons.1 h
    exact List.forall_mem_cons.2 ⟨settled_copy v hv, settled_copyEntries es hes⟩

end

/-! ## Other tags -/

mutual

theorem settled_mapTag {β : Type} (f : α → β) : (v : Tree α) → v.Settled → (v.mapTag f).Settled
  | atom a, h => by
    by_cases hstr : ∃ s, a = .str s
    · obtain ⟨s, rfl⟩ := hstr
      exact settled_str_iff.2 (settled_str_iff.1 h)
    · exact settled_atom fun s hs => hstr ⟨s, hs⟩
  | list _ items, h => settled_list_iff.2 (settled_mapTagItems f items (settled_list_iff.1 h))
  | tuple items, h => settled_tuple_iff.2 (settled_mapTagItems f items (settled_tuple_iff.1 h))
  | map _ es, h => settled_map_iff.2 (settled_mapTagEntries f es (settled_map_iff.1 h))
  | set members, _ => settled_set members

theorem settled_mapTagItems {β : Type} (f : α → β) :
    (items : List (Tree α)) → (∀ x ∈ items, x.Settled) → ∀ x ∈ mapTagItems f items, x.Settled
  | [], _ => nofun
  | x :: xs, h => by
    obtain ⟨hx, hxs⟩ := List.forall_mem_cons.1 h
    exact List.forall_mem_cons.2 ⟨settled_mapTag f x hx, settled_mapTagItems f xs hxs⟩

theorem settled_mapTagEntries {β : Type} (f : α → β) :
    (es : List (Key × Tree α)) → (∀ e ∈ es, e.2.Settled) →
      ∀ e ∈ mapTagEntries f es, e.2.Settled
  | [], _ => nofun
  | (k, v) :: es, h => by
    obtain ⟨hv, hes⟩ := List.forall_mem_cons.1 h
    exact List.forall_mem_cons.2 ⟨settled_mapTag f v hv, settled_mapTagEntries f es hes⟩

end

/-! ## Writes -/

/-- Writing a settled value below settled entries leaves them settled. -/
theorem settled_writeEntries [Inhabited α] {v : Tree α} (hv : v.Settled) (segments : List String)
    {es : List (Key × Tree α)} (hes : ∀ e ∈ es, e.2.Settled) :
    ∀ e ∈ writeEntries v segments es, e.2.Settled := by
  induction segments generalizing es with
  | nil => exact hes
  | cons s ss ih =>
    cases ss with
    | nil => exact Entries.forall_mem_insert hv hes
    | cons s' ss =>
      unfold writeEntries
      split
      · rename_i tag sub hfind
        obtain ⟨k, hk, -⟩ := Entries.exists_of_find? hfind
        have hsub : ∀ e ∈ sub, e.2.Settled := settled_map_iff.1 (hes _ hk)
        exact Entries.forall_mem_insert (settled_map_iff.2 (ih hsub)) hes
      · have hnil : ∀ e ∈ ([] : List (Key × Tree α)), e.2.Settled := by simp
        exact Entries.forall_mem_insert (settled_map_iff.2 (ih hnil)) hes

/-- The container that a write changes wherever it occurs is settled afterwards. -/
theorem settled_writeRevision {v : Shared} (hv : v.Settled) {segments : List String}
    {es : List (Key × Shared)} (hes : ∀ e ∈ es, e.2.Settled) {rev : Revision}
    (h : writeRevision? v segments es = some rev) : rev.content.Settled := by
  induction segments generalizing es with
  | nil => simp [writeRevision?] at h
  | cons s ss ih =>
    obtain ⟨_, _, m, sub, ⟨⟩, hfind, hrev⟩ := writeRevision?_cases h
    obtain ⟨k, hk, -⟩ := Entries.exists_of_find? hfind
    have hsub : ∀ e ∈ sub, e.2.Settled := settled_map_iff.1 (hes _ hk)
    rcases hrev with hdeeper | ⟨-, hcontent⟩
    · exact ih hsub hdeeper
    · rw [hcontent]
      exact settled_map_iff.2 (settled_writeEntries hv ss hsub)

mutual

/-- New settled content leaves a settled tree settled. -/
theorem settled_replaceShare (share : Share) {new : Shared} (hnew : new.Settled) :
    (t : Shared) → t.Settled → (replaceShare share new t).Settled
  | atom _, h => h
  | list m items, h => by
    unfold replaceShare
    split
    · exact hnew
    · exact settled_list_iff.2 (settled_replaceShareItems share hnew items (settled_list_iff.1 h))
  | map m es, h => by
    unfold replaceShare
    split
    · exact hnew
    · exact settled_map_iff.2 (settled_replaceShareEntries share hnew es (settled_map_iff.1 h))
  | tuple items, h =>
    settled_tuple_iff.2 (settled_replaceShareItems share hnew items (settled_tuple_iff.1 h))
  | set _, h => h

theorem settled_replaceShareItems (share : Share) {new : Shared} (hnew : new.Settled) :
    (items : List Shared) → (∀ x ∈ items, x.Settled) →
      ∀ x ∈ replaceShareItems share new items, x.Settled
  | [], _ => by simp [replaceShareItems]
  | x :: xs, h => by
    intro y hy
    rcases List.mem_cons.1 hy with rfl | hy
    · exact settled_replaceShare share hnew x (h x List.mem_cons_self)
    · exact settled_replaceShareItems share hnew xs
        (fun z hz => h z (List.mem_cons_of_mem _ hz)) y hy

theorem settled_replaceShareEntries (share : Share) {new : Shared} (hnew : new.Settled) :
    (es : List (Key × Shared)) → (∀ e ∈ es, e.2.Settled) →
      ∀ e ∈ replaceShareEntries share new es, e.2.Settled
  | [], _ => by simp [replaceShareEntries]
  | (k, v) :: es, h => by
    intro e he
    rcases List.mem_cons.1 he with rfl | he
    · exact settled_replaceShare share hnew v (h _ List.mem_cons_self)
    · exact settled_replaceShareEntries share hnew es
        (fun f hf => h f (List.mem_cons_of_mem _ hf)) e he

end

end Tree

end LayeredConfig
