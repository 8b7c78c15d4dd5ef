import LayeredConfig.Proofs.Path.Branches
import LayeredConfig.Proofs.Resolve.Cached

/-!
# A definition is resolved as one value

A pass takes a definition apart into its leaves and writes their values into a new
tree.  If the keys of the definition are segments and the functions compute, that
tree is what the definition has for its value when it is resolved as a whole: no
leaf comes in the way of another one, so no result that is used twice is changed.

* `Resolver.leavesWith_of_apart` — leaves that are apart get their own values.
* `Resolver.directAt_of_treeWith`, `Resolver.directAt_of_resolveTree` — the tree of a definition is
  its value.
-/

namespace LayeredConfig

variable {σ φ : Type}

/-! ## Values from their leaves -/

namespace Tree

variable {text : String → Below φ Value} {above : Finset Address} (f : Value → Value)

mutual

/-- A value whose leaves have values has the tree of these for its value. -/
theorem resolveWith_graft :
    (v : Value) → (∀ b ∈ branches v, resolveWith text b.2 above = .ok (f b.2)) →
      resolveWith text v above = .ok (graft f v)
  | map t [], h => h ([], map t []) (List.mem_singleton_self _)
  | map t (e :: es), h => by
    rw [resolveWith, Below.run_bind, resolveEntries_graft (e :: es) h]
    rfl
  | atom a, h => h ([], atom a) (List.mem_singleton_self _)
  | list t items, h => h ([], list t items) (List.mem_singleton_self _)
  | tuple items, h => h ([], tuple items) (List.mem_singleton_self _)
  | set members, h => h ([], set members) (List.mem_singleton_self _)

theorem resolveEntries_graft :
    (es : List (Key × Value)) →
      (∀ b ∈ entryBranches es, resolveWith text b.2 above = .ok (f b.2)) →
      resolveEntries text es above = .ok (graftEntries f es)
  | [], _ => rfl
  | (k, v) :: es, h => by
    have hv : ∀ b ∈ branches v, resolveWith text b.2 above = .ok (f b.2) := fun b hb =>
      h (k.text :: b.1, b.2) (List.mem_append_left _ (List.mem_map_of_mem hb))
    have hes : ∀ b ∈ entryBranches es, resolveWith text b.2 above = .ok (f b.2) := fun b hb =>
      h b (List.mem_append_right _ hb)
    rw [resolveEntries, Below.run_bind, resolveWith_graft v hv]
    dsimp only
    rw [Below.run_bind, resolveEntries_graft es hes]
    rfl

end

end Tree

/-! ## Places before and after -/

section Places

variable {text : String → Below φ Value} {above : Finset Address}

/-- Items have values item by item. -/
theorem forall₂_of_resolveItems {items items' : List Value}
    (h : resolveItems text items above = .ok items') :
    List.Forall₂ (fun v w => resolveWith text v above = .ok w) items items' := by
  induction items generalizing items' with
  | nil =>
    cases h
    exact .nil
  | cons x xs ih =>
    obtain ⟨y, hy, h⟩ := Below.exists_of_bind h
    obtain ⟨ys, hys, h⟩ := Below.exists_of_bind h
    cases h
    exact .cons hy (ih hys)

/-- Entries keep their keys, and have values entry by entry. -/
theorem forall₂_of_resolveEntries {es es' : List (Key × Value)}
    (h : resolveEntries text es above = .ok es') :
    List.Forall₂ (fun e e' => e.1 = e'.1 ∧ resolveWith text e.2 above = .ok e'.2) es es' := by
  induction es generalizing es' with
  | nil =>
    cases h
    exact .nil
  | cons e es ih =>
    obtain ⟨k, v⟩ := e
    obtain ⟨w, hw, h⟩ := Below.exists_of_bind h
    obtain ⟨rest, hrest, h⟩ := Below.exists_of_bind h
    cases h
    exact .cons ⟨rfl, hw⟩ (ih hrest)

theorem getElem?_of_forall₂ {β γ : Type} {Q : β → γ → Prop} {xs : List β} {ys : List γ}
    (h : List.Forall₂ Q xs ys) {i : Nat} {x : β} (hx : xs[i]? = some x) :
    ∃ y, ys[i]? = some y ∧ Q x y := by
  induction h generalizing i with
  | nil => cases hx
  | cons hxy _ ih =>
    cases i with
    | zero =>
      cases hx
      exact ⟨_, rfl, hxy⟩
    | succ i => exact ih hx

/-- The child at a place has its value at that place. -/
theorem place?_resolveWith {v w : Value} (h : resolveWith text v above = .ok w) {i : Nat}
    {u : Value} (hu : v.place? i = some u) :
    ∃ x, w.place? i = some x ∧ resolveWith text u above = .ok x := by
  have hitems : ∀ {items : List Value}, items[i]? = some u →
      (do return Tree.list () (← resolveItems text items) : Below φ Value) above = .ok w →
        ∃ x, w.place? i = some x ∧ resolveWith text u above = .ok x := by
    intro items hu h
    obtain ⟨items', hitems, h⟩ := Below.exists_of_bind h
    cases h
    exact getElem?_of_forall₂ (forall₂_of_resolveItems hitems) hu
  cases v with
  | list t items => exact hitems hu h
  | tuple items => exact hitems hu h
  | map t es =>
    obtain ⟨es', hes, h⟩ := Below.exists_of_bind h
    cases h
    obtain ⟨e, he, rfl⟩ := Option.map_eq_some_iff.1 hu
    obtain ⟨e', he', -, hv⟩ := getElem?_of_forall₂ (forall₂_of_resolveEntries hes) he
    exact ⟨e'.2, by rw [Tree.place?, he']; rfl, hv⟩
  | set members => cases hu
  | atom a =>
    cases a with
    | bytes bs =>
      cases h
      rw [Tree.place?, List.getElem?_map] at hu
      obtain ⟨b, hb, rfl⟩ := Option.map_eq_some_iff.1 hu
      exact ⟨_, by rw [Tree.place?, List.getElem?_map, hb]; rfl, rfl⟩
    | _ => cases hu

/-- What places lead to has its value where they lead to. -/
theorem descend_resolveWith {v w : Value} (h : resolveWith text v above = .ok w)
    {steps : List Nat} {u : Value} (hu : v.descend steps = some u) :
    ∃ x, w.descend steps = some x ∧ resolveWith text u above = .ok x := by
  induction steps generalizing v w with
  | nil =>
    cases hu
    exact ⟨w, rfl, h⟩
  | cons i steps ih =>
    obtain ⟨child, hchild, hu⟩ := Option.bind_eq_some_iff.1 hu
    obtain ⟨y, hy, hvalue⟩ := place?_resolveWith h hchild
    obtain ⟨x, hx, hux⟩ := ih hvalue hu
    exact ⟨x, by rw [Tree.descend, hy]; exact hx, hux⟩

theorem findPlace?_of_forall₂ {β γ : Type} {Q : β → γ → Prop} (test : Key → Bool)
    {es : List (Key × β)} {es' : List (Key × γ)}
    (h : List.Forall₂ (fun e e' => e.1 = e'.1 ∧ Q e.2 e'.2) es es') :
    Option.Rel (fun hit hit' => hit.1 = hit'.1 ∧ Q hit.2 hit'.2) (findPlace? test es)
      (findPlace? test es') := by
  induction h with
  | nil => exact .none
  | @cons e e' es es' he _ ih =>
    obtain ⟨k, v⟩ := e
    obtain ⟨k', v'⟩ := e'
    obtain ⟨rfl, hv⟩ := he
    unfold findPlace?
    split
    · exact .some ⟨rfl, hv⟩
    · generalize findPlace? test es = hit at ih ⊢
      generalize findPlace? test es' = hit' at ih ⊢
      cases ih with
      | none => exact .none
      | some hhit => exact .some ⟨congrArg (· + 1) hhit.1, hhit.2⟩

theorem textPlace?_of_forall₂ {Q : Value → Value → Prop} (s : String)
    {es es' : List (Key × Value)}
    (h : List.Forall₂ (fun e e' => e.1 = e'.1 ∧ Q e.2 e'.2) es es') {hit : Option (Nat × Value)}
    (hhit : Tree.textPlace? s es = .ok hit) :
    ∃ hit', Tree.textPlace? s es' = .ok hit' ∧
      Option.Rel (fun hit hit' => hit.1 = hit'.1 ∧ Q hit.2 hit'.2) hit hit' := by
  induction h generalizing hit with
  | nil =>
    cases hhit
    exact ⟨none, rfl, .none⟩
  | @cons e e' es es' he _ ih =>
    obtain ⟨k, v⟩ := e
    obtain ⟨k', v'⟩ := e'
    obtain ⟨rfl, hv⟩ := he
    rw [Tree.textPlace?] at hhit ⊢
    split_ifs at hhit ⊢
    · cases hhit
      exact ⟨_, rfl, .some ⟨rfl, hv⟩⟩
    · cases hfound : Tree.textPlace? s es with
      | error e =>
        rw [hfound] at hhit
        cases hhit
      | ok found =>
        rw [hfound] at hhit
        cases hhit
        obtain ⟨found', hfound', hrel⟩ := ih hfound
        rw [hfound']
        refine ⟨_, rfl, ?_⟩
        cases hrel with
        | none => exact .none
        | some hsame => exact .some ⟨congrArg (· + 1) hsame.1, hsame.2⟩

/-- A segment names the same place in entries with the same keys. -/
theorem namedPlace?_of_forall₂ {Q : Value → Value → Prop} (s : String)
    {es es' : List (Key × Value)}
    (h : List.Forall₂ (fun e e' => e.1 = e'.1 ∧ Q e.2 e'.2) es es') {hit : Option (Nat × Value)}
    (hhit : Tree.namedPlace? s es = .ok hit) :
    ∃ hit', Tree.namedPlace? s es' = .ok hit' ∧
      Option.Rel (fun hit hit' => hit.1 = hit'.1 ∧ Q hit.2 hit'.2) hit hit' := by
  have hkey := findPlace?_of_forall₂ (fun k => (Key.str s).same k) h
  unfold Tree.namedPlace? at hhit ⊢
  generalize findPlace? (fun k => (Key.str s).same k) es = found at hkey hhit
  generalize findPlace? (fun k => (Key.str s).same k) es' = found' at hkey ⊢
  cases hkey with
  | none => exact textPlace?_of_forall₂ s h hhit
  | some hsame =>
    cases hhit
    exact ⟨_, rfl, .some hsame⟩

theorem item?_eq_some_iff {α : Type} {s : String} {items : List (Tree α)} {i : Nat} {v : Tree α} :
    Tree.item? s items = .ok (some (i, v)) ↔
      Path.index? s = .ok (some i) ∧ items[i]? = some v := by
  unfold Tree.item?
  cases Path.index? s with
  | error e => simp [bind, Except.bind]
  | ok found =>
    cases found with
    | none => simp [bind, Except.bind, pure, Except.pure]
    | some j =>
      simp only [bind, Except.bind, pure, Except.pure, Except.ok.injEq, Option.map_eq_some_iff,
        Prod.mk.injEq, Option.some.injEq]
      constructor
      · rintro ⟨w, hw, rfl, rfl⟩
        exact ⟨rfl, hw⟩
      · rintro ⟨rfl, hv⟩
        exact ⟨v, hv, rfl, rfl⟩

/-- A segment names the same child before and after. -/
theorem child?_resolveWith {v w : Value} (h : resolveWith text v above = .ok w)
    {s : String} {i : Nat} {u : Value} (hu : Tree.child? s v = .ok (some (i, u))) :
    ∃ x, Tree.child? s w = .ok (some (i, x)) ∧ resolveWith text u above = .ok x := by
  have hitems : ∀ {items : List Value}, Tree.item? s items = .ok (some (i, u)) →
      (do return Tree.list () (← resolveItems text items) : Below φ Value) above = .ok w →
        ∃ x, Tree.child? s w = .ok (some (i, x)) ∧ resolveWith text u above = .ok x := by
    intro items hu h
    obtain ⟨items', hitems, h⟩ := Below.exists_of_bind h
    cases h
    obtain ⟨hindex, hu⟩ := item?_eq_some_iff.1 hu
    obtain ⟨x, hx, hvalue⟩ := getElem?_of_forall₂ (forall₂_of_resolveItems hitems) hu
    exact ⟨x, item?_eq_some_iff.2 ⟨hindex, hx⟩, hvalue⟩
  cases v with
  | list t items => exact hitems hu h
  | tuple items => exact hitems hu h
  | map t es =>
    obtain ⟨es', hes, h⟩ := Below.exists_of_bind h
    cases h
    obtain ⟨hit', hnamed, hrel⟩ := namedPlace?_of_forall₂
      (Q := fun v w => resolveWith text v above = .ok w) s (forall₂_of_resolveEntries hes) hu
    cases hrel with
    | @some _ hit' hhit =>
      obtain ⟨j, x⟩ := hit'
      obtain ⟨rfl, hvalue⟩ := hhit
      exact ⟨x, hnamed, hvalue⟩
  | set members => cases hu
  | atom a =>
    cases a with
    | bytes bs =>
      cases h
      refine ⟨u, hu, ?_⟩
      obtain ⟨-, hu⟩ := item?_eq_some_iff.1 hu
      rw [List.getElem?_map] at hu
      obtain ⟨b, -, rfl⟩ := Option.map_eq_some_iff.1 hu
      rfl
    | _ => cases hu

/-- Segments lead to the same place before and after, and to the value there. -/
theorem locate?_resolveWith {segments : List String} {v w : Value}
    (h : resolveWith text v above = .ok w) {steps : List Nat} {u : Value}
    (hu : Tree.locate? segments v = .ok (some (steps, u))) :
    ∃ x, Tree.locate? segments w = .ok (some (steps, x)) ∧ resolveWith text u above = .ok x := by
  induction segments generalizing v w steps with
  | nil =>
    cases hu
    exact ⟨w, rfl, h⟩
  | cons s ss ih =>
    obtain ⟨i, child, steps', hchild, hrest, rfl⟩ := Tree.exists_of_locate?_cons hu
    obtain ⟨y, hy, hvalue⟩ := child?_resolveWith h hchild
    obtain ⟨x, hx, hux⟩ := ih hvalue hrest
    exact ⟨x, Tree.locate?_cons hy hx, hux⟩

/-- A path leads to the same place before and after, and to the value there. -/
theorem find?_resolveWith {v w : Value} (h : resolveWith text v above = .ok w)
    {path : String} {steps : List Nat} {u : Value}
    (hu : Tree.find? path v = .ok (some (steps, u))) :
    ∃ x, Tree.find? path w = .ok (some (steps, x)) ∧ resolveWith text u above = .ok x := by
  unfold Tree.find? at hu ⊢
  split at hu
  · cases hu
  · rename_i hne
    rw [if_neg hne]
    exact locate?_resolveWith h hu

end Places

namespace Resolver

variable (r : Resolver σ φ) {answer : FnHandle → List Value → Except φ Value}

/-! ## Leaves that are apart -/

variable {I : σ → Prop} {resolve : Value → Run σ φ Shared}
  (hr : ∀ v, (Run.unaided I (r.direct answer)).rel (fun v w => v.erase = w) (resolve v)
    ((r.direct answer).resolve (r.passesLeft 0) v))

include hr

/-- Leaves that are apart are written as they are resolved, and each one has the value that it has
by itself. -/
theorem leavesWith_of_apart {leaves : Flat Unit}
    (hapart : leaves.Pairwise fun a b => Path.Apart (Path.split a.1) (Path.split b.1))
    {es es' : List (Key × Shared)}
    (hway : ∀ leaf ∈ leaves, Tree.Way (· = none) (fun _ => True) (Path.split leaf.1) es)
    {s t : Scratch σ} (hs : s.Sound (r.direct answer) ∧ I s.memory) (hactive : s.active = [])
    (hrun : (r.leavesWith resolve leaves es).run s = (.ok es', t)) :
    I t.memory ∧
    (∀ leaf ∈ leaves, ∃ w, r.directAt answer 0 leaf.2 = .ok w) ∧
      ∀ f : Value → Value, (∀ leaf ∈ leaves, r.directAt answer 0 leaf.2 = .ok (f leaf.2)) →
        Tree.mapTagEntries (fun _ => ()) es' =
          Tree.writeAll (leaves.map fun leaf => (Path.split leaf.1, f leaf.2))
            (Tree.mapTagEntries (fun _ => ()) es) := by
  induction leaves generalizing es s with
  | nil =>
    cases hrun
    exact ⟨hs.2, by simp, fun _ _ => rfl⟩
  | cons leaf leaves ih =>
    obtain ⟨path, v⟩ := leaf
    obtain ⟨hfirst, hapart⟩ := List.pairwise_cons.1 hapart
    obtain ⟨hway, hways⟩ := List.forall_mem_cons.1 hway
    obtain ⟨hend, hsound, htop⟩ := hr v s hs
    have hvalue := map_erase_of_sameEnd hend
    rw [hactive] at hvalue htop
    obtain ⟨w, s₁, hv, hrun⟩ := Run.exists_of_bind hrun
    rw [hv] at hvalue hsound htop
    obtain ⟨es₁, s₂, hwrite, hrun⟩ := Run.exists_of_bind hrun
    -- the way to the leaf goes through mappings without marks, so nothing else is changed
    rw [run_writeLeaf, Tree.writeRevision?_eq_none _ hway] at hwrite
    cases hwrite
    have hways' : ∀ other ∈ leaves, Tree.Way (· = none) (fun _ => True) (Path.split other.1)
        (Tree.writeEntries w (Path.split path) es) := fun other hmem =>
      Tree.way_writeEntries_of_apart (by rfl) w (hfirst other hmem).symm (hways other hmem)
    obtain ⟨hI, hvalues, htree⟩ := ih hapart hways' hsound htop hrun
    refine ⟨hI, List.forall_mem_cons.2 ⟨⟨w.erase, hvalue.symm⟩, hvalues⟩, fun f hf => ?_⟩
    obtain ⟨hfv, hf⟩ := List.forall_mem_cons.1 hf
    have hw : w.erase = f v := Except.ok.inj (hvalue.trans hfv)
    rw [htree f hf, Tree.mapTagEntries_writeEntries (fun _ => ()) rfl]
    change Tree.writeAll _ (Tree.writeEntries w.erase (Path.split path) _) = _
    rw [hw]
    rfl

/-! ## Whole definitions -/

/-- If a definition whose keys are segments has a tree, the tree is its value when the definition is
resolved as a whole. -/
theorem directAt_of_treeWith {es : List (Key × Value)}
    (hes : Tree.NamedEntries Path.IsSegment es) {s t : Scratch σ} (hactive : s.active = [])
    (hI : I s.memory) {tree : Shared}
    (hrun : (r.treeWith resolve (.map () es)).run s = (.ok tree, t)) :
    I t.memory ∧ r.directAt answer 0 (.map () es) = .ok tree.erase := by
  obtain ⟨es', t', hleaves, rfl, rfl⟩ := r.exists_of_treeWith_map hrun
  have hrooted := Tree.rooted_of_isSegment hes
  rw [Tree.flattenEntries_eq_entryLeaves hrooted] at hleaves
  have hsound : (begin (Tree.entryLeaves "" es).length s).Sound (r.direct answer) :=
    ⟨by simp [begin, hactive], by simp [begin]⟩
  obtain ⟨hmemory, hvalues, htree⟩ := r.leavesWith_of_apart hr
    (Tree.pairwise_apart_entryLeaves hrooted) (fun _ _ => Tree.way_nil trivial _) ⟨hsound, hI⟩
    hactive hleaves
  let f : Value → Value := fun v => (r.directAt answer 0 v).toOption.getD default
  have hf : ∀ leaf ∈ Tree.entryLeaves "" es, r.directAt answer 0 leaf.2 = .ok (f leaf.2) := by
    intro leaf hmem
    obtain ⟨w, hw⟩ := hvalues leaf hmem
    simp only [f, hw]
    rfl
  have hentries : Tree.mapTagEntries (fun _ => ()) es' = Tree.graftEntries f es := by
    calc Tree.mapTagEntries (fun _ => ()) es'
      _ = Tree.writeAll ((Tree.entryLeaves "" es).map fun leaf => (Path.split leaf.1, f leaf.2))
            [] := htree f hf
      _ = Tree.writeAll ((Tree.entryBranches es).map fun b => (b.1, f b.2)) [] := by
          rw [← Tree.entryLeaves_root hrooted, List.map_map]
          rfl
      _ = Tree.graftEntries f es := Tree.writeAll_entryBranches f es hes fun _ _ => rfl
  have hbranches : ∀ b ∈ Tree.entryBranches es, r.directAt answer 0 b.2 = .ok (f b.2) := by
    intro b hb
    rw [← Tree.entryLeaves_root hrooted] at hb
    obtain ⟨leaf, hleaf, rfl⟩ := List.mem_map.1 hb
    exact hf leaf hleaf
  refine ⟨hmemory, ?_⟩
  rw [Tree.erase_map, hentries, directAt, Engine.resolve, resolveWith, Below.run_bind,
    Tree.resolveEntries_graft f es hbranches]
  rfl

omit hr in
theorem directAt_of_resolveTree (h : r.host.Computes answer) {es : List (Key × Value)}
    (hes : Tree.NamedEntries Path.IsSegment es) {s t : Scratch σ} (hactive : s.active = [])
    {tree : Shared} (hrun : (r.resolveTree (.map () es)).run s = (.ok tree, t)) :
    r.directAt answer 0 (.map () es) = .ok tree.erase := by
  rw [← treeWith_resolveAt] at hrun
  exact (r.directAt_of_treeWith ((r.direct_simulates h).resolve (r.passesLeft 0)) hes hactive
    trivial hrun).2

end Resolver

end LayeredConfig
