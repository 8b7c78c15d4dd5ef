import LayeredConfig.Proofs.Resolve.Growing
import LayeredConfig.Proofs.Value.Marks

/-!
# Resolving under other numbers

The results of references are numbered on from where the resolution before has
stopped, and functions go on with what they remember.  Neither shows if functions
are pure: the tree of a definition is the one that a first resolution gives, with
the marks moved on, and every container that is changed on the way is one that the
resolution itself has made.

* `Host.Pure` — functions whose answers depend on their arguments alone.
* `Scratch.Moved` — the state of a first resolution beside that of a later one.
* `Resolver.agree_resolveTree`, `Resolver.resolveTree_renumbered` — the resolution
  of a definition.
-/

namespace LayeredConfig

variable {σ φ β γ : Type}

/-! ## Marks that are moved on -/

/-- The mark of a result as far on as the numbers have been moved. -/
def Share.move (n : Nat) : Share → Share
  | result i => result (i + n)
  | kept f => kept f
  | node i => node i

theorem Share.move_injective (n : Nat) : (move n).Injective := by
  intro a b h
  cases a <;> cases b <;> simp_all [move]

/-- The mark is that of a result with a number from `lo` up to, but without, `hi`. -/
def Share.Between (lo hi : Nat) (share : Share) : Prop :=
  ∃ i, share = .result i ∧ lo ≤ i ∧ i < hi

/-- The second tree is the first one with its marks moved on, and they are those of results that are
numbered from `lo` up to `hi`. -/
def Tree.Moved (lo hi : Nat) (v w : Shared) : Prop :=
  w = v.remark (Share.move lo) ∧ w.AllMarks (Share.Between lo hi)

/-- The entries of such trees. -/
def Tree.MovedEntries (lo hi : Nat) (es es' : List (Key × Shared)) : Prop :=
  es' = remarkEntries (Share.move lo) es ∧ ∀ e ∈ es', e.2.AllMarks (Share.Between lo hi)

namespace Tree

variable {lo hi : Nat}

theorem moved_of_atom (a : Atom) : Moved lo hi (atom a) (atom a) :=
  ⟨rfl, allMarks_atom a⟩

theorem moved_unmarked (v : Value) : Moved lo hi v.unmarked v.unmarked :=
  ⟨(remark_unmarked _ v).symm, allMarks_unmarked v⟩

theorem moved_withMark {v w : Shared} (h : Moved lo hi v w) {i : Nat} (hi' : i + lo < hi) :
    Moved lo hi (v.withMark (.result i)) (w.withMark (.result (i + lo))) := by
  obtain ⟨rfl, hmarks⟩ := h
  exact ⟨(remark_withMark _ (.result i) v).symm,
    allMarks_withMark hmarks ⟨i + lo, rfl, Nat.le_add_left lo i, hi'⟩⟩

/-- Trees with moved marks say the same and are built from the same texts. -/
theorem treeRelation_moved : TreeRelation (Moved lo hi) where
  erase := by
    rintro v _ ⟨rfl, -⟩
    exact (erase_remark _ v).symm
  str _ := moved_of_atom _
  unquote _ _ := moved_of_atom _
  atom _ := moved_of_atom _
  set members := ⟨rfl, allMarks_set members⟩
  list {items items'} h := by
    have hitems : items' = mapTagItems (Option.map (Share.move lo)) items ∧
        ∀ x ∈ items', x.AllMarks (Share.Between lo hi) := by
      induction h with
      | nil => exact ⟨rfl, nofun⟩
      | cons hx _ ih => exact ⟨congrArg₂ List.cons hx.1 ih.1, List.forall_mem_cons.2 ⟨hx.2, ih.2⟩⟩
    exact ⟨congrArg (list none) hitems.1, allMarks_list_iff.2 ⟨nofun, hitems.2⟩⟩
  map {es es'} h := by
    have hes : MovedEntries lo hi es es' := by
      induction h with
      | nil => exact ⟨rfl, nofun⟩
      | @cons e e' es es' he _ ih =>
        obtain ⟨k, v⟩ := e
        obtain ⟨k', w⟩ := e'
        obtain ⟨rfl, hv⟩ := he
        exact ⟨congrArg₂ List.cons (congrArg (Prod.mk k) hv.1) ih.1,
          List.forall_mem_cons.2 ⟨hv.2, ih.2⟩⟩
    exact ⟨congrArg (map none) hes.1, allMarks_map_iff.2 ⟨nofun, hes.2⟩⟩

end Tree

/-! ## Pure functions -/

/-- The functions are pure: what they answer, or why they fail, depends on their arguments alone.
They do not look at marks, and the containers in an answer are new or come from the arguments. -/
structure Host.Pure (h : Host σ φ) (answer : FnHandle → List Shared → Except φ Shared) : Prop where
  call (f : FnHandle) (args : List Shared) (m : σ) : (h.call f args m).2 = answer f args
  remark {ρ : Share → Share} (hρ : ρ.Injective) (f : FnHandle) (args : List Shared) :
    answer f (args.map (Tree.remark ρ)) = (answer f args).map (Tree.remark ρ)
  marks {P : Share → Prop} {f : FnHandle} {args : List Shared} {v : Shared} :
    (∀ u ∈ args, u.AllMarks P) → answer f args = .ok v → v.AllMarks P

/-! ## States beside each other -/

/-- The state of a later resolution beside that of a first one: the numbers are moved on by `lo`,
and only results from there on have been held or changed. -/
structure Scratch.Moved (lo hi : Nat) (s s' : Scratch σ) : Prop where
  active : s'.active = s.active
  fresh : s'.fresh = s.fresh + lo
  cache : s'.cache = s.cache.map fun c => c.map fun e => (e.1, e.2.remark (Share.move lo))
  held : ∀ c, s'.cache = some c → ∀ e ∈ c, e.2.AllMarks (Share.Between lo hi)
  revised : ∀ rev ∈ s'.revisions, rev.share.Between lo hi

theorem Cache.find?_map (f : Shared → Shared) (key : CacheKey) (c : Cache) :
    find? key (c.map fun e => (e.1, f e.2)) = (find? key c).map f := by
  induction c with
  | nil => rfl
  | cons e c ih =>
    obtain ⟨l, v⟩ := e
    rw [List.map_cons, find?, find?, ih]
    split <;> rfl

namespace Scratch.Moved

variable {lo hi : Nat} {s s' : Scratch σ} (h : Moved lo hi s s')

include h

/-- Results are held for the same keys. -/
theorem find? (key : CacheKey) :
    Option.Rel (Tree.Moved lo hi) ((s.cache.getD []).find? key) ((s'.cache.getD []).find? key) := by
  have hcache := h.cache
  have hheld := h.held
  cases hs : s.cache with
  | none =>
    rw [hs] at hcache
    rw [hcache]
    exact .none
  | some c =>
    rw [hs] at hcache
    rw [hcache, Option.map_some, Option.getD_some, Option.getD_some, Cache.find?_map]
    cases hfind : c.find? key with
    | none => exact .none
    | some v =>
      obtain ⟨l, hl, -⟩ := Cache.exists_mem_of_find? hfind
      exact .some ⟨rfl, hheld _ hcache _ (List.mem_map_of_mem hl)⟩

theorem insert (key : CacheKey) {v w : Shared} (hv : Tree.Moved lo hi v w) :
    Moved lo hi { s with cache := s.cache.map ((key, v) :: ·), fresh := s.fresh + 1 }
      { s' with cache := s'.cache.map ((key, w) :: ·), fresh := s'.fresh + 1 } where
  active := h.active
  fresh := by
    change s'.fresh + 1 = s.fresh + 1 + lo
    rw [h.fresh, Nat.add_right_comm]
  cache := by
    change s'.cache.map _ = _
    rw [h.cache, hv.1]
    cases s.cache <;> rfl
  held c hc := by
    obtain ⟨c', hc', rfl⟩ := Option.map_eq_some_iff.1 hc
    exact List.forall_mem_cons.2 ⟨hv.2, h.held c' hc'⟩
  revised := h.revised

/-- A container that is held is changed on both sides. -/
theorem revise {rev rev' : Tree.Revision} (hrev : rev' = rev.remark (Share.move lo))
    (hshare : rev'.share.Between lo hi) (hcontent : rev'.content.AllMarks (Share.Between lo hi))
    (m m' : σ) :
    Moved lo hi
      { s with
        memory := m
        cache := s.cache.map fun c => c.map fun e => (e.1, e.2.revise rev)
        revisions := rev :: s.revisions }
      { s' with
        memory := m'
        cache := s'.cache.map fun c => c.map fun e => (e.1, e.2.revise rev')
        revisions := rev' :: s'.revisions } where
  active := h.active
  fresh := h.fresh
  cache := by
    change s'.cache.map _ = _
    rw [h.cache, hrev]
    cases s.cache with
    | none => rfl
    | some c =>
      simp only [Option.map_some, List.map_map, Function.comp_def,
        Tree.revise_remark (Share.move_injective lo)]
  held c hc := by
    obtain ⟨c', hc', rfl⟩ := Option.map_eq_some_iff.1 hc
    refine List.forall_mem_map.2 fun e he => ?_
    exact Tree.allMarks_replaceShare _ hcontent _ (h.held c' hc' e he)
  revised := List.forall_mem_cons.2 ⟨hshare, h.revised⟩

end Scratch.Moved

/-! ## Runs that keep their numbers -/

namespace Run

/-- Two runs from related states end alike in related states, if the second one ends before the
number `hi` is given to a result. -/
def Within (hi : Nat) (St : Scratch σ → Scratch σ → Prop) (Q : β → γ → Prop) (x : Run σ φ β)
    (y : Run σ φ γ) : Prop :=
  ∀ s s', St s s' → (y.run s').2.fresh ≤ hi → Agree St (fun _ => False) Q (x.run s) (y.run s')

variable {β' γ' : Type} {hi : Nat} {St : Scratch σ → Scratch σ → Prop}

/-- Numbers only grow, so what ends in time was in time all along. -/
theorem within_bind {P : β → γ → Prop} {Q : β' → γ' → Prop} {x : Run σ φ β} {y : Run σ φ γ}
    {f : β → Run σ φ β'} {g : γ → Run σ φ γ'} (hx : Within hi St P x y) (hg : ∀ c, (g c).Grows)
    (hf : ∀ b c, P b c → Within hi St Q (f b) (g c)) : Within hi St Q (x >>= f) (y >>= g) := by
  intro s s' hs hle
  have hxy := hx s s' hs
  rw [run_bind] at hle
  rw [run_bind, run_bind]
  generalize x.run s = xs at hxy ⊢
  generalize y.run s' = ys at hxy hle ⊢
  obtain ⟨_ | c, t'⟩ := ys
  · cases hxy hle with
    | error ht => exact .error ht
    | excused he => exact he.elim
  · cases hxy (Nat.le_trans (hg c t') hle) with
    | ok hP ht => exact hf _ c hP _ t' ht hle
    | excused he => exact he.elim

theorem within_between {Q : β → γ → Prop} {x : Run σ φ β} {y : Run σ φ γ}
    {enter leave : Scratch σ → Scratch σ} (henter : ∀ s s', St s s' → St (enter s) (enter s'))
    (hleave : ∀ s s', St s s' → St (leave s) (leave s'))
    (hfresh : ∀ s, (leave s).fresh = s.fresh) (h : Within hi St Q x y) :
    Within hi St Q (between enter leave x) (between enter leave y) := by
  intro s s' hs hle
  rw [run_between, hfresh] at hle
  exact (h _ _ (henter s s' hs) hle).leave hleave

theorem within_withActive {lo : Nat} {Q : β → γ → Prop} {x : Run σ φ β} {y : Run σ φ γ}
    (a : Address) (h : Within hi (Scratch.Moved lo hi) Q x y) :
    Within hi (Scratch.Moved lo hi) Q (withActive a x) (withActive a y) :=
  within_between
    (fun _ _ hs => ⟨congrArg (a :: ·) hs.active, hs.fresh, hs.cache, hs.held, hs.revised⟩)
    (fun _ _ hs => ⟨congrArg (·.erase a) hs.active, hs.fresh, hs.cache, hs.held, hs.revised⟩)
    (fun _ => rfl) h

theorem within_withCache {lo : Nat} {Q : β → γ → Prop} {x : Run σ φ β} {y : Run σ φ γ}
    (h : Within hi (Scratch.Moved lo hi) Q x y) :
    Within hi (Scratch.Moved lo hi) Q (withCache x) (withCache y) :=
  within_between
    (fun _ _ hs => ⟨hs.active, hs.fresh, rfl, by rintro _ ⟨⟩; nofun, hs.revised⟩)
    (fun _ _ hs => ⟨hs.active, hs.fresh, rfl, nofun, hs.revised⟩)
    (fun _ => rfl) h

end Run

/-- A run beside a growing run. -/
def Growing.within (hi : Nat) (St : Scratch σ → Scratch σ → Prop) :
    Relator (Run σ φ) (Growing σ φ) where
  rel Q x y := Run.Within hi St Q x y.run
  rel_pure hQ _ _ hs _ := .ok hQ hs
  rel_bind {_ _ _ _ _ _ _ _ _ g} hx hf := Run.within_bind hx (fun c => (g c).grows) hf
  rel_mono hQ hx s s' hs hle := (hx s s' hs hle).mono hQ

/-! ## Resolvers with pure functions -/

namespace Resolver

variable (r : Resolver σ φ) {lo hi : Nat}

theorem within_report (e : LogEntry) :
    Run.Within hi (Scratch.Moved lo hi) (fun _ _ => True) (Run.report e : Run σ φ Unit)
      (Run.report e) :=
  fun _ _ hs _ => .ok trivial ⟨hs.active, hs.fresh, hs.cache, hs.held, hs.revised⟩

theorem within_exhausted (s : String) :
    Run.Within hi (Scratch.Moved lo hi) (Tree.Moved lo hi) (r.exhausted s) (r.exhausted s) := by
  unfold exhausted
  split
  · exact fun _ _ ht _ => .error ht
  · exact Run.within_bind (within_report _) (fun _ => Run.grows_pure _)
      fun _ _ _ _ _ ht _ => .ok (Tree.moved_of_atom _) ht

theorem within_circular (v : Value) (reference : String) :
    Run.Within hi (Scratch.Moved lo hi) (Tree.Moved lo hi) (r.circular v reference)
      (r.circular v reference) := by
  unfold circular
  split
  · exact fun _ _ ht _ => .error ht
  · exact Run.within_bind (within_report _) (fun _ => Run.grows_pure _)
      fun _ _ _ _ _ ht _ => .ok (Tree.moved_unmarked v.copy) ht

theorem within_apply {answer : FnHandle → List Shared → Except φ Shared}
    (h : r.host.Pure answer) (f : FnHandle) {args args' : List Shared}
    (hargs : List.Forall₂ (Tree.Moved lo hi) args args') :
    Run.Within hi (Scratch.Moved lo hi) (OrSameText (Tree.Moved lo hi)) (r.apply f args)
      (r.apply f args') := by
  have hmoved : args' = args.map (Tree.remark (Share.move lo)) ∧
      ∀ u ∈ args', u.AllMarks (Share.Between lo hi) := by
    induction hargs with
    | nil => exact ⟨rfl, nofun⟩
    | cons hu _ ih => exact ⟨congrArg₂ List.cons hu.1 ih.1, List.forall_mem_cons.2 ⟨hu.2, ih.2⟩⟩
  obtain ⟨rfl, hmarks⟩ := hmoved
  intro s s' hs _
  have hstate : ∀ m m' : σ, Scratch.Moved lo hi { s with memory := m } { s' with memory := m' } :=
    fun _ _ => ⟨hs.active, hs.fresh, hs.cache, hs.held, hs.revised⟩
  have hanswer := h.remark (Share.move_injective lo) f args
  rw [run_apply, run_apply, h.call, h.call, hanswer]
  cases hv : answer f args with
  | error e => exact .error (hstate _ _)
  | ok v =>
    rw [hv] at hanswer
    exact .ok (Or.inl ⟨rfl, h.marks hmarks hanswer⟩) (hstate _ _)

theorem within_cachedContainer {resolve resolve' : Value → Run σ φ Shared}
    (hr : ∀ u, Run.Within hi (Scratch.Moved lo hi) (Tree.Moved lo hi) (resolve u) (resolve' u))
    (left : Nat) (a : Address) (v : Value) (reference : String) :
    Run.Within hi (Scratch.Moved lo hi) (Tree.Moved lo hi)
      (r.cachedContainer resolve left a v reference)
      (r.cachedContainer resolve' left a v reference) := by
  intro s s' hs hle
  have hcircular := r.within_circular v reference s s' hs
  have hfind := hs.find? ⟨a, left, s.active⟩
  have hrun := Run.within_withActive a (hr v) s s' hs
  rw [run_cachedContainer, hs.active] at hle
  rw [run_cachedContainer, run_cachedContainer, hs.active]
  split at hle
  · rename_i ha
    rw [if_pos ha, if_pos ha]
    exact hcircular hle
  · rename_i ha
    rw [if_neg ha, if_neg ha]
    generalize (s.cache.getD []).find? ⟨a, left, s.active⟩ = held at hfind ⊢
    generalize (s'.cache.getD []).find? ⟨a, left, s.active⟩ = held' at hfind hle ⊢
    cases hfind with
    | some hv => exact .ok hv hs
    | none =>
      dsimp only at hle ⊢
      generalize (Run.withActive a (resolve v)).run s = xs at hrun ⊢
      generalize (Run.withActive a (resolve' v)).run s' = ys at hrun hle ⊢
      obtain ⟨_ | w, t'⟩ := ys
      · cases hrun hle with
        | error ht => exact .error ht
        | excused he => exact he.elim
      · -- the result is numbered before the end, so its number is below `hi`
        have hlt : t'.fresh < hi := hle
        cases hrun (Nat.le_of_lt hlt) with
        | @ok plain _ t _ hv ht =>
          have hmark := Tree.moved_withMark hv (ht.fresh ▸ hlt)
          rw [← ht.fresh] at hmark
          exact .ok hmark (ht.insert _ hmark)
        | excused he => exact he.elim

theorem within_container {resolve resolve' : Value → Run σ φ Shared}
    (hr : ∀ u, Run.Within hi (Scratch.Moved lo hi) (Tree.Moved lo hi) (resolve u) (resolve' u))
    (left : Nat) (a : Address) (v : Value) (reference : String) :
    Run.Within hi (Scratch.Moved lo hi) (Tree.Moved lo hi)
      (r.container resolve left a v reference) (r.container resolve' left a v reference) := by
  have hcached := r.within_cachedContainer hr left a v reference
  intro s s' hs hle
  have hopen : s'.cache.isSome = s.cache.isSome := by
    rw [hs.cache, Option.isSome_map]
  rw [run_container] at hle
  rw [run_container, run_container]
  rw [hopen] at hle ⊢
  split at hle
  · rename_i h
    rw [if_pos h, if_pos h]
    exact hcached s s' hs hle
  · rename_i h
    rw [if_neg h, if_neg h]
    exact Run.within_withCache hcached s s' hs hle

/-- A resolver with pure functions keeps step with itself at later numbers. -/
theorem moved_simulates {answer : FnHandle → List Shared → Except φ Shared}
    (h : r.host.Pure answer) :
    Engine.Simulates (Growing.within hi (Scratch.Moved lo hi)) (Tree.Moved lo hi) 0 r.engine
      r.growing where
  trees := Tree.treeRelation_moved
  registry := rfl
  throw _ _ := fun _ _ hs _ => .error hs
  exhausted s hs := by
    rw [Engine.substitute_zero _ hs]
    exact r.within_exhausted s
  unregistered _ := within_report _
  apply f _ _ hargs := r.within_apply h f hargs
  container left a v reference _ hr := r.within_container hr left a v reference

theorem within_resolveAt {answer : FnHandle → List Shared → Except φ Shared}
    (h : r.host.Pure answer) (depth : Int) (v : Value) :
    Run.Within hi (Scratch.Moved lo hi) (Tree.Moved lo hi) (r.resolveAt depth v)
      (r.resolveAt depth v) := by
  have hv : Run.Within hi (Scratch.Moved lo hi) (Tree.Moved lo hi)
      (r.engine.resolve (r.passesLeft depth) v) (r.growing.resolve (r.passesLeft depth) v).run :=
    (r.moved_simulates h).resolve (r.passesLeft depth) v
  rwa [run_resolve_growing] at hv

theorem within_substituteAt {answer : FnHandle → List Shared → Except φ Shared}
    (h : r.host.Pure answer) (depth : Int) (v : Value) :
    Run.Within hi (Scratch.Moved lo hi) (Tree.Moved lo hi) (r.substituteAt depth v)
      (r.substituteAt depth v) := by
  unfold substituteAt
  split
  · rename_i s
    have hs : Run.Within hi (Scratch.Moved lo hi) (Tree.Moved lo hi)
        (r.engine.substitute (r.passesLeft depth) s)
        (r.growing.substitute (r.passesLeft depth) s).run :=
      (r.moved_simulates h).substitute (r.passesLeft depth) s
    rwa [run_substitute_growing] at hs
  · exact fun _ _ hs _ => .ok (Tree.moved_unmarked _) hs

/-! ## Definitions -/

/-- A leaf is written through containers that the resolution has made. -/
theorem within_writeLeaf {es es' : List (Key × Shared)} (hes : Tree.MovedEntries lo hi es es')
    (path : String) {v w : Shared} (hv : Tree.Moved lo hi v w) :
    Run.Within hi (Scratch.Moved lo hi) (Tree.MovedEntries lo hi) (r.writeLeaf es path v)
      (r.writeLeaf es' path w) := by
  obtain ⟨rfl, hmarks⟩ := hes
  obtain ⟨rfl, hw⟩ := hv
  intro s s' hs _
  have hrevision := Tree.writeRevision?_remark (Share.move lo) v (Path.split path) es
  rw [run_writeLeaf, run_writeLeaf, hrevision]
  cases hrev : Tree.writeRevision? v (Path.split path) es with
  | none =>
    exact .ok ⟨(Tree.remarkEntries_writeEntries _ v _ es).symm,
      Tree.allMarks_writeEntries hw _ hmarks⟩ hs
  | some rev =>
    rw [hrev] at hrevision
    obtain ⟨hshare, hcontent⟩ := Tree.allMarks_writeRevision? hw hmarks hrevision
    exact .ok ⟨Tree.replaceShareEntries_remark (Share.move_injective lo) rev.share rev.content es,
        Tree.allMarks_replaceShareEntries _ hcontent _ hmarks⟩
      (hs.revise rfl hshare hcontent _ _)

theorem within_resolveLeaves {answer : FnHandle → List Shared → Except φ Shared}
    (h : r.host.Pure answer) (leaves : Flat Unit) {es es' : List (Key × Shared)}
    (hes : Tree.MovedEntries lo hi es es') :
    Run.Within hi (Scratch.Moved lo hi) (Tree.MovedEntries lo hi) (r.resolveLeaves leaves es)
      (r.resolveLeaves leaves es') := by
  induction leaves generalizing es es' with
  | nil => exact fun _ _ hs _ => .ok hes hs
  | cons leaf rest ih =>
    obtain ⟨path, v⟩ := leaf
    have hwrite : ∀ w : Shared, (r.writeLeaf es' path w).Grows := fun w s =>
      Nat.le_of_eq (r.fresh_writeLeaf es' path w s).symm
    refine Run.within_bind (r.within_resolveAt h 0 v)
      (fun w => Run.grows_bind (hwrite w) fun es => r.grows_resolveLeaves rest es) fun v w hv => ?_
    exact Run.within_bind (r.within_writeLeaf hes path hv)
      (fun es => r.grows_resolveLeaves rest es) fun _ _ hes => ih hes

/-- A later resolution of a definition ends as a first one does, with the marks moved on. -/
theorem agree_resolveTree {answer : FnHandle → List Shared → Except φ Shared}
    (h : r.host.Pure answer) (definition : Value) (memory memory' : σ) (n : Nat) {t : Scratch σ}
    (ht : ((r.resolveTree definition).run { Scratch.start memory' with fresh := n }).2 = t) :
    Run.Agree (Scratch.Moved n t.fresh) (fun _ => False) (Tree.Moved n t.fresh)
      ((r.resolveTree definition).run (Scratch.start memory))
      ((r.resolveTree definition).run { Scratch.start memory' with fresh := n }) := by
  have hfirst : Scratch.Moved n t.fresh (Scratch.start memory)
      { Scratch.start memory' with fresh := n } :=
    ⟨rfl, (Nat.zero_add n).symm, rfl, nofun, nofun⟩
  have hend := Nat.le_of_eq (congrArg Scratch.fresh ht)
  rw [run_resolveTree] at hend
  rw [run_resolveTree, run_resolveTree]
  cases hflat : definition.flatten "" with
  | error e => exact .error hfirst
  | ok leaves =>
    rw [hflat] at hend
    dsimp only at hend ⊢
    have hnil : Tree.MovedEntries n t.fresh [] [] := ⟨rfl, nofun⟩
    have hleaves := r.within_resolveLeaves h leaves hnil (begin leaves.length (Scratch.start memory))
      (begin leaves.length { Scratch.start memory' with fresh := n })
      ⟨rfl, (Nat.zero_add n).symm, rfl, by rintro _ ⟨⟩; nofun, nofun⟩
    generalize (r.resolveLeaves leaves []).run (begin leaves.length (Scratch.start memory)) = xs
      at hleaves ⊢
    generalize (r.resolveLeaves leaves []).run
      (begin leaves.length { Scratch.start memory' with fresh := n }) = ys at hleaves hend ⊢
    have hclose : ∀ {u u' : Scratch σ}, Scratch.Moved n t.fresh u u' →
        Scratch.Moved n t.fresh { u with cache := none } { u' with cache := none } :=
      fun hu => ⟨hu.active, hu.fresh, rfl, nofun, hu.revised⟩
    obtain ⟨_ | es', u'⟩ := ys
    · cases hleaves hend with
      | error hu => exact .error (hclose hu)
      | excused he => exact he.elim
    · cases hleaves hend with
      | @ok es _ _ _ hes hu =>
        exact .ok ⟨congrArg (Tree.map none) hes.1, Tree.allMarks_map_iff.2 ⟨nofun, hes.2⟩⟩
          (hclose hu)
      | excused he => exact he.elim

/-- The tree of a definition is the one that a first resolution gives, whatever the functions
remember and wherever the numbers have got to; its marks are new, and so are those of all containers
that are changed on the way. -/
theorem resolveTree_renumbered {answer : FnHandle → List Shared → Except φ Shared}
    (h : r.host.Pure answer) {definition : Value} {memory' : σ} {n : Nat}
    {out : Except (ResolveError φ) Shared} {t : Scratch σ}
    (hrun : (r.resolveTree definition).run { Scratch.start memory' with fresh := n } = (out, t)) :
    (∀ memory, ((r.resolveTree definition).run (Scratch.start memory)).1.map Tree.erase =
      out.map Tree.erase) ∧
    (∀ tree, out = .ok tree → tree.AllMarks (Share.Between n t.fresh)) ∧
    ∀ rev ∈ t.revisions, rev.share.Between n t.fresh := by
  have hagree := fun memory => r.agree_resolveTree h definition memory memory' n
    (congrArg Prod.snd hrun)
  rw [hrun] at hagree
  refine ⟨fun memory => ?_, ?_, ?_⟩
  · have hfirst := hagree memory
    generalize (r.resolveTree definition).run (Scratch.start memory) = first at hfirst ⊢
    cases hfirst with
    | ok hv _ => exact congrArg Except.ok (Tree.treeRelation_moved.erase hv)
    | error _ => rfl
    | excused he => exact he.elim
  · rintro tree rfl
    have hfirst := hagree memory'
    generalize (r.resolveTree definition).run (Scratch.start memory') = first at hfirst
    cases hfirst with
    | ok hv _ => exact hv.2
    | excused he => exact he.elim
  · have hfirst := hagree memory'
    generalize (r.resolveTree definition).run (Scratch.start memory') = first at hfirst
    cases hfirst with
    | ok _ ht => exact ht.revised
    | error ht => exact ht.revised
    | excused he => exact he.elim

end Resolver

end LayeredConfig
