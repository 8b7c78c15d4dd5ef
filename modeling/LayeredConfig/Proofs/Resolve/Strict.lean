import LayeredConfig.Proofs.Path.Settled
import LayeredConfig.Proofs.Resolve.Runs

/-!
# Strict resolutions are complete

A strict resolution that gives a tree has left no placeholder in it, provided
that the functions hand out no container with one inside.  A text from a
function may have placeholders: it is substituted again.

* `Host.Settles` — the functions, given settled values, hand out settled
  containers.
* `Resolver.settled_keepsStep` — a strict resolver keeps its state settled, until
  it fails.
* `Resolver.settled_of_resolveTree` — what this means for definitions.
-/

namespace LayeredConfig

variable {σ φ : Type}

/-- As long as the functions are given settled values, what they remember satisfies `I` and the
containers that they hand out are settled. -/
structure Host.Settles (h : Host σ φ) (I : σ → Prop) : Prop where
  memory {f : FnHandle} {args : List Shared} {m : σ} :
    I m → (∀ v ∈ args, v.Settled) → I (h.call f args m).1
  result {f : FnHandle} {args : List Shared} {m : σ} {v : Shared} :
    I m → (∀ v ∈ args, v.Settled) → (h.call f args m).2 = .ok v → (∀ s, v ≠ .str s) → v.Settled
  revise {rev : Tree.Revision} {m : σ} : I m → rev.content.Settled → I (h.revise rev m)

/-- What the functions remember satisfies `I`, and the results held are settled. -/
structure Scratch.Settled (I : σ → Prop) (s : Scratch σ) : Prop where
  memory : I s.memory
  cache : ∀ e ∈ s.cache.getD [], e.2.Settled

/-! ## Settled trees and states -/

/-- The same settled tree on both sides. -/
theorem treeRelation_settled :
    TreeRelation fun v w : Shared => v = w ∧ v.Settled where
  erase h := congrArg Tree.erase h.1
  str h := ⟨rfl, Tree.settled_str_iff.2 h⟩
  unquote h hcs := by
    refine ⟨rfl, Tree.settled_str_iff.2 ?_⟩
    rw [String.toList_ofList]
    exact Template.not_hasPlaceholder_mono (Template.infix_of_unquote? hcs)
      (Tree.settled_str_iff.1 h.2)
  atom h := ⟨rfl, Tree.settled_atom h⟩
  set members := ⟨rfl, Tree.settled_set members⟩
  list {items items'} h := by
    have hitems : items = items' ∧ ∀ x ∈ items, x.Settled := by
      induction h with
      | nil => simp
      | cons hx _ ih =>
        obtain ⟨rfl, hx⟩ := hx
        obtain ⟨rfl, hxs⟩ := ih
        exact ⟨rfl, List.forall_mem_cons.2 ⟨hx, hxs⟩⟩
    exact ⟨by rw [hitems.1], Tree.settled_list_iff.2 hitems.2⟩
  map {es es'} h := by
    have hes : es = es' ∧ ∀ e ∈ es, e.2.Settled := by
      induction h with
      | nil => simp
      | cons he _ ih =>
        obtain ⟨hk, hv, he⟩ := he
        obtain ⟨rfl, hes⟩ := ih
        exact ⟨by rw [Prod.ext hk hv], List.forall_mem_cons.2 ⟨he, hes⟩⟩
    exact ⟨by rw [hes.1], Tree.settled_map_iff.2 hes.2⟩

/-- The same settled state on both sides. -/
theorem stateRelation_settled (I : σ → Prop) :
    StateRelation (fun v w => v = w ∧ v.Settled) 0
      fun s s' : Scratch σ => s = s' ∧ s.Settled I where
  active h := by rw [h.1]
  isSome h := by rw [h.1]
  report _ h := ⟨by rw [h.1], h.2.memory, h.2.cache⟩
  enter _ h := ⟨by rw [h.1], h.2.memory, h.2.cache⟩
  leave _ h := ⟨by rw [h.1], h.2.memory, h.2.cache⟩
  openCache h := ⟨by rw [h.1], h.2.memory, by simp⟩
  closeCache h := ⟨by rw [h.1], h.2.memory, by simp⟩
  find? {s _} a left h := by
    obtain ⟨rfl, hs⟩ := h
    rw [Nat.add_zero]
    cases hfind : (s.cache.getD []).find? ⟨a, left, s.active⟩ with
    | none => exact .none
    | some v =>
      obtain ⟨l, hl, -⟩ := Cache.exists_mem_of_find? hfind
      exact .some ⟨rfl, hs.cache _ hl⟩
  mark {s _ _ _} h hv := by
    obtain ⟨rfl, -⟩ := h
    obtain ⟨rfl, hv⟩ := hv
    exact ⟨rfl, Tree.settled_withMark hv _⟩
  insert {s _ v _} a left active h hv := by
    obtain ⟨rfl, hs⟩ := h
    obtain ⟨rfl, hv⟩ := hv
    refine ⟨rfl, hs.memory, ?_⟩
    have hcache := hs.cache
    cases hc : s.cache with
    | none => simp
    | some c =>
      rw [hc] at hcache
      exact List.forall_mem_cons.2 ⟨hv, hcache⟩

/-! ## Strict resolvers -/

namespace Resolver

variable {r : Resolver σ φ} {I : σ → Prop}

/-- A strict resolver fails, or its result and its state are settled. -/
theorem settled_keepsStep (hstrict : r.strict = true) (hI : r.host.Settles I) :
    KeepsStep (fun s s' => s = s' ∧ s.Settled I) (fun _ => True)
      (fun v w => v = w ∧ v.Settled) 0 r r where
  states := stateRelation_settled I
  trees := treeRelation_settled
  registry := rfl
  exhausted s _ := by
    intro t t' _
    rw [exhausted, hstrict]
    exact .excused trivial
  circular v reference := by
    intro t t' _
    rw [circular, hstrict]
    exact .excused trivial
  apply f args args' hargs := by
    obtain ⟨hsame, hsettled⟩ := treeRelation_settled.list hargs
    rintro s _ ⟨rfl, hs⟩
    have hargs : ∀ v ∈ args, v.Settled := Tree.settled_list_iff.1 hsettled
    have hmem := hI.memory (f := f) hs.memory hargs
    have hres : ∀ v, (r.host.call f args s.memory).2 = .ok v → (∀ t, v ≠ .str t) → v.Settled :=
      fun v => hI.result hs.memory hargs
    cases hsame
    rw [run_apply]
    change Run.Agree _ _ _ ((r.host.call f args s.memory).2.mapError .fault, _) _
    generalize r.host.call f args s.memory = answer at hmem hres ⊢
    obtain ⟨m, out⟩ := answer
    cases out with
    | error e => exact .excused trivial
    | ok v =>
      refine .ok ?_ ⟨rfl, hmem, hs.cache⟩
      by_cases hv : ∃ t, v = .str t
      · obtain ⟨t, rfl⟩ := hv
        exact Or.inr ⟨t, rfl, rfl⟩
      · exact Or.inl ⟨rfl, hres v rfl fun t ht => hv ⟨t, ht⟩⟩

/-- Writing a settled leaf leaves the tree, what the functions remember and the results held
settled. -/
theorem settled_writeLeaf (hI : r.host.Settles I) {es es' : List (Key × Shared)} (path : String)
    {v w : Shared} (hes : es = es' ∧ ∀ e ∈ es, e.2.Settled) (hv : v = w ∧ v.Settled) :
    (Run.sideBySide (fun s s' => s = s' ∧ s.Settled I) fun _ => True).rel
      (fun es es' => es = es' ∧ ∀ e ∈ es, e.2.Settled) (r.writeLeaf es path v)
      (r.writeLeaf es' path w) := by
  obtain ⟨rfl, hes⟩ := hes
  obtain ⟨rfl, hv⟩ := hv
  rintro s _ ⟨rfl, hs⟩
  rw [run_writeLeaf]
  cases hrev : Tree.writeRevision? v (Path.split path) es with
  | none => exact .ok ⟨rfl, Tree.settled_writeEntries hv _ hes⟩ ⟨rfl, hs⟩
  | some rev =>
    have hcontent : rev.content.Settled := Tree.settled_writeRevision hv hes hrev
    refine .ok ⟨rfl, Tree.settled_replaceShareEntries rev.share hcontent es hes⟩
      ⟨rfl, hI.revise hs.memory hcontent, ?_⟩
    have hcache := hs.cache
    cases hc : s.cache with
    | none => simp
    | some c =>
      rw [hc] at hcache
      intro e he
      obtain ⟨held, hheld, rfl⟩ := List.mem_map.1 he
      exact Tree.settled_replaceShare rev.share hcontent held.2 (hcache held hheld)

/-- If a strict resolution gives a tree, no text in it has a placeholder. -/
theorem settled_of_resolveTree (hstrict : r.strict = true) (hI : r.host.Settles I)
    {definition : Value} {s t : Scratch σ} {tree : Shared} (hs : I s.memory)
    (h : (r.resolveTree definition).run s = (.ok tree, t)) : tree.Settled := by
  rw [run_resolveTree] at h
  cases hleaves : definition.flatten "" with
  | error e =>
    rw [hleaves] at h
    cases h
  | ok leaves =>
    have hbegin : (begin leaves.length s).Settled I := ⟨hs, by simp [begin]⟩
    have hnil : ([] : List (Key × Shared)) = [] ∧
        ∀ e ∈ ([] : List (Key × Shared)), e.2.Settled := by
      simp
    have hrun := (settled_keepsStep hstrict hI).resolveLeaves rfl
      (fun path _ _ hes hv => settled_writeLeaf hI path hes hv) leaves hnil
      (begin leaves.length s) (begin leaves.length s) ⟨rfl, hbegin⟩
    rw [hleaves] at h
    dsimp only at h
    generalize (r.resolveLeaves leaves []).run (begin leaves.length s) = xs at h hrun
    cases hrun with
    | ok hes ht =>
      cases h
      exact Tree.settled_map_iff.2 hes.2
    | error ht => cases h
    | excused he => cases h

/-- A definition with a row of references, a quoted text and a call. -/
def letter : Value :=
  .map () [(.str "name", .str "'$\x7bself:parts.1\x7d'"),
    (.str "parts", .list () [.atom (.int 3), .str "@\x7bgreet:parts.0\x7d"]),
    (.str "all", .str "$\x7bself:parts\x7d")]

/-- A strict resolver of the letter whose function answers with another reference. -/
def letterResolver : Resolver Unit Unit where
  registry := ⟨letter, [(.str "greet", .atom (.fn ⟨0, "greet"⟩))]⟩
  host := ⟨fun _ _ m => (m, .ok (.str "no. $\x7bself:parts.0\x7d")), fun _ m => m⟩
  maxDepth := 10
  strict := true

/-- The letter is resolved without a rest. -/
theorem settled_of_resolveTree_letter :
    ∃ tree t, (letterResolver.resolveTree letter).run (Scratch.start ()) = (.ok tree, t) ∧
      tree.Settled := by
  have hI : letterResolver.host.Settles fun _ => True :=
    ⟨fun _ _ => trivial, fun _ _ hv hne => absurd (Except.ok.inj hv).symm (hne _),
      fun _ _ => trivial⟩
  have hok : ((letterResolver.resolveTree letter).run (Scratch.start ())).1.isOk = true := by
    decide +kernel
  obtain ⟨tree, t, h⟩ := Run.exists_of_isOk hok
  exact ⟨tree, t, h, settled_of_resolveTree rfl hI trivial h⟩

end Resolver

end LayeredConfig
