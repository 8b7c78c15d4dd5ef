import LayeredConfig.Proofs.Path.Leaves
import LayeredConfig.Proofs.Path.Ways
import LayeredConfig.Proofs.Resolve.Cached

/-!
# Leaves by themselves

The value of a leaf in the tree of a definition is the one that the leaf has when it
is resolved alone, if no other leaf comes in its way — and if the pass writes below no
reference to a mapping.  The result of such a reference is used again wherever the
mapping is referred to, so what is written into it shows in leaves that have nothing
to do with the one that is written (`Resolver.not_isolated`).

* `Resolver.alone` — the value of a leaf in a pass of its own.
* `Resolver.NoneBelow` — no leaf is written below a reference to a mapping.
* `Resolver.resolveLeaf_of_noneBelow`, `Resolver.resolveLeaves_of_noneBelow` — then leaves are
  written where they belong alone.
* `Resolver.isolated_of_resolveTree` — the value at a path that no other leaf concerns.
-/

namespace LayeredConfig

variable {σ φ : Type}

/-! ## Mappings without marks -/

/-- If the value is a mapping, it carries no mark. -/
def Tree.NoMarkedMap (u : Shared) : Prop :=
  ∀ m es, u = map m es → m = none

theorem Tree.tagTest_noMarkedMap : TagTest NoMarkedMap where
  new es := by
    rintro _ _ ⟨⟩
    rfl
  change es' h := by
    rintro _ _ ⟨⟩
    exact h _ _ rfl

namespace Resolver

variable (r : Resolver σ φ) {answer : FnHandle → List Value → Except φ Value}

/-! ## Leaves and their values -/

/-- The value of a leaf that is resolved alone, in a pass of its own. -/
def alone (v : Value) (memory : σ) : Except (ResolveError φ) Value :=
  ((r.resolveAt 0 v).run (Scratch.start memory)).1.map Tree.erase

theorem alone_eq_directAt (h : r.host.Computes answer) (v : Value) (memory : σ) :
    r.alone v memory = r.directAt answer 0 v :=
  (r.resolveAt_of_sound h 0 v (Scratch.Clear.sound ⟨rfl, rfl⟩ _) rfl).1

/-- The leaf is a text, and its value is a mapping. -/
def refersToMapping (memory : σ) (v : Value) : Bool :=
  match v, r.alone v memory with
  | .atom (.str _), .ok (.map _ _) => true
  | _, _ => false

theorem refersToMapping_of_alone {memory : σ} {s : String} {es : List (Key × Value)}
    (h : r.alone (.str s) memory = .ok (.map () es)) : r.refersToMapping memory (.str s) = true := by
  simp only [refersToMapping, h]

/-- No leaf stands below an earlier one that refers to a mapping. -/
def NoneBelow (leaves : Flat Unit) (memory : σ) : Prop :=
  leaves.Pairwise fun a b =>
    Path.split a.1 <+: Path.split b.1 → Path.split a.1 ≠ Path.split b.1 →
      r.refersToMapping memory a.2 = false

instance (leaves : Flat Unit) (memory : σ) : Decidable (r.NoneBelow leaves memory) :=
  inferInstanceAs (Decidable (leaves.Pairwise _))

/-- The value of a leaf other than a text is a mapping only if it is the empty one, without a
mark. -/
theorem noMarkedMap_of_resolveAt {v : Value} (hmap : ∀ t e es, v ≠ .map t (e :: es)) {w : Shared}
    (htext : ∀ s m es, v = .str s → w ≠ .map m es) {s t : Scratch σ}
    (hrun : (r.resolveAt 0 v).run s = (.ok w, t)) :
    w.NoMarkedMap ∧ ∀ m es, w = .map m es → es = [] := by
  have hlist : ∀ {items : List Value}, (do
      return Tree.list default (← resolveItems (resolveText
        (r.engine.substitute (r.passesLeft 0))) items) : Run σ φ Shared).run s = (.ok w, t) →
      w.NoMarkedMap ∧ ∀ m es, w = .map m es → es = [] := by
    intro items h
    obtain ⟨items', t', -, h⟩ := Run.exists_of_bind h
    cases h
    exact ⟨nofun, nofun⟩
  cases v with
  | atom a =>
    cases a with
    | str text =>
      exact ⟨fun m es heq => absurd heq (htext text m es rfl),
        fun m es heq => absurd heq (htext text m es rfl)⟩
    | _ =>
      cases hrun
      exact ⟨nofun, nofun⟩
  | list _ items => exact hlist hrun
  | tuple items => exact hlist hrun
  | set members =>
    cases hrun
    exact ⟨nofun, nofun⟩
  | map t es =>
    cases es with
    | nil =>
      cases hrun
      refine ⟨?_, ?_⟩ <;> rintro _ _ ⟨⟩ <;> rfl
    | cons e es => exact absurd rfl (hmap t e es)

/-! ## Leaves one after the other -/

/-- A leaf with no marked mapping on its way is written where it belongs, with the value that it has
alone.  If it refers to a mapping only where no leaf that follows is below it, the ways to those
stay without marked mappings. -/
theorem resolveLeaf_of_noneBelow (h : r.host.Computes answer) {path : String} {v : Value}
    {rest : Flat Unit} {memory : σ}
    (hbelow : ∀ leaf ∈ rest, Path.split path <+: Path.split leaf.1 →
      Path.split path ≠ Path.split leaf.1 → r.refersToMapping memory v = false)
    (hmap : ∀ t e es, v ≠ .map t (e :: es)) {es es' : List (Key × Shared)}
    (halong : ∀ leaf ∈ (path, v) :: rest, Tree.Along Tree.NoMarkedMap (Path.split leaf.1) es)
    {s t : Scratch σ} (hs : s.Sound (r.direct answer)) (hactive : s.active = [])
    (hrun : (r.resolveLeaves [(path, v)] es).run s = (.ok es', t)) :
    ∃ w, r.alone v memory = .ok (Tree.erase w) ∧
      es' = Tree.writeEntries w (Path.split path) es ∧
      (t.Sound (r.direct answer) ∧ t.active = []) ∧
      ∀ leaf ∈ rest, Tree.Along Tree.NoMarkedMap (Path.split leaf.1) es' := by
  obtain ⟨hhere, halong⟩ := List.forall_mem_cons.1 halong
  obtain ⟨hvalue, hsound, htop⟩ := r.resolveAt_of_sound h 0 v hs hactive
  obtain ⟨w, s₁, hv, hrun⟩ := Run.exists_of_bind hrun
  rw [hv] at hvalue hsound htop
  obtain ⟨es₁, s₂, hwrite, hend⟩ := Run.exists_of_bind hrun
  rw [run_writeLeaf, Tree.writeRevision?_of_along (fun m es hm => hm m es rfl) _ hhere] at hwrite
  cases hwrite
  cases hend
  have halone : r.alone v memory = .ok (Tree.erase w) :=
    (r.alone_eq_directAt h v memory).trans hvalue.symm
  refine ⟨w, halone, rfl, ⟨hsound, htop⟩, fun leaf hmem => ?_⟩
  refine Tree.along_writeEntries Tree.tagTest_noMarkedMap (fun hp hne => ?_) (halong leaf hmem)
  refine r.noMarkedMap_of_resolveAt hmap (fun text m es htext heq => ?_) hv
  subst htext heq
  have hrefers := hbelow leaf hmem hp hne
  rw [r.refersToMapping_of_alone halone] at hrefers
  cases hrefers

/-- While no leaf is written below a reference to a mapping, no container changes that is used
elsewhere too: the cache stays sound, the ways to the leaves that follow stay without marked
mappings, and a way that no leaf concerns stays as it is. -/
theorem resolveLeaves_of_noneBelow (h : r.host.Computes answer) {leaves rest : Flat Unit}
    {memory : σ} (hnone : r.NoneBelow (leaves ++ rest) memory)
    (hmap : ∀ leaf ∈ leaves, ∀ t e es, leaf.2 ≠ .map t (e :: es)) {es es' : List (Key × Shared)}
    (halong : ∀ leaf ∈ leaves ++ rest, Tree.Along Tree.NoMarkedMap (Path.split leaf.1) es)
    {s t : Scratch σ} (hs : s.Sound (r.direct answer)) (hactive : s.active = [])
    (hrun : (r.resolveLeaves leaves es).run s = (.ok es', t)) :
    (t.Sound (r.direct answer) ∧ t.active = []) ∧
      (∀ leaf ∈ rest, Tree.Along Tree.NoMarkedMap (Path.split leaf.1) es') ∧
      ∀ (free : Option Share → Prop) (last : Option Shared → Prop) (segments : List String),
        free none → (∀ leaf ∈ leaves, Path.Apart segments (Path.split leaf.1)) →
          Tree.Way free last segments es → Tree.Way free last segments es' := by
  induction leaves generalizing es s with
  | nil =>
    cases hrun
    exact ⟨⟨hs, hactive⟩, halong, fun _ _ _ _ _ hway => hway⟩
  | cons leaf leaves ih =>
    obtain ⟨path, v⟩ := leaf
    obtain ⟨hbelow, hnone⟩ := List.pairwise_cons.1 hnone
    obtain ⟨hfirst, hmap⟩ := List.forall_mem_cons.1 hmap
    rw [← List.singleton_append, resolveLeaves_append] at hrun
    obtain ⟨es₁, s₁, hleaf, hrun⟩ := Run.exists_of_bind hrun
    obtain ⟨w, -, rfl, ⟨hsound, htop⟩, halong⟩ :=
      r.resolveLeaf_of_noneBelow h hbelow hfirst halong hs hactive hleaf
    obtain ⟨hend, hrest, hkeep⟩ := ih hnone hmap halong hsound htop hrun
    refine ⟨hend, hrest, fun free last segments hfree hapart hway => ?_⟩
    obtain ⟨hapart, haparts⟩ := List.forall_mem_cons.1 hapart
    exact hkeep free last segments hfree haparts
      (Tree.way_writeEntries_of_apart hfree w hapart hway)

/-- If a definition has a tree, and none of its leaves is written below a reference to a mapping,
then what stands in the tree at the path of a leaf, if that path is apart from those of all other
leaves, is the value that the leaf has when it is resolved alone. -/
theorem isolated_of_resolveTree (h : r.host.Computes answer) {definition : Value}
    {leaves : Flat Unit} (hleaves : definition.flatten "" = .ok leaves) {memory : σ}
    (hnone : r.NoneBelow leaves memory) {s t : Scratch σ} (hactive : s.active = [])
    {tree : Shared} (hrun : (r.resolveTree definition).run s = (.ok tree, t))
    {front back : Flat Unit} {q : String} {v : Value} (hq : leaves = front ++ (q, v) :: back)
    (hapart : ∀ leaf ∈ front ++ back, Path.Apart (Path.split q) (Path.split leaf.1)) :
    ∃ steps u, Tree.locate? (Path.split q) tree = .ok (some (steps, u)) ∧
      r.alone v memory = .ok u.erase := by
  obtain ⟨es, rfl, hlegible⟩ := r.exists_map_of_resolveTree hrun
  obtain ⟨es', t', hpass, rfl, -⟩ := r.exists_of_resolveTree_map hrun
  rw [Tree.flatten_of_areLegible () hlegible] at hleaves
  have hflat : Tree.flattenEntries "" es = front ++ (q, v) :: back :=
    (Except.ok.inj hleaves).trans hq
  have hmap : ∀ leaf ∈ front ++ (q, v) :: back, ∀ t e fs, leaf.2 ≠ .map t (e :: fs) := by
    intro leaf hmem t e fs heq
    rw [← hflat] at hmem
    exact Tree.ne_map_of_mem_flattenEntries hmem (by simp [heq]) t (e :: fs) heq
  have hsound : (begin (Tree.flattenEntries "" es).length s).Sound (r.direct answer) :=
    ⟨by simp [begin, hactive], by simp [begin]⟩
  rw [hflat] at hpass hsound
  rw [hq] at hnone
  rw [resolveLeaves_append, ← List.singleton_append (l := back)] at hpass
  obtain ⟨es₁, s₁, hfront, hpass⟩ := Run.exists_of_bind hpass
  rw [resolveLeaves_append] at hpass
  obtain ⟨es₂, s₂, hleaf, hback⟩ := Run.exists_of_bind hpass
  obtain ⟨hmapFront, hmap⟩ := List.forall_mem_append.1 hmap
  obtain ⟨hmapLeaf, hmapBack⟩ := List.forall_mem_cons.1 hmap
  obtain ⟨-, hnoneBack, -⟩ := List.pairwise_append.1 hnone
  obtain ⟨hbelow, hnoneBack⟩ := List.pairwise_cons.1 hnoneBack
  -- up to the leaf, at the leaf, and after it
  obtain ⟨⟨hsound₁, htop₁⟩, halong₁, -⟩ := r.resolveLeaves_of_noneBelow h hnone hmapFront
    (fun _ _ => Tree.along_nil _) hsound hactive hfront
  obtain ⟨hhere, -⟩ := List.forall_mem_cons.1 halong₁
  obtain ⟨w, halone, rfl, ⟨hsound₂, htop₂⟩, halong₂⟩ :=
    r.resolveLeaf_of_noneBelow h hbelow hmapLeaf halong₁ hsound₁ htop₁ hleaf
  rw [← List.append_nil back] at hnoneBack halong₂
  obtain ⟨-, -, hkeep⟩ :=
    r.resolveLeaves_of_noneBelow h hnoneBack hmapBack halong₂ hsound₂ htop₂ hback
  have hthere : Tree.Way (· = none) (· = some w) (Path.split q)
      (Tree.writeEntries w (Path.split q) es₁) :=
    Tree.way_of_along (by rfl) (fun m es hm => hm m es rfl) (by rfl) hhere
  have hway := hkeep (· = none) (· = some w) (Path.split q) rfl
    (fun leaf hmem => hapart leaf (List.mem_append_right _ hmem)) hthere
  have hsplit : Path.split q ≠ [] := by
    simpa [Path.split] using Path.splitChars_ne_nil q.toList
  obtain ⟨steps, hsteps⟩ := Tree.locate?_of_way hsplit hway none
  exact ⟨steps, w, hsteps, halone⟩

/-- A resolver of a definition with two references to one mapping, and a value written below a
third leaf. -/
def twoReferences (third : Value) : Resolver Nat Unit where
  registry := .ofDefinition (.map () [(.str "m", .map () [(.str "z", .atom (.int 0))]),
    (.str "q", .str "$\x7bself:m\x7d"), (.str "c", third), (.str "c.k", .atom (.int 9))])
  host := .ofAnswer fun _ _ => .error ()
  maxDepth := 10
  strict := true

/-- What stands at a path of the tree of a resolver's own definition. -/
def ownValueAt? (memory : σ) (path : String) : Option Value :=
  match ((r.resolveTree r.registry.definition).run (Scratch.start memory)).1 with
  | .ok tree => (tree.get path).toOption.map Tree.erase
  | .error _ => none

/-- Where a value is written below a number, the reference is what it is alone. -/
theorem isolated_of_resolveTree_number :
    let r := twoReferences (.str "$\x7bself:m.z\x7d")
    ∃ tree t steps u,
      (r.resolveTree r.registry.definition).run (Scratch.start 0) = (.ok tree, t) ∧
      Tree.locate? ["q"] tree = .ok (some (steps, u)) ∧
      r.alone (.str "$\x7bself:m\x7d") 0 = .ok u.erase := by
  intro r
  have hok : ((r.resolveTree r.registry.definition).run (Scratch.start 0)).1.isOk = true := by
    decide +kernel
  obtain ⟨tree, t, hrun⟩ := Run.exists_of_isOk hok
  let leaves : Flat Unit := [("m.z", .atom (.int 0)), ("q", .str "$\x7bself:m\x7d"),
    ("c", .str "$\x7bself:m.z\x7d"), ("c.k", .atom (.int 9))]
  have hleaves : r.registry.definition.flatten "" = .ok leaves := rfl
  have hq : leaves = [leaves[0]] ++ ("q", .str "$\x7bself:m\x7d") :: [leaves[2], leaves[3]] := rfl
  have hnone : r.NoneBelow leaves 0 := by decide +kernel
  obtain ⟨steps, u, hthere, halone⟩ := r.isolated_of_resolveTree
    (Host.computes_ofAnswer fun _ _ => .error ()) hleaves hnone rfl hrun hq (by decide +kernel)
  exact ⟨tree, t, steps, u, hrun, hthere, halone⟩

/-- Where a value is written below a reference to the mapping, it shows in the other reference,
which alone has the mapping as it is defined for its value. -/
theorem not_isolated :
    let r := twoReferences (.str "$\x7bself:m\x7d")
    let defined : Value := .map () [(.str "z", .atom (.int 0))]
    let changed : Value := .map () [(.str "z", .atom (.int 0)), (.str "k", .atom (.int 9))]
    (r.ownValueAt? 0 "q").any changed.same = true ∧
      (r.alone (.str "$\x7bself:m\x7d") 0).toOption.any defined.same = true ∧
      changed.same defined = false := by
  refine ⟨?_, ?_, ?_⟩ <;> decide +kernel

end Resolver

end LayeredConfig
