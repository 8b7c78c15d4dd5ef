import LayeredConfig.Proofs.Path.Leaves
import LayeredConfig.Proofs.Path.Ways
import LayeredConfig.Proofs.Resolve.Runs
import LayeredConfig.Proofs.Store.Steps

/-!
# What has been set is read back

A value that is set goes a long way before it is read: it is written into the
definition, becomes a leaf under the path that is joined again from its segments,
is resolved, and is written into a new tree at the segments of that path.  It
arrives there if no other leaf comes in its way.

* `Resolver.way_resolveLeaves` — leaves elsewhere keep the way.
* `Store.get_of_set` — a scalar that has been set is read back.
-/

namespace LayeredConfig

variable {σ φ : Type}

/-! ## Leaves that are written elsewhere -/

namespace Resolver

variable {r : Resolver σ φ}

/-- A leaf that does not come to stand on the way to a path keeps that way, whatever marked
containers it changes. -/
theorem way_writeLeaf {last : Option Shared → Prop}
    (hlast : ∀ share new o, last o → last (o.map (Tree.replaceShare share new)))
    {path : String} {segments : List String} (hon : ¬ Path.split path <+: segments)
    (hbelow : segments <+: Path.split path → ∀ o, last o) {v : Shared}
    {es es' : List (Key × Shared)} {s t : Scratch σ} (h : Tree.Way (· = none) last segments es)
    (hrun : (r.writeLeaf es path v).run s = (.ok es', t)) :
    Tree.Way (· = none) last segments es' := by
  rw [run_writeLeaf] at hrun
  cases hrev : Tree.writeRevision? v (Path.split path) es with
  | none =>
    rw [hrev] at hrun
    cases hrun
    exact Tree.way_writeEntries (by rfl) v hon hbelow h
  | some rev =>
    rw [hrev] at hrun
    cases hrun
    exact Tree.way_replaceShareEntries rev.share rev.content (hlast rev.share rev.content) h

/-- Leaves that do not come to stand on the way to a path keep that way. -/
theorem way_resolveLeaves {last : Option Shared → Prop}
    (hlast : ∀ share new o, last o → last (o.map (Tree.replaceShare share new)))
    {segments : List String} {leaves : Flat Unit}
    (hon : ∀ p ∈ leaves.map (·.1), ¬ Path.split p <+: segments)
    (hbelow : ∀ p ∈ leaves.map (·.1), segments <+: Path.split p → ∀ o, last o)
    {es es' : List (Key × Shared)} {s t : Scratch σ} (h : Tree.Way (· = none) last segments es)
    (hrun : (r.resolveLeaves leaves es).run s = (.ok es', t)) :
    Tree.Way (· = none) last segments es' := by
  induction leaves generalizing es s with
  | nil =>
    cases hrun
    exact h
  | cons leaf rest ih =>
    obtain ⟨path, v⟩ := leaf
    obtain ⟨hfirst, hon⟩ := List.forall_mem_cons.1 hon
    obtain ⟨hfirst', hbelow⟩ := List.forall_mem_cons.1 hbelow
    obtain ⟨w, s₁, -, hrun⟩ := Run.exists_of_bind hrun
    obtain ⟨es₁, s₂, hwrite, hrun⟩ := Run.exists_of_bind hrun
    exact ih hon hbelow (way_writeLeaf hlast hfirst hfirst' h hwrite) hrun

/-- A scalar without a placeholder is its own value. -/
theorem run_resolveAt_atom (r : Resolver σ φ) {a : Atom}
    (ha : ∀ s, a = .str s → Template.hasPlaceholder s.toList = false) (s : Scratch σ) :
    (r.resolveAt 0 (.atom a)).run s = (.ok (.atom a), s) := by
  cases a with
  | str t =>
    have hsub := r.engine.substitute_of_not_hasPlaceholder (ha t rfl) (r.passesLeft 0)
    change (resolveText (r.engine.substitute (r.passesLeft 0)) t).run s = _
    rw [resolveText, hsub, pure_bind]
    simp only [Template.coerce, if_true]
    rfl
  | _ => rfl

/-- A scalar arrives at its path if no leaf before it stands on its way, and none after it there or
below. -/
theorem way_of_resolveLeaves {front back : Flat Unit} {path : String} {a : Atom}
    (ha : ∀ s, a = .str s → Template.hasPlaceholder s.toList = false)
    (hfront : ∀ p ∈ front.map (·.1), ¬ Path.split p <+: Path.split path)
    (hback : ∀ p ∈ back.map (·.1), Path.Apart (Path.split p) (Path.split path))
    {es : List (Key × Shared)} {s t : Scratch σ}
    (hrun : (r.resolveLeaves (front ++ (path, .atom a) :: back) []).run s = (.ok es, t)) :
    Tree.Way (· = none) (· = some (.atom a)) (Path.split path) es := by
  rw [resolveLeaves_append] at hrun
  obtain ⟨es₁, s₁, hrun₁, hrun⟩ := Run.exists_of_bind hrun
  obtain ⟨w, s₂, hvalue, hrun⟩ := Run.exists_of_bind hrun
  obtain ⟨es₂, s₃, hwrite, hrun⟩ := Run.exists_of_bind hrun
  have hclear : Tree.Way (· = none) (fun _ => True) (Path.split path) es₁ :=
    way_resolveLeaves (fun _ _ _ _ => trivial) hfront (fun _ _ _ _ => trivial)
      (Tree.way_nil trivial _) hrun₁
  have hthere : Tree.Way (· = none) (· = some (.atom a)) (Path.split path) es₂ := by
    rw [run_resolveAt_atom r ha] at hvalue
    cases hvalue
    rw [run_writeLeaf, Tree.writeRevision?_eq_none _ hclear] at hwrite
    cases hwrite
    exact Tree.way_writeEntries_self (by rfl) (by rfl) hclear
  have hkeep : ∀ (share : Share) (new : Shared) (o : Option Shared), o = some (.atom a) →
      o.map (Tree.replaceShare share new) = some (.atom a) := by
    rintro share new _ rfl
    rfl
  exact way_resolveLeaves hkeep (fun p hp => (hback p hp).1)
    (fun p hp hbelow => absurd hbelow (hback p hp).2) hthere hrun

end Resolver

/-! ## Set and get -/

namespace Store

/-- The leaves of the store's definition, under their paths. -/
def leaves (s : Store σ φ) : List (String × Value) :=
  match s.definition with
  | .map _ es => Tree.entryLeaves "" es
  | _ => []

/-- A scalar that has been set at a path is one of the leaves of the definition, under that path. -/
theorem mem_leaves_set {s : Store σ φ} (hs : s.Reachable) {path : String} (hne : path ≠ "")
    (hfirst : ∀ c ∈ path.toList.head?, Path.isSeparator c = false) (a : Atom) :
    (Path.normalize path, .atom a) ∈ (s.set path (.atom a)).1.leaves := by
  obtain ⟨es, hes⟩ := hs.exists_definition
  have hsplit : Path.split path ≠ [] := by
    simpa [Path.split] using Path.splitChars_ne_nil path.toList
  rw [leaves, definition_set, hes, ← Path.foldl_extend_split hne hfirst]
  exact Tree.mem_entryLeaves_writeEntries a hsplit "" es

/-- What stands in the resolved tree at the end of the way to a path is read there. -/
theorem get_of_way {s : Store σ φ} {es : List (Key × Shared)} {path : String} {a : Atom}
    (hne : path ≠ "") (hundefined : a ≠ .undefined) (hmissing : a ≠ .missing)
    (hresolved : s.resolved = .map none es)
    (hway : Tree.Way (· = none) (· = some (.atom a)) (Path.split path) es) (default : Shared) :
    s.get path default = .ok (.atom a) := by
  have hsplit : Path.split path ≠ [] := by
    simpa [Path.split] using Path.splitChars_ne_nil path.toList
  have hnormal : Path.normalize path ≠ "" := fun h => hne (by
    simpa [Path.normalize, String.toList_eq_nil_iff] using congrArg String.toList h)
  obtain ⟨steps, hsteps⟩ := Tree.locate?_of_way hsplit hway none
  have hget : s.resolved.get (Path.normalize path) = .ok (.atom a) := by
    rw [Tree.get, Tree.find?, if_neg hnormal, Path.split_normalize, hresolved, hsteps]
    rfl
  rw [get, if_neg hne, hget]
  cases a with
  | undefined => exact absurd rfl hundefined
  | missing => exact absurd rfl hmissing
  | _ => rfl

/-- A scalar that is a leaf of the definition is read back after a resolution if no leaf before it
has its path or one on the way to it, and no leaf after it has one of these or one below it. -/
theorem get_of_refresh {s s' : Store σ φ} (hrefresh : s.refresh = (s', .ok ())) {path : String}
    (hne : path ≠ "") {a : Atom} (hundefined : a ≠ .undefined) (hmissing : a ≠ .missing)
    (hplain : ∀ t, a = .str t → Template.hasPlaceholder t.toList = false)
    {es : List (Key × Value)} (hes : s.definition = .map () es)
    {before after : List (String × Value)}
    (hleaves : Tree.entryLeaves "" es = before ++ (Path.normalize path, .atom a) :: after)
    (hbefore : ∀ leaf ∈ before, ¬ Path.split leaf.1 <+: Path.split path)
    (hafter : ∀ leaf ∈ after, Path.Apart (Path.split leaf.1) (Path.split path))
    (default : Shared) : s'.get path default = .ok (.atom a) := by
  obtain ⟨tree, t, hresolve, rfl⟩ := exists_of_refresh hrefresh
  rw [hes] at hresolve
  obtain ⟨es', t', hrun, rfl, -⟩ := Resolver.exists_of_resolveTree_map _ hresolve
  have hbefore' : ∀ leaf ∈ before, leaf.1 ≠ Path.normalize path := fun leaf hmem heq =>
    hbefore leaf hmem (by rw [heq, Path.split_normalize])
  have hafter' : ∀ leaf ∈ after, leaf.1 ≠ Path.normalize path := fun leaf hmem heq =>
    (hafter leaf hmem).1 (by rw [heq, Path.split_normalize])
  obtain ⟨front, back, hflat, hfront, hback⟩ :=
    @Flat.exists_ofList_append _ before after (Path.normalize path, .atom a) hbefore' hafter'
  have hentries : Tree.flattenEntries "" es =
      front ++ (Path.normalize path, .atom a) :: back := by
    rw [← hflat, ← hleaves]
    rfl
  rw [hentries] at hrun
  refine get_of_way hne hundefined hmissing rfl ?_ default
  rw [← Path.split_normalize]
  refine Resolver.way_of_resolveLeaves hplain (fun p hp => ?_) (fun p hp => ?_) hrun
  · obtain ⟨leaf, hleaf, rfl⟩ := List.mem_map.1 (hfront p hp)
    rw [Path.split_normalize]
    exact hbefore leaf hleaf
  · obtain ⟨leaf, hleaf, rfl⟩ := List.mem_map.1 (hback p hp)
    rw [Path.split_normalize]
    exact hafter leaf hleaf

/-- A scalar that has been set at a path, which does not begin with a separator, becomes a leaf of
the definition under that path.  It is read back, whatever the default, if no other leaf has that
path or one on the way to it and no later leaf has one below it. -/
theorem get_of_set {s s' : Store σ φ} (hs : s.Reachable) {path : String} (hne : path ≠ "")
    (hfirst : ∀ c ∈ path.toList.head?, Path.isSeparator c = false) {a : Atom}
    (hundefined : a ≠ .undefined) (hmissing : a ≠ .missing)
    (hplain : ∀ t, a = .str t → Template.hasPlaceholder t.toList = false)
    (hset : s.set path (.atom a) = (s', .ok ())) :
    ∃ before after, s'.leaves = before ++ (Path.normalize path, .atom a) :: after ∧
      ((∀ leaf ∈ before, ¬ Path.split leaf.1 <+: Path.split path) →
        (∀ leaf ∈ after, Path.Apart (Path.split leaf.1) (Path.split path)) →
        ∀ default, s'.get path default = .ok (.atom a)) := by
  have hmem := mem_leaves_set hs hne hfirst a
  rw [hset] at hmem
  obtain ⟨before, after, hleaves⟩ := List.append_of_mem hmem
  refine ⟨before, after, hleaves, fun hbefore hafter default => ?_⟩
  obtain ⟨es, hes⟩ := (hs.called (.set path (.atom a))).exists_definition
  change (s.set path (.atom a)).1.definition = .map () es at hes
  have hentries : Tree.entryLeaves "" es = (s.set path (.atom a)).1.leaves := by
    rw [leaves, hes]
  rw [hset] at hentries
  rw [definition, set, setShared, registry_refresh] at hes
  exact get_of_refresh hset hne hundefined hmissing hplain hes (hentries.trans hleaves) hbefore
    hafter default

/-- The scalar that has been read, if it is one. -/
def scalar? {α : Type} : Except NumeralError (Tree α) → Option Atom
  | .ok (.atom a) => some a
  | _ => none

theorem eq_of_scalar? {α : Type} {out : Except NumeralError (Tree α)} {a : Atom}
    (h : scalar? out = some a) : out = .ok (.atom a) := by
  unfold scalar? at h
  split at h
  · cases h
    rfl
  · cases h

/-- A store without definitions, whose functions are never called. -/
def blank : Store Unit Unit :=
  (create ⟨fun _ _ m => (m, .ok Tree.undefined), fun _ m => m⟩ () 10 true (.map () [])
    (.map () [])).1

theorem reachable_blank : blank.Reachable :=
  reachable_create (by decide +kernel)

/-- A store with a value, and a reference to it. -/
def greeting : Store Unit Unit :=
  ((Call.merge (.map none [(.str "app", .map none [(.str "name", .str "old")]),
    (.str "hello", .str "hello $\x7bself:app.name\x7d")])).run blank).1

/-- The name is read back, although what follows it refers to it. -/
theorem get_of_set_greeting :
    ∃ s', greeting.set "app:name" (.str "new") = (s', .ok ()) ∧
      ∀ default, s'.get "app:name" default = .ok (.str "new") := by
  have hreach : greeting.Reachable := reachable_blank.called _
  have hset : greeting.set "app:name" (.str "new") =
      ((greeting.set "app:name" (.str "new")).1, .ok ()) := eq_of_isOk (by decide +kernel)
  have hplain : ∀ t, Atom.str "new" = .str t → Template.hasPlaceholder t.toList = false := by
    rintro t ⟨⟩
    decide +kernel
  have hfirst : ∀ c ∈ "app:name".toList.head?, Path.isSeparator c = false := by
    rintro c ⟨⟩
    decide
  obtain ⟨before, after, hleaves, hget⟩ :=
    get_of_set hreach (by decide) hfirst (by simp) (by simp) hplain hset
  -- no two leaves are in each other's way
  have hapart : (greeting.set "app:name" (.str "new")).1.leaves.Pairwise fun a b =>
      Path.Apart (Path.split a.1) (Path.split b.1) := by
    decide +kernel
  rw [hleaves, List.pairwise_append, List.pairwise_cons] at hapart
  obtain ⟨-, ⟨hafter, -⟩, hbefore⟩ := hapart
  rw [Path.split_normalize] at hafter
  refine ⟨_, hset, hget (fun leaf hmem => ?_) fun leaf hmem => (hafter leaf hmem).symm⟩
  have h := (hbefore leaf hmem _ List.mem_cons_self).1
  rwa [Path.split_normalize] at h

/-- A store in which two leaves have one path, the second one under a key with a point. -/
def doubled : Store Unit Unit :=
  ((Call.set "x" (.map none [(.str "a", .map none [(.str "b", .atom (.int 1))]),
    (.str "a.b", .atom (.int 5))])).run blank).1

/-- A store in which a leaf is a reference to a mapping that another leaf is written into. -/
def shared : Store Unit Unit :=
  ((Call.set "w" (.map none [(.str "a.b", .str "$\x7bself:m\x7d"),
      (.str "a", .map none [(.str "b", .map none [(.str "k", .atom (.int 1))])]),
      (.str "c", .str "$\x7bself:m\x7d"), (.str "c.k", .atom (.int 9))])).run
    ((Call.set "m" (.map none [(.str "z", .atom (.int 0))])).run blank).1).1

/-- What has been set is not read back where a later leaf has the same path, where a leaf before it
puts a shared mapping on its way, and where its path begins with a separator. -/
theorem set_not_read_back :
    (doubled.Reachable ∧ ∃ s', doubled.set "x.a.b" (.atom (.int 7)) = (s', .ok ()) ∧
      s'.get "x.a.b" (.str "none") = .ok (.atom (.int 5))) ∧
    (shared.Reachable ∧ ∃ s', shared.set "w.a.b.k" (.atom (.int 7)) = (s', .ok ()) ∧
      s'.get "w.a.b.k" (.str "none") = .ok (.atom (.int 9))) ∧
    (blank.Reachable ∧ ∃ s', blank.set ".k" (.atom (.int 5)) = (s', .ok ()) ∧
      s'.get ".k" (.str "none") = .ok (.str "none")) := by
  refine ⟨⟨reachable_blank.called _, _, eq_of_isOk ?_, eq_of_scalar? ?_⟩,
    ⟨(reachable_blank.called _).called _, _, eq_of_isOk ?_, eq_of_scalar? ?_⟩,
    reachable_blank, _, eq_of_isOk ?_, eq_of_scalar? ?_⟩ <;> decide +kernel

end Store

end LayeredConfig
