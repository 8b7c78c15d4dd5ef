import LayeredConfig.Proofs.Resolve.Keeping

/-!
# What results are made of

A look-up that finds nothing is answered by a default, by the undefined value or by
the word itself, on every way through a resolution.  So a resolution brings in no
scalars of its own but texts, the words that literals stand for and numbers: what it
hands out, what it keeps for later and what it hands over to functions is made of what
stands in the namespaces and in the values that it is called for.

* `Run.keeps_resolveWith` — a value is resolved to what its texts are resolved to.
* `Resolver.keeps_carryOut` — one call of a resolver.
* `Resolver.missing_notMem_carryOut` — the scalar of a failed look-up never comes out, and never
  reaches a function.
-/

namespace LayeredConfig

open Template

variable {σ φ : Type} {p : Atom → Prop} {I : σ → Prop}

/-! ## Values resolved text by text -/

section Values

variable {J : Scratch σ → Prop} {text : String → Run σ φ Shared}

mutual

/-- A value has a result that is made as told if its texts have such results. -/
theorem Run.keeps_resolveWith (ht : ∀ s, (text s).Keeps J (Tree.MadeOf p)) :
    (v : Value) → v.MadeOf p → (resolveWith text v).Keeps J (Tree.MadeOf p)
  | .atom a, h => by
    cases a with
    | str s => exact ht s
    | _ => exact keeps_pure (Tree.madeOf_atom_iff.2 (Tree.madeOf_atom_iff.1 h))
  | .list _ items, h =>
    keeps_bind (keeps_resolveItems ht items (Tree.madeOf_list_iff.1 h)) fun _ hitems =>
      keeps_pure (Tree.madeOf_list_iff.2 hitems)
  | .tuple items, h =>
    keeps_bind (keeps_resolveItems ht items (Tree.madeOf_tuple_iff.1 h)) fun _ hitems =>
      keeps_pure (Tree.madeOf_list_iff.2 hitems)
  | .map _ es, h =>
    keeps_bind (keeps_resolveEntries ht es (Tree.madeOf_map_iff.1 h)) fun _ hes =>
      keeps_pure (Tree.madeOf_map_iff.2 hes)
  | .set _, h => keeps_pure h

theorem Run.keeps_resolveItems (ht : ∀ s, (text s).Keeps J (Tree.MadeOf p)) :
    (items : List Value) → (∀ x ∈ items, x.MadeOf p) →
      (resolveItems text items).Keeps J fun items' => ∀ x ∈ items', x.MadeOf p
  | [], _ => keeps_pure nofun
  | x :: xs, h => by
    obtain ⟨hx, hxs⟩ := List.forall_mem_cons.1 h
    refine keeps_bind (keeps_resolveWith ht x hx) fun y hy => ?_
    refine keeps_bind (keeps_resolveItems ht xs hxs) fun ys hys => ?_
    exact keeps_pure (List.forall_mem_cons.2 ⟨hy, hys⟩)

theorem Run.keeps_resolveEntries (ht : ∀ s, (text s).Keeps J (Tree.MadeOf p)) :
    (es : List (Key × Value)) → (∀ e ∈ es, Tree.EntryMadeOf p e) →
      (resolveEntries text es).Keeps J fun es' => ∀ e ∈ es', Tree.EntryMadeOf p e
  | [], _ => keeps_pure nofun
  | (k, v) :: es, h => by
    obtain ⟨⟨hk, hv⟩, hes⟩ := List.forall_mem_cons.1 h
    refine keeps_bind (keeps_resolveWith ht v hv) fun w hw => ?_
    refine keeps_bind (keeps_resolveEntries ht es hes) fun es' hes' => ?_
    exact keeps_pure (List.forall_mem_cons.2 ⟨⟨hk, hw⟩, hes'⟩)

end

theorem Run.keeps_resolveText (hp : Atom.Common p) (ht : ∀ s, (text s).Keeps J (Tree.MadeOf p))
    (s : String) : (resolveText text s).Keeps J (Tree.MadeOf p) :=
  keeps_bind (ht s) fun _ hv => keeps_pure (Tree.madeOf_coerce hp _ hv)

end Values

theorem Tree.madeOf_firstDefault {α : Type} (hp : Atom.Common p) (words : List String) :
    (firstDefault words : Tree α).MadeOf p := by
  induction words with
  | nil => exact madeOf_undefined hp
  | cons t ts ih =>
    unfold firstDefault
    split
    · exact ih
    · exact madeOf_str hp t

namespace Resolver

section Kept

variable {r : Resolver σ φ} (h : r.MadeOf p I)

include h

/-! ## What an engine leaves open -/

theorem keeps_exhausted (s : String) :
    (r.exhausted s).Keeps (Scratch.Holds p I) (Tree.MadeOf p) := by
  unfold exhausted
  split
  · exact Run.keeps_throw _
  · exact Run.keeps_bind (Run.keeps_report _) fun _ _ =>
      Run.keeps_pure (Tree.madeOf_str h.common s)

theorem keeps_apply (f : FnHandle) {args : List Shared} (hargs : ∀ v ∈ args, v.MadeOf p) :
    (r.apply f args).Keeps (Scratch.Holds p I) (Tree.MadeOf p) := by
  intro s hs
  rw [run_apply]
  refine ⟨⟨h.host.memory hs.memory hargs, hs.cache⟩, fun v hv => ?_⟩
  cases hout : (r.host.call f args s.memory).2 with
  | ok w =>
    rw [hout] at hv
    exact Except.ok.inj hv ▸ h.host.result hs.memory hargs hout
  | error e =>
    rw [hout] at hv
    cases hv

omit h in
theorem keeps_circular {v : Value} (hv : v.MadeOf p) (reference : String) :
    (r.circular v reference).Keeps (Scratch.Holds p I) (Tree.MadeOf p) := by
  unfold circular
  split
  · exact Run.keeps_throw _
  · refine Run.keeps_bind (Run.keeps_report _) fun _ _ => Run.keeps_pure ?_
    rw [Tree.MadeOf, Tree.atoms_unmarked, Tree.atoms_copy]
    exact hv

omit h in
/-- A result that is held is made as told, and so is one that is put there. -/
theorem keeps_cachedContainer {resolve : Value → Run σ φ Shared} {v : Value} (hv : v.MadeOf p)
    (hr : (resolve v).Keeps (Scratch.Holds p I) (Tree.MadeOf p)) (left : Nat) (a : Address)
    (reference : String) :
    (r.cachedContainer resolve left a v reference).Keeps (Scratch.Holds p I) (Tree.MadeOf p) := by
  intro s hs
  rw [run_cachedContainer]
  split
  · exact keeps_circular hv reference s hs
  · split
    · rename_i held hfind
      refine ⟨hs, fun b hb => ?_⟩
      obtain ⟨l, hl, -⟩ := Cache.exists_mem_of_find? hfind
      cases hcache : s.cache with
      | none =>
        rw [hcache] at hl
        cases hl
      | some c =>
        rw [hcache] at hl
        exact Except.ok.inj hb ▸ hs.cache c hcache _ hl
    · have hrun := hr { s with active := a :: s.active } ⟨hs.memory, hs.cache⟩
      rw [Run.withActive, Run.run_between]
      generalize (resolve v).run { s with active := a :: s.active } = xs at hrun ⊢
      obtain ⟨_ | plain, t⟩ := xs
      · exact ⟨⟨hrun.1.memory, hrun.1.cache⟩, fun b hb => by cases hb⟩
      · have hmarked : (plain.withMark (.result t.fresh)).MadeOf p := by
          rw [Tree.MadeOf, Tree.atoms_withMark]
          exact hrun.2 plain rfl
        refine ⟨⟨hrun.1.memory, fun c hc => ?_⟩, fun b hb => Except.ok.inj hb ▸ hmarked⟩
        obtain ⟨c', hc', rfl⟩ := Option.map_eq_some_iff.1 hc
        exact List.forall_mem_cons.2 ⟨hmarked, hrun.1.cache c' hc'⟩

omit h in
theorem keeps_container {resolve : Value → Run σ φ Shared} {v : Value} (hv : v.MadeOf p)
    (hr : (resolve v).Keeps (Scratch.Holds p I) (Tree.MadeOf p)) (left : Nat) (a : Address)
    (reference : String) :
    (r.container resolve left a v reference).Keeps (Scratch.Holds p I) (Tree.MadeOf p) := by
  have hcached := keeps_cachedContainer (r := r) hv hr left a reference
  intro s hs
  rw [run_container]
  split
  · exact hcached s hs
  · obtain ⟨ht, hresult⟩ := hcached { s with cache := some [] } ⟨hs.memory, by simp⟩
    exact ⟨⟨ht.memory, nofun⟩, hresult⟩

/-! ## Placeholders -/

section Placeholders

variable {sub : String → Run σ φ Shared}
  (hsub : ∀ s, (sub s).Keeps (Scratch.Holds p I) (Tree.MadeOf p))

include hsub

theorem keeps_resolveWith {v : Value} (hv : v.MadeOf p) :
    (resolveWith (resolveText sub) v).Keeps (Scratch.Holds p I) (Tree.MadeOf p) :=
  Run.keeps_resolveWith (Run.keeps_resolveText h.common hsub) v hv

omit hsub in
theorem madeOf_of_get? {space : String} {v : Value} (hv : r.registry.get? space = some v) :
    v.MadeOf p := by
  unfold Registry.get? at hv
  split at hv
  · exact Option.some.inj hv ▸ h.definition
  · obtain ⟨k, hk, -⟩ := Entries.exists_of_find? hv
    exact h.others _ hk

/-- What a look-up has not found is answered by a default or by the undefined value. -/
theorem keeps_lookup (left : Nat) (space path : String) (defaults : List String) :
    (r.engine.lookup sub left space path defaults).Keeps (Scratch.Holds p I) (Tree.MadeOf p) := by
  have hdefault : (pure (firstDefault defaults) : Run σ φ Shared).Keeps (Scratch.Holds p I)
      (Tree.MadeOf p) := Run.keeps_pure (Tree.madeOf_firstDefault h.common defaults)
  unfold Engine.lookup
  refine Run.keeps_bind (Run.keeps_ofExcept _ _) fun found hfound => ?_
  have hfound : ∀ steps v, found = some (steps, v) → v.MadeOf p := by
    rintro steps v rfl
    split at hfound
    · rename_i u hu
      exact Tree.madeOf_of_descend h.common (madeOf_of_get? h hu) (Tree.descend_of_find? hfound)
    · cases hfound
  match found, hfound with
  | none, _ => exact hdefault
  | some (steps, .set members), hv => exact Run.keeps_pure (hv _ _ rfl)
  | some (steps, .atom a), hv =>
    have ha := Tree.madeOf_atom_iff.1 (hv _ _ rfl)
    cases a with
    | missing => exact hdefault
    | undefined => exact hdefault
    | str s =>
      dsimp only
      split
      · refine Run.keeps_bind (hsub s) fun v hv => ?_
        split
        · exact hdefault
        · exact Run.keeps_pure hv
      · exact Run.keeps_pure (Tree.madeOf_str h.common s)
    | _ => exact Run.keeps_pure (Tree.madeOf_atom_iff.2 ha)
  | some (steps, .list t items), hv =>
    exact keeps_container (hv _ _ rfl) (keeps_resolveWith h hsub (hv _ _ rfl)) _ _ _
  | some (steps, .map t es), hv =>
    exact keeps_container (hv _ _ rfl) (keeps_resolveWith h hsub (hv _ _ rfl)) _ _ _
  | some (steps, .tuple items), hv =>
    exact keeps_container (hv _ _ rfl) (keeps_resolveWith h hsub (hv _ _ rfl)) _ _ _

/-- An argument that a look-up has not found is the word itself. -/
theorem keeps_argument (token : String) :
    (r.engine.argument sub token).Keeps (Scratch.Holds p I) (Tree.MadeOf p) := by
  have hword : (pure (.str token) : Run σ φ Shared).Keeps (Scratch.Holds p I) (Tree.MadeOf p) :=
    Run.keeps_pure (Tree.madeOf_str h.common token)
  unfold Engine.argument
  refine Run.keeps_bind (Run.keeps_ofExcept _ _) fun found hfound => ?_
  match found with
  | none => exact hword
  | some (steps, v) =>
    have hv := keeps_resolveWith h hsub
      (Tree.madeOf_of_descend h.common h.definition (Tree.descend_of_find? hfound))
    cases v with
    | atom a =>
      cases a with
      | missing => exact hword
      | _ => exact hv
    | _ => exact hv

theorem keeps_evaluate (left : Nat) (placeholder : Placeholder) :
    (r.engine.evaluate sub left placeholder).Keeps (Scratch.Holds p I) (Tree.MadeOf p) := by
  unfold Engine.evaluate
  split
  · rcases r.engine.call_cases sub placeholder.spaceName placeholder.tokens with
      ⟨f, -, hcall⟩ | ⟨-, hcall⟩ <;> rw [hcall]
    · exact Run.keeps_bind (Run.keeps_mapM fun token _ => keeps_argument h hsub token)
        fun args hargs => keeps_apply h f hargs
    · exact Run.keeps_bind (Run.keeps_report _) fun _ _ =>
        Run.keeps_pure (Tree.madeOf_undefined h.common)
  · exact keeps_lookup h hsub left _ _ _

theorem keeps_onePass (left : Nat) (s : String) :
    (onePass (r.engine.evaluate sub left) sub s).Keeps (Scratch.Holds p I) (Tree.MadeOf p) := by
  have hevaluate := keeps_evaluate h hsub left
  unfold onePass
  split
  · refine Run.keeps_bind (hevaluate _) fun v hv => ?_
    split
    · exact hsub _
    · exact Run.keeps_pure hv
  · have hfill : ∀ piece, (fillWith (r.engine.evaluate sub left) piece).Keeps (Scratch.Holds p I)
        fun _ => True := by
      intro piece
      cases piece with
      | char c => exact Run.keeps_pure trivial
      | hole placeholder =>
        exact Run.keeps_bind (hevaluate placeholder) fun _ _ =>
          Run.keeps_bind (Run.keeps_ofExcept _ _) fun _ _ => Run.keeps_pure trivial
    exact Run.keeps_bind (Run.keeps_mapM fun piece _ => hfill piece) fun _ _ => hsub _

end Placeholders

/-! ## Calls -/

/-- A text is substituted by what is made as told. -/
theorem keeps_substitute (left : Nat) (s : String) :
    (r.engine.substitute left s).Keeps (Scratch.Holds p I) (Tree.MadeOf p) := by
  -- every way back into `substitute`, through containers and arguments too, has a pass less left
  induction left generalizing s with
  | zero =>
    by_cases hs : hasPlaceholder s.toList = true
    · rw [Engine.substitute_zero _ hs]
      exact keeps_exhausted h s
    · rw [Engine.substitute_of_not_hasPlaceholder _ (by simpa using hs)]
      exact Run.keeps_pure (Tree.madeOf_str h.common s)
  | succ left ih =>
    by_cases hs : hasPlaceholder s.toList = true
    · rw [Engine.substitute_succ _ hs]
      exact keeps_onePass h ih left s
    · rw [Engine.substitute_of_not_hasPlaceholder _ (by simpa using hs)]
      exact Run.keeps_pure (Tree.madeOf_str h.common s)

theorem keeps_resolveAt (depth : Int) {v : Value} (hv : v.MadeOf p) :
    (r.resolveAt depth v).Keeps (Scratch.Holds p I) (Tree.MadeOf p) :=
  keeps_resolveWith h (keeps_substitute h (r.passesLeft depth)) hv

theorem keeps_substituteAt (depth : Int) {v : Value} (hv : v.MadeOf p) :
    (r.substituteAt depth v).Keeps (Scratch.Holds p I) (Tree.MadeOf p) := by
  unfold substituteAt
  split
  · exact keeps_substitute h _ _
  · refine Run.keeps_pure ?_
    rw [Tree.MadeOf, Tree.atoms_unmarked]
    exact hv

/-- A leaf is written, and what is held or remembered is changed, to what is made as told. -/
theorem keeps_writeLeaf {es : List (Key × Shared)} (hes : ∀ e ∈ es, Tree.EntryMadeOf p e)
    (path : String) {v : Shared} (hv : v.MadeOf p) :
    (r.writeLeaf es path v).Keeps (Scratch.Holds p I) fun es' =>
      ∀ e ∈ es', Tree.EntryMadeOf p e := by
  intro s hs
  rw [run_writeLeaf]
  cases hrev : Tree.writeRevision? v (Path.split path) es with
  | none =>
    exact ⟨hs, fun es' hes' => Except.ok.inj hes' ▸ Tree.madeOf_writeEntries h.common hv _ hes⟩
  | some rev =>
    have hcontent := Tree.madeOf_writeRevision h.common hv hes hrev
    refine ⟨⟨h.host.revise hs.memory hcontent, fun c hc => ?_⟩, fun es' hes' =>
      Except.ok.inj hes' ▸ Tree.madeOf_replaceShareEntries rev.share hcontent es hes⟩
    obtain ⟨c', hc', rfl⟩ := Option.map_eq_some_iff.1 hc
    exact List.forall_mem_map.2 fun e he => Tree.madeOf_revise hcontent (hs.cache c' hc' e he)

theorem keeps_resolveLeaves {leaves : Flat Unit} (hleaves : ∀ leaf ∈ leaves, leaf.2.MadeOf p)
    {es : List (Key × Shared)} (hes : ∀ e ∈ es, Tree.EntryMadeOf p e) :
    (r.resolveLeaves leaves es).Keeps (Scratch.Holds p I) fun es' =>
      ∀ e ∈ es', Tree.EntryMadeOf p e := by
  induction leaves generalizing es with
  | nil => exact Run.keeps_pure hes
  | cons leaf rest ih =>
    obtain ⟨hleaf, hrest⟩ := List.forall_mem_cons.1 hleaves
    refine Run.keeps_bind (keeps_resolveAt h 0 hleaf) fun v hv => ?_
    exact Run.keeps_bind (keeps_writeLeaf h hes leaf.1 hv) fun es' hes' => ih hrest hes'

theorem keeps_resolveTree {definition : Value} (hdef : definition.MadeOf p) :
    (r.resolveTree definition).Keeps (Scratch.Holds p I) (Tree.MadeOf p) := by
  intro s hs
  rw [run_resolveTree]
  cases hflat : definition.flatten "" with
  | error e => exact ⟨hs, nofun⟩
  | ok leaves =>
    have hrun := keeps_resolveLeaves h (Tree.madeOf_of_mem_flatten hdef hflat)
      (List.forall_mem_nil _) (begin leaves.length s) ⟨hs.memory, by simp [begin]⟩
    dsimp only
    generalize (r.resolveLeaves leaves []).run (begin leaves.length s) = xs at hrun ⊢
    obtain ⟨_ | es, t⟩ := xs
    · exact ⟨⟨hrun.1.memory, nofun⟩, nofun⟩
    · exact ⟨⟨hrun.1.memory, nofun⟩, fun v hv =>
        Except.ok.inj hv ▸ Tree.madeOf_map_iff.2 (hrun.2 es rfl)⟩

/-- What a call is made for. -/
def Request.subject : Request → Value
  | .tree definition => definition
  | .value _ v => v
  | .text _ v => v

/-- A call for what is made as told gives what is made as told, and leaves only such results and
memories behind, whatever becomes of it. -/
theorem keeps_carryOut {q : Request} (hq : q.subject.MadeOf p) :
    (r.carryOut q).Keeps (Scratch.Holds p I) (Tree.MadeOf p) := by
  cases q with
  | tree definition => exact keeps_resolveTree h hq
  | value depth v => exact keeps_resolveAt h depth hq
  | text depth v => exact keeps_substituteAt h depth hq

theorem holds_after {requests : List Request} (hrequests : ∀ q ∈ requests, q.subject.MadeOf p)
    {s : Scratch σ} (hs : s.Holds p I) : (r.after requests s).Holds p I := by
  induction requests generalizing s with
  | nil => exact hs
  | cons q requests ih =>
    obtain ⟨hq, hrest⟩ := List.forall_mem_cons.1 hrequests
    exact ih hrest (keeps_carryOut h hq s hs).1

/-- Functions that take note of their calls keep to what is told of them. -/
theorem MadeOf.noting : r.noting.MadeOf p fun m => I m.1 ∧ m.2.ArgumentsMadeOf p where
  common := h.common
  definition := h.definition
  others := h.others
  host := h.host.noting

end Kept

/-! ## What never comes out -/

/-- Whether functions take note of their calls does not show in what a call gives. -/
theorem exists_beside_carryOut (r : Resolver σ φ) (q : Request) (s : Scratch σ) :
    ∃ n : Notes, (r.noting.carryOut q).run (s.beside .blank) =
      (((r.carryOut q).run s).1, ((r.carryOut q).run s).2.beside n) := by
  have hstep := r.noting_keepsStep (fun _ => True) []
  have hresolve : ∀ depth v, (Run.sideBySide (Scratch.Noted (fun _ => True) []) fun _ => False).rel
      Eq (r.resolveAt depth v) (r.noting.resolveAt depth v) := fun depth v =>
    hstep.simulates.resolve (r.passesLeft depth) v
  have hrel : (Run.sideBySide (Scratch.Noted (fun _ => True) []) fun _ => False).rel Eq
      (r.carryOut q) (r.noting.carryOut q) := by
    cases q with
    | value depth v => exact hresolve depth v
    | text depth v =>
      simp only [carryOut]
      unfold substituteAt
      split
      · exact hstep.simulates.substitute (r.passesLeft depth) _
      · exact Relator.rel_pure _ rfl
    | tree definition =>
      rw [carryOut, carryOut, ← treeWith_resolveAt, ← treeWith_resolveAt]
      exact hstep.treeWith (hresolve 0) (fun path _ _ => r.noting_writeLeaf _ _ path) rfl
        (fun _ _ => congrArg (Tree.map none)) definition
  obtain ⟨n, hn, -⟩ := Scratch.exists_beside_of_rel hrel s
  exact ⟨n, hn⟩

/-- Let nothing in the namespaces be the scalar of a look-up that has found nothing, and no function
invent it.  After any calls for values without it, a call for such a value gives none that holds it,
nor does any argument of a function that is called on the way, even if the call fails. -/
theorem missing_notMem_carryOut {r : Resolver σ φ} (hhost : r.host.Retains (· ≠ .missing) I)
    (hdef : .missing ∉ r.registry.definition.atoms)
    (hothers : ∀ e ∈ r.registry.others, .missing ∉ e.2.atoms) {memory : σ} (hmemory : I memory)
    {requests : List Request} (hrequests : ∀ q ∈ requests, .missing ∉ q.subject.atoms)
    {q : Request} (hq : .missing ∉ q.subject.atoms) {s : Scratch σ}
    (hs : r.after requests (Scratch.start memory) = s) :
    (∀ v, ((r.carryOut q).run s).1 = .ok v → .missing ∉ v.atoms) ∧
      ∃ n : Notes, (r.noting.carryOut q).run (s.beside .blank) =
          (((r.carryOut q).run s).1, ((r.carryOut q).run s).2.beside n) ∧
        ∀ c ∈ n.calls, ∀ v ∈ c.args, .missing ∉ v.atoms := by
  have h : r.MadeOf (· ≠ .missing) I :=
    ⟨Atom.common_ne_missing, Tree.madeOf_ne_iff.2 hdef,
      fun e he => Tree.madeOf_ne_iff.2 (hothers e he), hhost⟩
  have hheld : s.Holds (· ≠ .missing) I := hs ▸ holds_after h
    (fun q hq => Tree.madeOf_ne_iff.2 (hrequests q hq)) (Scratch.holds_start hmemory)
  have hresult := (keeps_carryOut h (Tree.madeOf_ne_iff.2 hq) s hheld).2
  refine ⟨fun v hv => Tree.madeOf_ne_iff.1 (hresult v hv), ?_⟩
  obtain ⟨n, hn⟩ := exists_beside_carryOut r q s
  have hblank : (s.beside .blank).Holds (· ≠ .missing)
      fun m => I m.1 ∧ m.2.ArgumentsMadeOf (· ≠ .missing) :=
    ⟨⟨hheld.memory, nofun⟩, hheld.cache⟩
  have hnoted := (keeps_carryOut h.noting (Tree.madeOf_ne_iff.2 hq) _ hblank).1.memory.2
  rw [hn] at hnoted
  exact ⟨n, hn, fun c hc v hv => Tree.madeOf_ne_iff.1 (hnoted c hc v hv)⟩

/-- The names of stock functions, each with a memory of its own. -/
def absentFunctions : List (Key × Value) × Stock.Memory :=
  let (first, memory) := Stock.register .first (.atom .null) []
  let (args, memory) := Stock.register .args (.atom .null) memory
  ([(.str "first", .atom (.fn first)), (.str "args", .atom (.fn args))], memory)

/-- A resolver whose definition looks for what is not there: alone, with a default, inside a text, by
way of a reference, and for an argument. -/
def absent : Resolver Stock.Memory Stock.Fault where
  registry := ⟨.map () [(.str "a", .str "$\x7bself:gone\x7d"),
      (.str "b", .str "$\x7bself:gone, 1\x7d"), (.str "c", .str "x $\x7bnone:gone\x7d"),
      (.str "d", .list () [.str "$\x7bself:a, 2\x7d"]), (.str "e", .str "$\x7bself:d\x7d"),
      (.str "f", .str "@\x7bargs:gone, a, @\x7bfirst:d.7\x7d\x7d")], absentFunctions.1⟩
  host := Stock.host
  maxDepth := 6
  strict := true

/-- The whole definition is resolved after a call that fails, and nothing that is absent shows. -/
theorem missing_notMem_carryOut_absent :
    let q := Request.tree absent.registry.definition
    let s := absent.after [.value 0 (.str "@\x7bfirst:\x7d"), .text 6 (.str "$\x7bself:a\x7d")]
      (Scratch.start absentFunctions.2)
    ((absent.carryOut q).run s).1.isOk = true ∧
      (∀ v, ((absent.carryOut q).run s).1 = .ok v → .missing ∉ v.atoms) ∧
      ∃ n : Notes, (absent.noting.carryOut q).run (s.beside .blank) =
          (((absent.carryOut q).run s).1, ((absent.carryOut q).run s).2.beside n) ∧
        ∀ c ∈ n.calls, ∀ v ∈ c.args, .missing ∉ v.atoms := by
  intro q s
  have hkept : absentFunctions.2.KeepsMadeOf (· ≠ .missing) := by
    intro e he
    rw [Tree.madeOf_ne_iff]
    revert e
    decide +kernel
  refine ⟨by decide +kernel, missing_notMem_carryOut (Stock.retains_host Atom.common_ne_missing)
    (by decide +kernel) (by decide +kernel) hkept (by decide +kernel) (by decide +kernel) rfl⟩

end Resolver

end LayeredConfig
