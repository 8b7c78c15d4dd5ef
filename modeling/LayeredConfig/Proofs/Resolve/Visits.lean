import LayeredConfig.Proofs.Resolve.Kept
import LayeredConfig.Proofs.Resolve.Noted

/-!
# One result for all references to a container

A pass comes to every text of a definition once, leaf by leaf and, inside a leaf, from
first to last.  Here the same pass is made while each of these visits is written down,
with the states before and after it.  All texts that are exactly references to one
container have the same object for their value: the first of them that is visited may
have it resolved, and no later one does anything but take it, whatever lies between
them.

* `Visit`, `Resolver.visitTree` — the pass with its visits.
* `Resolver.Trace` — visits between two states, with nothing taken away in between.
* `Resolver.observes_resolveWith`, `Resolver.observes_visitLeaves` — the visits do not show.
* `Resolver.agree_of_later` — two references to one container, one after the other.
* `Resolver.references_agree` — all references of a pass.
-/

namespace LayeredConfig

variable {σ φ : Type}

/-! ## Visits -/

namespace Tree

mutual

/-- The texts of a value that are resolved with it, in order. -/
def texts : Value → List String
  | atom (.str s) => [s]
  | list _ items => itemTexts items
  | tuple items => itemTexts items
  | map _ es => entryTexts es
  | _ => []

/-- The texts of the items of a list. -/
def itemTexts : List Value → List String
  | [] => []
  | x :: xs => texts x ++ itemTexts xs

/-- The texts of the values of entries. -/
def entryTexts : List (Key × Value) → List String
  | [] => []
  | (_, v) :: es => texts v ++ entryTexts es

end

end Tree

/-- A text of a definition and how it is resolved. -/
structure Visit (σ : Type) where
  /-- The text. -/
  text : String
  /-- The state before. -/
  before : Scratch σ
  /-- The value of the text. -/
  value : Shared
  /-- The state after. -/
  after : Scratch σ

/-- The value as it is in a later state, after the changes made in the meantime. -/
def Visit.valueIn (x : Visit σ) (t : Scratch σ) : Shared :=
  Tree.reviseAll (t.revisions.take (t.revisions.length - x.after.revisions.length)) x.value

theorem Visit.valueIn_of_revisions {x : Visit σ} {t : Scratch σ} {changes : List Tree.Revision}
    (h : t.revisions = changes ++ x.after.revisions) :
    x.valueIn t = Tree.reviseAll changes x.value := by
  have hlength : (changes ++ x.after.revisions).length - x.after.revisions.length =
      changes.length := by
    rw [List.length_append]
    omega
  rw [valueIn, h, hlength, List.take_left]

/-- Steps of a resolution while visits are written down. -/
abbrev Visiting (σ φ : Type) := StateT (List (Visit σ)) (Run σ φ)

namespace Resolver

variable (r : Resolver σ φ)

/-- A text resolved at the top, as a visit. -/
def visitText (text : String) : Visiting σ φ Shared := fun visits => do
  let before ← get
  let v ← r.resolveAt 0 (.str text)
  let after ← get
  return (v, visits ++ [⟨text, before, v, after⟩])

/-- Leaves resolved one after the other into a tree, with the visits of their texts. -/
def visitLeaves : Flat Unit → List (Key × Shared) → Visiting σ φ (List (Key × Shared))
  | [], es => pure es
  | (path, leaf) :: rest, es => do
    let v ← resolveWith r.visitText leaf
    visitLeaves rest (← r.writeLeaf es path v)

/-- The tree of a definition, resolved in one pass, with the visits of its texts. -/
def visitTree (definition : Value) : Visiting σ φ Shared := fun visits => do
  let leaves ← ResolveError.ofExcept .flatten (definition.flatten "")
  Run.report ⟨.debug, .placeholders, "Resolving " ++ toString leaves.length ++ " leaves"⟩
  let (es, visits) ← Run.withCache ((r.visitLeaves leaves []).run visits)
  return (.map none es, visits)

/-! ## Visits in order -/

/-- Visits from one state to another: each is the resolution of its text, and nothing is taken away
between one and the next. -/
inductive Trace : Scratch σ → List (Visit σ) → Scratch σ → Prop where
  /-- No visits. -/
  | nil {s t : Scratch σ} : s.Later r.registry t → Trace s [] t
  /-- A visit before others. -/
  | cons {s t : Scratch σ} {x : Visit σ} {xs : List (Visit σ)} : s.Later r.registry x.before →
    (r.resolveAt 0 (.str x.text)).run x.before = (.ok x.value, x.after) →
    Trace x.after xs t → Trace s (x :: xs) t

/-- A visit takes nothing away. -/
theorem later_of_visit {x : Visit σ}
    (h : (r.resolveAt 0 (.str x.text)).run x.before = (.ok x.value, x.after)) :
    x.before.Later r.registry x.after := by
  have hlater := r.later_resolve (r.passesLeft 0) (.str x.text) x.before
  change x.before.Later r.registry ((r.resolveAt 0 (.str x.text)).run x.before).2 at hlater
  rwa [h] at hlater

namespace Trace

variable {r} {s t u : Scratch σ} {xs ys : List (Visit σ)}

theorem of_later (hst : s.Later r.registry t) (h : r.Trace t xs u) : r.Trace s xs u := by
  cases h with
  | nil htu => exact .nil (hst.trans htu)
  | cons hbefore hrun hrest => exact .cons (hst.trans hbefore) hrun hrest

theorem append (h : r.Trace s xs t) (h' : r.Trace t ys u) : r.Trace s (xs ++ ys) u := by
  induction h with
  | nil hst => exact h'.of_later hst
  | cons hbefore hrun _ ih => exact .cons hbefore hrun (ih h')

theorem later (h : r.Trace s xs t) : s.Later r.registry t := by
  induction h with
  | nil hst => exact hst
  | cons hbefore hrun _ ih => exact (hbefore.trans (r.later_of_visit hrun)).trans ih

/-- Each visit is the resolution of its text, and nothing is taken away before it or after it. -/
theorem of_mem (h : r.Trace s xs t) : ∀ x ∈ xs, s.Later r.registry x.before ∧
    (r.resolveAt 0 (.str x.text)).run x.before = (.ok x.value, x.after) ∧
    x.after.Later r.registry t := by
  induction h with
  | nil => exact nofun
  | cons hbefore hrun hrest ih =>
    refine List.forall_mem_cons.2 ⟨⟨hbefore, hrun, hrest.later⟩, fun x hx => ?_⟩
    obtain ⟨hfrom, hx, hto⟩ := ih x hx
    exact ⟨(hbefore.trans (r.later_of_visit hrun)).trans hfrom, hx, hto⟩

end Trace

/-! ## The visits do not show -/

/-- The second steps do what the first ones do, and visit the texts. -/
def Observes {β : Type} (x : Run σ φ β) (y : Visiting σ φ β) (texts : List String) : Prop :=
  ∀ (s : Scratch σ) (visits : List (Visit σ)),
    match x.run s with
    | (.ok b, t) => ∃ new, (y.run visits).run s = (.ok (b, visits ++ new), t) ∧
        r.Trace s new t ∧ new.map (·.text) = texts
    | (.error e, t) => (y.run visits).run s = (.error e, t)

section Observed

variable {r} {β γ : Type} {x : Run σ φ β} {y : Visiting σ φ β} {texts texts' : List String}

theorem observes_pure (b : β) : r.Observes (pure b) (pure b) [] := by
  intro s visits
  refine ⟨[], ?_, .nil (.refl _ s), rfl⟩
  rw [List.append_nil]
  rfl

theorem observes_bind {f : β → Run σ φ γ} {g : β → Visiting σ φ γ} (h : r.Observes x y texts)
    (hf : ∀ b, r.Observes (f b) (g b) texts') :
    r.Observes (x >>= f) (y >>= g) (texts ++ texts') := by
  intro s visits
  have hx := h s visits
  rw [StateT.run_bind, Run.run_bind, Run.run_bind]
  generalize x.run s = xs at hx ⊢
  obtain ⟨e | b, t⟩ := xs
  · dsimp only at hx ⊢
    rw [hx]
  · obtain ⟨first, hrun, htrace, htexts⟩ := hx
    dsimp only
    rw [hrun]
    have hrest := hf b t (visits ++ first)
    dsimp only
    generalize (f b).run t = ys at hrest ⊢
    obtain ⟨e | c, u⟩ := ys
    · exact hrest
    · obtain ⟨second, hrun', htrace', htexts'⟩ := hrest
      refine ⟨first ++ second, ?_, htrace.append htrace', ?_⟩
      · rw [hrun', List.append_assoc]
      · rw [List.map_append, htexts, htexts']

/-- A result that is taken further visits nothing more. -/
theorem observes_map (h : r.Observes x y texts) (f : β → γ) :
    r.Observes (x >>= fun b => pure (f b)) (y >>= fun b => pure (f b)) texts := by
  have hbind := observes_bind h fun b => observes_pure (r := r) (f b)
  rwa [List.append_nil] at hbind

/-- Steps that take nothing away may come between visits. -/
theorem observes_lift (h : ∀ s : Scratch σ, s.Later r.registry (x.run s).2) :
    r.Observes x (liftM x : Visiting σ φ β) [] := by
  intro s visits
  have hlater := h s
  have hlift : ((liftM x : Visiting σ φ β).run visits).run s =
      (x >>= fun b => pure (b, visits)).run s := rfl
  rw [hlift, Run.run_bind]
  generalize x.run s = xs at hlater ⊢
  obtain ⟨e | b, t⟩ := xs
  · rfl
  · refine ⟨[], ?_, .nil hlater, rfl⟩
    rw [List.append_nil]
    rfl

variable (r)

theorem observes_visitText (text : String) :
    r.Observes (r.resolveAt 0 (.str text)) (r.visitText text) [text] := by
  intro s visits
  have hlater := r.later_resolve (r.passesLeft 0) (.str text) s
  have hvisit : ((r.visitText text).run visits).run s =
      match (r.resolveAt 0 (.str text)).run s with
      | (.ok v, t) => (.ok (v, visits ++ [⟨text, s, v, t⟩]), t)
      | (.error e, t) => (.error e, t) := by
    change (do
      let v ← r.resolveAt 0 (.str text)
      let after ← get
      return (v, visits ++ [⟨text, s, v, after⟩]) : Run σ φ (Shared × List (Visit σ))).run s = _
    rw [Run.run_bind]
    rcases (r.resolveAt 0 (.str text)).run s with ⟨_ | v, t⟩ <;> rfl
  rw [hvisit]
  change s.Later r.registry ((r.resolveAt 0 (.str text)).run s).2 at hlater
  generalize hrun : (r.resolveAt 0 (.str text)).run s = xs at hlater ⊢
  obtain ⟨e | v, t⟩ := xs
  · rfl
  · exact ⟨_, rfl, .cons (.refl _ s) hrun (.nil (.refl _ t)), rfl⟩

mutual

/-- A value is resolved as without visits, and its texts are visited. -/
theorem observes_resolveWith : (v : Value) →
    r.Observes (r.resolveAt 0 v) (resolveWith r.visitText v) v.texts
  | .atom a => by
    cases a with
    | str s => exact r.observes_visitText s
    | _ => exact observes_pure _
  | .list _ items => observes_map (observes_resolveItems items) _
  | .tuple items => observes_map (observes_resolveItems items) _
  | .map _ es => observes_map (observes_resolveEntries es) _
  | .set _ => observes_pure _

theorem observes_resolveItems : (items : List Value) →
    r.Observes (resolveItems (resolveText (r.engine.substitute (r.passesLeft 0))) items)
      (resolveItems r.visitText items) (Tree.itemTexts items)
  | [] => observes_pure _
  | x :: xs => observes_bind (observes_resolveWith x) fun _ =>
      observes_map (observes_resolveItems xs) _

theorem observes_resolveEntries : (es : List (Key × Value)) →
    r.Observes (resolveEntries (resolveText (r.engine.substitute (r.passesLeft 0))) es)
      (resolveEntries r.visitText es) (Tree.entryTexts es)
  | [] => observes_pure _
  | (_, v) :: es => observes_bind (observes_resolveWith v) fun _ =>
      observes_map (observes_resolveEntries es) _

end

/-- Leaves are resolved and written as without visits, and their texts are visited. -/
theorem observes_visitLeaves (leaves : Flat Unit) (es : List (Key × Shared)) :
    r.Observes (r.resolveLeaves leaves es) (r.visitLeaves leaves es)
      (leaves.flatMap fun leaf => leaf.2.texts) := by
  induction leaves generalizing es with
  | nil => exact observes_pure es
  | cons leaf leaves ih =>
    obtain ⟨path, v⟩ := leaf
    rw [List.flatMap_cons]
    refine observes_bind (r.observes_resolveWith v) fun w => ?_
    have hwrite := observes_lift (r.later_writeLeaf es path w)
    exact observes_bind hwrite fun es' => ih es'

end Observed

theorem run_visitTree {es : List (Key × Value)} (hes : Tree.areLegible es = true)
    (visits : List (Visit σ)) (s : Scratch σ) :
    ((r.visitTree (.map () es)).run visits).run s =
      match ((r.visitLeaves (Tree.flattenEntries "" es) []).run visits).run
        (begin (Tree.flattenEntries "" es).length s) with
      | (.ok (es', visits), t) => (.ok (.map none es', visits), { t with cache := none })
      | (.error e, t) => (.error e, { t with cache := none }) := by
  let s' := { s with
    log := ⟨.debug, .placeholders,
      "Resolving " ++ toString (Tree.flattenEntries "" es).length ++ " leaves"⟩ :: s.log }
  unfold visitTree
  rw [Tree.flatten_of_areLegible () hes]
  change (Run.withCache ((r.visitLeaves (Tree.flattenEntries "" es) []).run visits) >>=
    fun found => pure (.map none found.1, found.2) : Run σ φ (Shared × List (Visit σ))).run s' = _
  have hpass : (Run.withCache ((r.visitLeaves (Tree.flattenEntries "" es) []).run visits)).run s' =
      ((((r.visitLeaves (Tree.flattenEntries "" es) []).run visits).run
          (begin (Tree.flattenEntries "" es).length s)).1,
        { (((r.visitLeaves (Tree.flattenEntries "" es) []).run visits).run
          (begin (Tree.flattenEntries "" es).length s)).2 with cache := none }) := rfl
  rw [Run.run_bind, hpass]
  dsimp only
  rcases ((r.visitLeaves (Tree.flattenEntries "" es) []).run visits).run
    (begin (Tree.flattenEntries "" es).length s) with ⟨_ | found, t⟩ <;> rfl

/-- A pass over a definition that has a result has it with visits too: one of each text, in order,
with nothing taken away between the beginning of the pass and its end. -/
theorem exists_visits {definition : Value} {s t : Scratch σ} {tree : Shared}
    (h : (r.resolveTree definition).run s = (.ok tree, t)) :
    ∃ leaves visits t', definition.flatten "" = .ok leaves ∧
      ((r.visitTree definition).run []).run s = (.ok (tree, visits), t) ∧
      visits.map (·.text) = (leaves.flatMap fun leaf => leaf.2.texts) ∧
      r.Trace (begin leaves.length s) visits t' ∧ t = { t' with cache := none } := by
  obtain ⟨es, rfl, hlegible⟩ := r.exists_map_of_resolveTree h
  obtain ⟨es', t', hleaves, rfl, ht⟩ := r.exists_of_resolveTree_map h
  have hvisits := r.observes_visitLeaves (Tree.flattenEntries "" es) []
    (begin (Tree.flattenEntries "" es).length s) []
  rw [hleaves] at hvisits
  obtain ⟨visits, hrun, htrace, htexts⟩ := hvisits
  refine ⟨_, visits, t', Tree.flatten_of_areLegible () hlegible "", ?_, htexts, htrace, ht⟩
  rw [r.run_visitTree hlegible, hrun, ht]
  rfl

/-! ## References to one container -/

/-- A state within a pass, at the top. -/
structure AtTop (s : Scratch σ) : Prop where
  active : s.active = []
  isOpen : s.cache.isSome = true
  built : s.Built r.registry

variable {r}

theorem AtTop.later {s t : Scratch σ} (h : r.AtTop s) (hst : s.Later r.registry t) :
    r.AtTop t :=
  ⟨hst.active.trans h.active, hst.isSome.trans h.isOpen, hst.built h.built⟩

/-- Of two references to one container the second one takes the value of the first, as it has become
by then, and does nothing else; from then on both values stay the same. -/
theorem agree_of_later (hdepth : 1 ≤ r.maxDepth) {x y : Visit σ} {a : Address} {t : Scratch σ}
    (htop : r.AtTop x.before)
    (hx : (r.resolveAt 0 (.str x.text)).run x.before = (.ok x.value, x.after))
    (hy : (r.resolveAt 0 (.str y.text)).run y.before = (.ok y.value, y.after))
    (hxa : r.target? x.text = some a) (hya : r.target? y.text = some a)
    (hbetween : x.after.Later r.registry y.before) (hend : y.after.Later r.registry t) :
    y.after = y.before ∧ y.value = x.valueIn y.after ∧ x.valueIn t = y.valueIn t := by
  obtain ⟨left, hleft⟩ : ∃ left, r.passesLeft 0 = left + 1 :=
    ⟨r.passesLeft 0 - 1, by unfold passesLeft; omega⟩
  obtain ⟨-, hheld⟩ := r.held_of_resolveAt hxa hleft htop.active htop.isOpen htop.built hx
  have htop' : r.AtTop y.before := (htop.later (r.later_of_visit hx)).later hbetween
  obtain ⟨changes, hchanges, hkept⟩ := hbetween.held
  have hheld' := hkept a left x.value hheld
  obtain ⟨v, -, hat, hv, -⟩ := r.substitute_of_target? hya
  have hcontainer : (Tree.reviseAll changes x.value).isContainer = true := by
    obtain ⟨l, hl, hagrees⟩ := Cache.exists_mem_of_find? hheld'
    obtain rfl := CacheKey.eq_of_agrees hagrees
    exact htop'.built _ hl v hat hv
  rw [r.run_resolveAt_of_held hya hleft htop'.active htop'.isOpen hcontainer hheld'] at hy
  obtain ⟨hvalue, hafter⟩ := Prod.mk.inj hy
  obtain ⟨later, hlaterChanges, -⟩ := hend.held
  have hthen : y.after.revisions = changes ++ x.after.revisions := hafter ▸ hchanges
  have hxt : x.valueIn t = Tree.reviseAll (later ++ changes) x.value := by
    refine Visit.valueIn_of_revisions ?_
    rw [hlaterChanges, hthen, List.append_assoc]
  refine ⟨hafter.symm, ?_, ?_⟩
  · rw [Visit.valueIn_of_revisions hthen]
    exact (Except.ok.inj hvalue).symm
  · rw [hxt, Visit.valueIn_of_revisions hlaterChanges, Tree.reviseAll_append,
      ← Except.ok.inj hvalue]

theorem Trace.pairwise_agree (hdepth : 1 ≤ r.maxDepth) {s t : Scratch σ} {xs : List (Visit σ)}
    (htop : r.AtTop s) (h : r.Trace s xs t) :
    xs.Pairwise fun x y => ∀ a, r.target? x.text = some a → r.target? y.text = some a →
      y.after = y.before ∧ y.value = x.valueIn y.after ∧ x.valueIn t = y.valueIn t := by
  induction h with
  | nil => exact .nil
  | cons hbefore hrun hrest ih =>
    have hhere := htop.later hbefore
    refine .cons (fun y hy a hxa hya => ?_) (ih (hhere.later (r.later_of_visit hrun)))
    obtain ⟨hbetween, hy, hend⟩ := hrest.of_mem y hy
    exact agree_of_later hdepth hhere hrun hy hxa hya hbetween hend

variable (r)

/-- In a pass with a result all texts that are exactly references to one container have the same
object for their value: when a later one is visited it has the value that the first one has by then,
and at the end of the pass both have the same.  Resolving the later one changes nothing, not even
the notes, in which every call of a function is written down. -/
theorem references_agree (hdepth : 1 ≤ r.maxDepth) {definition : Value} {s t : Scratch σ}
    {tree : Shared} (hs : s.active = []) (h : (r.resolveTree definition).run s = (.ok tree, t)) :
    ∃ leaves n visits, definition.flatten "" = .ok leaves ∧
      ((r.noting.visitTree definition).run []).run (s.beside .blank) =
        (.ok (tree, visits), t.beside n) ∧
      visits.map (·.text) = (leaves.flatMap fun leaf => leaf.2.texts) ∧
      (∀ x ∈ visits,
        (r.noting.resolveAt 0 (.str x.text)).run x.before = (.ok x.value, x.after)) ∧
      visits.Pairwise fun x y => ∀ a, r.target? x.text = some a → r.target? y.text = some a →
        y.after = y.before ∧ y.value = x.valueIn y.after ∧
          x.valueIn (t.beside n) = y.valueIn (t.beside n) := by
  have hkeeps := r.noting_keepsStep (fun _ => True) []
  have hrel : (Run.sideBySide (Scratch.Noted (fun _ => True) []) fun _ => False).rel Eq
      (r.resolveTree definition) (r.noting.resolveTree definition) := by
    rw [← treeWith_resolveAt, ← treeWith_resolveAt]
    refine hkeeps.treeWith (fun v => hkeeps.simulates.resolve (r.passesLeft 0) v)
      (fun path _ _ hes hv => r.noting_writeLeaf _ _ path hes hv) rfl ?_ definition
    rintro es _ rfl
    rfl
  obtain ⟨n, hnoted, -⟩ := Scratch.exists_beside_of_rel hrel s
  rw [h] at hnoted
  obtain ⟨leaves, visits, t', hleaves, hrun, htexts, htrace, ht⟩ := r.noting.exists_visits hnoted
  have htop : r.noting.AtTop (begin leaves.length (s.beside .blank)) := ⟨hs, rfl, nofun⟩
  refine ⟨leaves, n, visits, hleaves, hrun, htexts, fun x hx => (htrace.of_mem x hx).2.1, ?_⟩
  have hpairs := Trace.pairwise_agree (r := r.noting) hdepth htop htrace
  refine hpairs.imp fun {x y} hagree a hxa hya => ?_
  obtain ⟨hafter, hvalue, hend⟩ := hagree a hxa hya
  refine ⟨hafter, hvalue, ?_⟩
  rw [ht]
  exact hend

/-- A definition with a library that holds a number which a function gives, and with three
references to it at different places.  Between them the first one has an entry added. -/
def library : Value :=
  .map () [(.str "lib", .map () [(.str "n", .str "@\x7bcount:\x7d")]),
    (.str "a", .str "$\x7bself:lib, 1\x7d"), (.str "a.k", .atom (.int 5)),
    (.str "b", .list () [.str "$\x7bself: lib\x7d",
      .map () [(.str "c", .str "$\x7bself:lib, x\x7d")]])]

/-- A resolver of the library whose function counts its calls. -/
def libraryResolver : Resolver Nat Unit where
  registry := ⟨library, [(.str "count", .atom (.fn ⟨0, "count"⟩))]⟩
  host := ⟨fun _ _ m => (m + 1, .ok (.atom (.int m))), fun _ m => m⟩
  maxDepth := 10
  strict := true

/-- The function is called once for the library itself and once for the three references, and these
have the same value at the end. -/
theorem references_agree_library :
    ∃ (tree : Shared) (t : Scratch Nat) (n : Notes)
        (number first second third : Visit (Nat × Notes)),
      ((libraryResolver.noting.visitTree library).run []).run
        ((Scratch.start 0).beside .blank) =
          (.ok (tree, [number, first, second, third]), t.beside n) ∧
      t.memory = 2 ∧ second.after = second.before ∧ third.after = third.before ∧
      second.value = first.valueIn second.after ∧ third.value = first.valueIn third.after ∧
      first.valueIn (t.beside n) = third.valueIn (t.beside n) := by
  have hok : ((libraryResolver.resolveTree library).run (Scratch.start 0)).1.isOk = true := by
    decide +kernel
  have hcalls : ((libraryResolver.resolveTree library).run (Scratch.start 0)).2.memory = 2 := by
    decide +kernel
  have htarget : ∀ text ∈ ["$\x7bself:lib, 1\x7d", "$\x7bself: lib\x7d", "$\x7bself:lib, x\x7d"],
      libraryResolver.target? text = some ⟨"self", [0]⟩ := by
    decide +kernel
  obtain ⟨tree, t, h⟩ := Run.exists_of_isOk hok
  rw [h] at hcalls
  obtain ⟨leaves, n, visits, hleaves, hrun, htexts, -, hagree⟩ :=
    references_agree libraryResolver (by decide) rfl h
  obtain rfl := Except.ok.inj hleaves
  have htexts' : visits.map (·.text) = ["@\x7bcount:\x7d", "$\x7bself:lib, 1\x7d",
      "$\x7bself: lib\x7d", "$\x7bself:lib, x\x7d"] := htexts.trans (by decide +kernel)
  obtain ⟨number, first, second, third, rfl, -, hfirst, hsecond, hthird⟩ :
      ∃ number first second third, visits = [number, first, second, third] ∧
        number.text = "@\x7bcount:\x7d" ∧ first.text = "$\x7bself:lib, 1\x7d" ∧
        second.text = "$\x7bself: lib\x7d" ∧ third.text = "$\x7bself:lib, x\x7d" := by
    simpa [List.map_eq_cons_iff] using htexts'
  obtain ⟨-, hrest⟩ := List.pairwise_cons.1 hagree
  obtain ⟨hwithFirst, -⟩ := List.pairwise_cons.1 hrest
  have htarget' : ∀ x ∈ [first, second, third],
      libraryResolver.target? x.text = some ⟨"self", [0]⟩ := by
    simpa [hfirst, hsecond, hthird] using htarget
  have hat := htarget' first (by simp)
  obtain ⟨hsame, hvalue, -⟩ := hwithFirst second (by simp) _ hat (htarget' second (by simp))
  obtain ⟨hsame', hvalue', hend⟩ := hwithFirst third (by simp) _ hat (htarget' third (by simp))
  exact ⟨tree, t, n, number, first, second, third, hrun, hcalls, hsame, hsame', hvalue, hvalue',
    hend⟩

end Resolver

end LayeredConfig
