import LayeredConfig.Proofs.Resolve.Depths
import LayeredConfig.Proofs.Resolve.Transparent

/-!
# Arguments of functions

An argument is looked up in the definition, which is not resolved, and what is found is
resolved on the spot.  In a strict resolution that succeeds this is the value that the
resolved tree has at that place, however deep the call stands and whatever was resolved
before it.  Where the definition has nothing, the argument is the word itself, although
the resolved tree may have something there: a text that leads to a container has no
children before it is resolved (`Resolver.arguments_not_as_resolved`).

* `Received` — what reaches a function, by the definition and its resolved tree.
* `Resolver.rel_noted_direct` — every call that is noted has the arguments that its tokens
  have by themselves, by induction on the texts inside each other.
* `Resolver.received_of_argument` — one argument.
* `Resolver.arguments_of_resolveTree` — all the calls of a pass.
-/

namespace LayeredConfig

open Template

variable {σ φ : Type}

/-! ## Where nothing is found -/

section Nothing

variable {text : String → Below φ Value} {above : Finset Address}

/-- The segments lead below a text with placeholders. -/
def LeadsBelowText (segments : List String) (t : Value) : Prop :=
  ∃ front back steps s, segments = front ++ back ∧ back ≠ [] ∧
    Tree.locate? front t = .ok (some (steps, .str s)) ∧ hasPlaceholder s.toList = true

theorem item?_eq_none_iff {α : Type} {s : String} {items : List (Tree α)} :
    Tree.item? s items = .ok none ↔
      Path.index? s = .ok none ∨ ∃ i, Path.index? s = .ok (some i) ∧ items.length ≤ i := by
  unfold Tree.item?
  cases Path.index? s with
  | error e => simp [bind, Except.bind]
  | ok found =>
    cases found with
    | none => simp [bind, Except.bind, pure, Except.pure]
    | some i => simp [bind, Except.bind, pure, Except.pure]

theorem locate?_cons_eq_none_iff {α : Type} {s : String} {ss : List String} {t : Tree α} :
    Tree.locate? (s :: ss) t = .ok none ↔
      Tree.child? s t = .ok none ∨
        ∃ i u, Tree.child? s t = .ok (some (i, u)) ∧ Tree.locate? ss u = .ok none := by
  rw [Tree.locate?]
  cases Tree.child? s t with
  | error e => simp [bind, Except.bind]
  | ok found =>
    cases found with
    | none => simp [bind, Except.bind, pure, Except.pure]
    | some hit =>
      obtain ⟨i, u⟩ := hit
      cases hu : Tree.locate? ss u <;> simp [bind, Except.bind, pure, Except.pure, hu]

/-- A segment that names no child names none afterwards, unless a text with placeholders is
resolved. -/
theorem child?_resolveWith_of_none {v w : Value} (h : resolveWith text v above = .ok w)
    (hv : ∀ s, v = .str s → text s above = .ok (.str s)) {s : String}
    (hs : Tree.child? s v = .ok none) : Tree.child? s w = .ok none := by
  have hitems : ∀ {items : List Value}, Tree.item? s items = .ok none →
      (do return Tree.list () (← resolveItems text items) : Below φ Value) above = .ok w →
        Tree.child? s w = .ok none := by
    intro items hs h
    obtain ⟨items', hitems, h⟩ := Below.exists_of_bind h
    cases h
    have hlength := (forall₂_of_resolveItems hitems).length_eq
    change Tree.item? s items' = _
    rw [item?_eq_none_iff] at hs ⊢
    rwa [← hlength]
  cases v with
  | list t items => exact hitems hs h
  | tuple items => exact hitems hs h
  | map t es =>
    obtain ⟨es', hes, h⟩ := Below.exists_of_bind h
    cases h
    obtain ⟨hit', hnamed, hrel⟩ := namedPlace?_of_forall₂
      (Q := fun v w => resolveWith text v above = .ok w) s (forall₂_of_resolveEntries hes) hs
    cases hrel
    exact hnamed
  | set members =>
    cases h
    exact hs
  | atom a =>
    cases a with
    | str t =>
      have hw : (.str t : Value) = w := Except.ok.inj ((hv t rfl).symm.trans h)
      rw [← hw]
      exact hs
    | _ =>
      cases h
      exact hs

/-- Segments that lead nowhere lead nowhere afterwards, unless they lead below a text with
placeholders. -/
theorem locate?_resolveWith_of_none
    (htext : ∀ s, hasPlaceholder s.toList = false → text s above = .ok (.str s))
    {segments : List String} {v w : Value} (h : resolveWith text v above = .ok w)
    (hbelow : ¬ LeadsBelowText segments v) (hs : Tree.locate? segments v = .ok none) :
    Tree.locate? segments w = .ok none := by
  induction segments generalizing v w with
  | nil => cases hs
  | cons s ss ih =>
    have hv : ∀ t, v = .str t → text t above = .ok (.str t) := by
      rintro t rfl
      refine htext t (Bool.eq_false_iff.2 fun ht => hbelow ?_)
      exact ⟨[], s :: ss, [], t, rfl, by simp, rfl, ht⟩
    rw [locate?_cons_eq_none_iff] at hs ⊢
    rcases hs with hnone | ⟨i, u, hchild, hrest⟩
    · exact Or.inl (child?_resolveWith_of_none h hv hnone)
    · obtain ⟨x, hx, hvalue⟩ := child?_resolveWith h hchild
      refine Or.inr ⟨i, x, hx, ih hvalue ?_ hrest⟩
      rintro ⟨front, back, steps, t, rfl, hback, hfront, ht⟩
      exact hbelow ⟨s :: front, back, i :: steps, t, rfl, hback, Tree.locate?_cons hchild hfront, ht⟩

/-- A path that leads nowhere leads nowhere afterwards, unless it leads below a text with
placeholders. -/
theorem find?_resolveWith_of_none
    (htext : ∀ s, hasPlaceholder s.toList = false → text s above = .ok (.str s))
    {path : String} {v w : Value} (h : resolveWith text v above = .ok w)
    (hbelow : ¬ LeadsBelowText (Path.split path) v) (hs : Tree.find? path v = .ok none) :
    Tree.find? path w = .ok none := by
  unfold Tree.find? at hs ⊢
  split
  · rfl
  · rename_i hne
    rw [if_neg hne] at hs
    exact locate?_resolveWith_of_none htext h hbelow hs

end Nothing

/-! ## Where calls come from -/

/-- The call is made for a placeholder that names the function, and its arguments are what the
tokens of the placeholder have for their values by themselves. -/
def NotedCall.Attributed (e : Engine (Below φ) Unit) (most : Nat) (c : NotedCall) : Prop :=
  ∃ p, c.placeholder = some p ∧ p.sigil = .call ∧
    e.registry.get? p.spaceName = some (.atom (.fn c.function)) ∧
    ∃ left above, left ≤ most ∧
      List.Forall₂ (fun token arg => e.argument (e.substitute left) token above = .ok arg.erase)
        p.tokens c.args

/-- Every call that is noted comes from somewhere, and these placeholders are being evaluated. -/
structure Notes.Attributed (e : Engine (Below φ) Unit) (most : Nat) (ps : List Placeholder)
    (m : σ × Notes) : Prop where
  placeholders : m.2.placeholders = ps
  calls : ∀ c ∈ m.2.calls, c.Attributed e most

/-- Steps between two changes of the notes are steps without notes. -/
theorem Run.rel_note {I J : σ × Notes → Prop} {e : Engine (Below φ) Unit} {β γ : Type}
    {Q : β → γ → Prop} {x : Run (σ × Notes) φ β} {d : Below φ γ} {f g : Notes → Notes}
    (hf : ∀ m n, I (m, n) → J (m, f n)) (hg : ∀ m n, J (m, n) → I (m, g n))
    (h : (unaided J e).rel Q x d) :
    (unaided I e).rel Q (between (Scratch.note f) (Scratch.note g) x) d := by
  rintro s ⟨hs, hI⟩
  obtain ⟨hend, ⟨ht, htJ⟩, hactive⟩ := h (s.note f) ⟨⟨hs.nodup, hs.cache⟩, hf _ _ hI⟩
  exact ⟨hend, ⟨⟨ht.nodup, ht.cache⟩, hg _ _ htJ⟩, hactive⟩

section Attributed

variable {e : Engine (Below φ) Unit} {most : Nat} {ps : List Placeholder} {β γ : Type}
  {Q : β → γ → Prop} {x : Run (σ × Notes) φ β} {d : Below φ γ}

theorem Run.rel_nested_attributed (depth : Int)
    (h : (unaided (Notes.Attributed e most ps) e).rel Q x d) :
    (unaided (Notes.Attributed e most ps) e).rel Q (nested depth x) d :=
  rel_note (fun _ _ hm => ⟨hm.placeholders, hm.calls⟩)
    (fun _ _ hm => ⟨hm.placeholders, hm.calls⟩) h

theorem Run.rel_evaluating_attributed (p : Placeholder)
    (h : (unaided (Notes.Attributed e most (p :: ps)) e).rel Q x d) :
    (unaided (Notes.Attributed e most ps) e).rel Q (evaluating p x) d :=
  rel_note (fun _ _ hm => ⟨congrArg (p :: ·) hm.placeholders, hm.calls⟩)
    (fun _ _ hm => ⟨congrArg List.tail hm.placeholders, hm.calls⟩) h

end Attributed

theorem Host.computes_noting {host : Host σ φ}
    {answer : FnHandle → List Value → Except φ Value} (h : host.Computes answer) :
    host.noting.Computes answer := fun f args m => h f args m.1

namespace Resolver

variable (r : Resolver σ φ) {answer : FnHandle → List Value → Except φ Value}

/-- With notes too, a resolver finds the values that the direct engine finds. -/
theorem noting_readsAlike {I : σ × Notes → Prop} {sub : String → Run (σ × Notes) φ Shared}
    {left : Nat}
    (hsub : ∀ t, (Run.unaided I (r.direct answer)).rel (fun v w => v.erase = w) (sub t)
      ((r.direct answer).substitute left t)) :
    Engine.ReadsAlike (Run.unaided I (r.direct answer)) (fun v w => v.erase = w) r.noting.engine
      sub left (r.direct answer) ((r.direct answer).substitute left) left where
  trees := treeRelation_erase
  registry := rfl
  throw _ err _ hs := ⟨.error err, hs, rfl⟩
  text := hsub
  container reference hv := r.noting.rel_container left reference hv
    (rel_resolveWith treeRelation_erase (rel_resolveText treeRelation_erase hsub))

/-- A call has the arguments that its tokens have by themselves, and is noted with them. -/
theorem rel_call_noting (h : r.host.Computes answer) {most left : Nat} (hle : left ≤ most)
    {p : Placeholder} (hp : p.WellFormed) (hsigil : p.sigil = .call) {ps : List Placeholder}
    {sub : String → Run (σ × Notes) φ Shared}
    (hsub : ∀ t, (Run.unaided (Notes.Attributed (r.direct answer) most (p :: ps))
      (r.direct answer)).rel (fun v w => v.erase = w) (sub t)
        ((r.direct answer).substitute left t)) :
    (Run.unaided (Notes.Attributed (r.direct answer) most (p :: ps)) (r.direct answer)).rel
      (OrSameText fun v w => v.erase = w)
      (r.noting.engine.call sub p.spaceName p.tokens)
      ((r.direct answer).call ((r.direct answer).substitute left) p.spaceName p.tokens) := by
  rcases r.noting.engine.call_cases sub p.spaceName p.tokens with ⟨f, hf, hcall⟩ | ⟨hne, hcall⟩ <;>
    rcases (r.direct answer).call_cases ((r.direct answer).substitute left) p.spaceName p.tokens
      with ⟨f', hf', hcall'⟩ | ⟨hne', hcall'⟩ <;>
    rw [hcall, hcall']
  · obtain rfl : f = f' := by
      have hsame := hf.symm.trans hf'
      cases hsame
      rfl
    intro s hs
    have htokens : ∀ t ∈ p.tokens, hasPlaceholder t.toList = false := fun t htok =>
      hp.not_hasPlaceholder_of_mem_tokens htok
    obtain ⟨hend, ht, hactive⟩ := (r.noting_readsAlike hsub).arguments htokens s hs
    rw [Run.run_bind, Below.run_bind]
    generalize (p.tokens.mapM (r.noting.engine.argument sub)).run s = xs at hend ht hactive ⊢
    generalize hargs : (p.tokens.mapM ((r.direct answer).argument
      ((r.direct answer).substitute left))) s.active.toFinset = out at hend ⊢
    obtain ⟨first, t⟩ := xs
    cases hend with
    | error e => exact ⟨.error e, ht, hactive⟩
    | @ok args args' hsame =>
      have hcomes : NotedCall.Attributed (r.direct answer) most ⟨some p, f, args⟩ := by
        refine ⟨p, rfl, hsigil, hf', left, s.active.toFinset, hle, ?_⟩
        have heach := Below.forall₂_of_mapM hargs
        rwa [← map_erase_of_forall₂ hsame, List.forall₂_map_right_iff] at heach
      have hnote : ∀ m, Notes.Attributed (r.direct answer) most (p :: ps) m →
          Notes.Attributed (r.direct answer) most (p :: ps) (r.noting.host.call f args m).1 := by
        intro m hm
        refine ⟨hm.placeholders, List.forall_mem_cons.2 ⟨?_, hm.calls⟩⟩
        rw [hm.placeholders]
        exact hcomes
      have happly := r.noting.rel_apply (Host.computes_noting h) f hsame hnote t ht
      rw [hactive] at happly
      exact happly
  · exact absurd hf (hne' f)
  · exact absurd hf' (hne f')
  · exact Relator.rel_bind _ (Run.rel_report_unaided _) fun _ _ _ =>
      Relator.rel_pure _ (Or.inl rfl)

/-- A placeholder evaluated with notes has the value that it has by itself. -/
theorem rel_evaluate_noting (h : r.host.Computes answer) {most left : Nat} (hle : left ≤ most)
    {p : Placeholder} (hp : p.WellFormed) {ps : List Placeholder}
    {sub : String → Run (σ × Notes) φ Shared}
    (hsub : ∀ t, (Run.unaided (Notes.Attributed (r.direct answer) most (p :: ps))
      (r.direct answer)).rel (fun v w => v.erase = w) (sub t)
        ((r.direct answer).substitute left t)) :
    (Run.unaided (Notes.Attributed (r.direct answer) most (p :: ps)) (r.direct answer)).rel
      (fun v w => OrSameText (fun v w => v.erase = w) v w ∧ (p.sigil = .lookup → v.erase = w))
      (r.noting.engine.evaluate sub left p)
      ((r.direct answer).evaluate ((r.direct answer).substitute left) left p) := by
  unfold Engine.evaluate
  cases hsigil : p.sigil with
  | call =>
    exact Relator.rel_mono _ (fun v w hvw => ⟨hvw, by simp⟩)
      (r.rel_call_noting h hle hp hsigil hsub)
  | lookup =>
    have hdefaults : ∀ t ∈ p.tokens.tail, hasPlaceholder t.toList = false := fun t htok =>
      hp.not_hasPlaceholder_of_mem_tokens (List.mem_of_mem_tail htok)
    exact Relator.rel_mono _ (fun v w hvw => ⟨Or.inl hvw, fun _ => hvw⟩)
      ((r.noting_readsAlike hsub).lookup p.spaceName (p.tokens.headD "") hdefaults)

/-- A text substituted with notes has the value that it has by itself, and every call that is noted
on the way comes from somewhere. -/
theorem rel_noted_direct (h : r.host.Computes answer)
    (deeper : Int → String → Run (σ × Notes) φ Shared) {most n : Nat} {depth : Int}
    (hn : r.passesLeft depth < n) (hmost : r.passesLeft depth ≤ most) (ps : List Placeholder)
    (s : String) :
    (Run.unaided (Notes.Attributed (r.direct answer) most ps) (r.direct answer)).rel
      (fun v w => v.erase = w) (r.noted deeper n depth s)
      ((r.direct answer).substitute (r.passesLeft depth) s) := by
  -- the placeholders change on the way inwards, so the induction is for all of them
  induction n generalizing depth ps s with
  | zero => exact absurd hn (Nat.not_lt_zero _)
  | succ n ih =>
    rcases r.noted_cases deeper hn s with ⟨hs, hnoted⟩ | ⟨hs, hleft, hnoted⟩ |
      ⟨hs, -, hleft, hfewer, hnoted⟩
    · rw [hnoted, Engine.substitute_of_not_hasPlaceholder _ hs]
      exact Relator.rel_pure _ rfl
    · rw [hnoted, hleft, Engine.substitute_zero _ hs]
      exact r.noting.rel_exhausted s
    · have hnext : r.passesLeft (depth + 1) ≤ most := by omega
      rw [hnoted, hleft, Engine.substitute_succ _ hs]
      refine Run.rel_nested_attributed _ (rel_onePass (fun _ err _ ht => ⟨.error err, ht, rfl⟩)
        ?_ treeRelation_erase (ih hfewer hnext ps) s)
      intro p hp
      exact Run.rel_evaluating_attributed p
        (r.rel_evaluate_noting h hnext hp (ih hfewer hnext (p :: ps)))

/-! ## What reaches a function -/

omit r in
/-- What reaches a function for a token, given the definition and its resolved tree: where the
definition has a value, the one that the tree has there; else the token itself, and the tree has
nothing there either unless the token leads below a text with placeholders. -/
def Received (definition resolved : Value) (token : String) (arg : Value) : Prop :=
  match definition.get token with
  | .error _ => False
  | .ok (.atom .missing) =>
    arg = .str token ∧
      (resolved.get token = .ok Tree.missing ∨ LeadsBelowText (Path.split token) definition)
  | .ok _ => resolved.get token = .ok arg

omit r in
theorem received_of_missing {definition resolved : Value} {token : String}
    (h : definition.get token = .ok Tree.missing)
    (hnone : resolved.get token = .ok Tree.missing ∨
      LeadsBelowText (Path.split token) definition) :
    Received definition resolved token (.str token) := by
  rw [Received, h]
  exact ⟨rfl, hnone⟩

omit r in
theorem received_of_ne_missing {definition resolved u arg : Value} {token : String}
    (h : definition.get token = .ok u) (hu : u ≠ Tree.missing)
    (harg : resolved.get token = .ok arg) : Received definition resolved token arg := by
  rw [Received, h]
  split
  · rename_i heq
    cases heq
  · rename_i heq
    exact absurd (Except.ok.inj heq) hu
  · exact harg

/-- The value that a token has by itself is what it has to be by the definition and its tree. -/
theorem received_of_argument (hstrict : r.strict = true) {tree : Value}
    (htree : r.directAt answer 0 r.registry.definition = .ok tree) {left : Nat}
    (hle : left ≤ r.passesLeft 0) {above : Finset Address} {token : String} {arg : Value}
    (h : (r.direct answer).argument ((r.direct answer).substitute left) token above = .ok arg) :
    Received r.registry.definition tree token arg := by
  obtain ⟨found, hfound, h⟩ := Below.exists_of_bind h
  have hfind : Tree.find? token r.registry.definition = .ok found :=
    Below.exists_of_ofExcept hfound
  match found with
  | none =>
    cases h
    refine received_of_missing (get_of_find?_eq_none hfind) ?_
    by_cases hbelow : LeadsBelowText (Path.split token) r.registry.definition
    · exact Or.inr hbelow
    · have htext : ∀ s, hasPlaceholder s.toList = false →
          resolveText ((r.direct answer).substitute (r.passesLeft 0)) s ∅ = .ok (.str s) := by
        intro s hs
        rw [Engine.resolveText_of_not_hasPlaceholder _ hs]
        rfl
      exact Or.inl (get_of_find?_eq_none (find?_resolveWith_of_none htext htree hbelow hfind))
  | some (steps, u) =>
    obtain ⟨x, hx, hvalue⟩ := find?_resolveWith htree hfind
    by_cases hu : u = Tree.missing
    · subst hu
      cases h
      cases hvalue
      exact received_of_missing (get_of_find? hfind) (Or.inl (get_of_find? hx))
    · have hresolve : (r.direct answer).resolve left u above = .ok arg := by
        cases u with
        | atom a =>
          cases a with
          | missing => exact absurd rfl hu
          | _ => exact h
        | _ => exact h
      have harg := r.resolve_outward hstrict hle (Finset.empty_subset above) hresolve
      obtain rfl : x = arg := Except.ok.inj (hvalue.symm.trans harg)
      exact received_of_ne_missing (get_of_find? hfind) hu (get_of_find? hx)

/-- If the keys of a definition are segments and the functions compute, a strict resolution that
succeeds calls functions with what the resolved tree has at the paths of the definition that the
tokens of the call lead to, and with the tokens themselves where the definition has nothing. -/
theorem arguments_of_resolveTree (hstrict : r.strict = true) (h : r.host.Computes answer)
    (hnamed : r.registry.definition.Named Path.IsSegment) {s t : Scratch σ}
    (hactive : s.active = []) {tree : Shared}
    (hrun : (r.resolveTree r.registry.definition).run s = (.ok tree, t))
    (deeper : Int → String → Run (σ × Notes) φ Shared) (k : Nat) :
    ∃ notes : Notes,
      (r.carryOutNoted deeper (r.passesLeft 0 + 1 + k) (.tree r.registry.definition)).run
        (s.beside .blank) = (.ok tree, t.beside notes) ∧
      ∀ call ∈ notes.calls, ∃ p, call.placeholder = some p ∧ p.sigil = .call ∧
        r.registry.get? p.spaceName = some (.atom (.fn call.function)) ∧
        List.Forall₂ (fun token arg => Received r.registry.definition tree.erase token arg.erase)
          p.tokens call.args := by
  have hn : r.passesLeft 0 < r.passesLeft 0 + 1 + k := by omega
  obtain ⟨notes, hnoted, -⟩ :=
    Scratch.exists_beside_of_rel (r.rel_carryOutNoted deeper (.tree r.registry.definition) hn) s
  rw [carryOut, hrun] at hnoted
  refine ⟨notes, hnoted, ?_⟩
  have hresolve : ∀ v, (Run.unaided
      (Notes.Attributed (r.direct answer) (r.passesLeft 0) []) (r.noting.direct answer)).rel
      (fun v w => v.erase = w) (r.resolveNoted deeper (r.passesLeft 0 + 1 + k) 0 v)
      ((r.noting.direct answer).resolve (r.noting.passesLeft 0) v) :=
    rel_resolveWith treeRelation_erase (rel_resolveText treeRelation_erase
      (r.rel_noted_direct h deeper hn (Nat.le_refl _) []))
  have hblank : Notes.Attributed (r.direct answer) (r.passesLeft 0) [] (s.memory, Notes.blank) :=
    ⟨rfl, by simp [Notes.blank]⟩
  obtain ⟨es, hes, -⟩ := r.exists_map_of_resolveTree hrun
  have htreeRun : (r.noting.treeWith (r.resolveNoted deeper (r.passesLeft 0 + 1 + k) 0)
      (.map () es)).run (s.beside .blank) = (.ok tree, t.beside notes) := by
    rw [← hes]
    exact hnoted
  rw [hes] at hnamed
  obtain ⟨hattributed, htree⟩ :=
    r.noting.directAt_of_treeWith hresolve hnamed hactive hblank htreeRun
  rw [← hes] at htree
  intro call hcall
  obtain ⟨p, hp, hsigil, hf, left, above, hle, hargs⟩ := hattributed.calls call hcall
  exact ⟨p, hp, hsigil, hf,
    hargs.imp fun token arg harg => r.received_of_argument hstrict htree hle harg⟩

/-- A definition with a call for an item of a list, which refers to a name, and for a word. -/
def guests : Value :=
  .map () [(.str "seat", .str "no. @\x7bfirst: pair.1, late\x7d"),
    (.str "pair", .list () [.str "ann", .str "$\x7bself:host\x7d"]), (.str "host", .str "bob")]

/-- A strict resolver of the guests. -/
def guestsResolver : Resolver Nat Unit where
  registry := ⟨guests, [(.str "first", .atom (.fn ⟨0, "first"⟩))]⟩
  host := .ofAnswer firstOf
  maxDepth := 10
  strict := true

/-- The function is called once, with the name that the resolved list has and with the word. -/
theorem arguments_of_resolveTree_guests :
    ∃ (tree : Shared) (t : Scratch Nat) (notes : Notes) (call : NotedCall) (arg : Value),
      (guestsResolver.resolveTree guests).run (Scratch.start 0) = (.ok tree, t) ∧
      (guestsResolver.carryOutNoted (fun _ s => pure (.str s)) 11 (.tree guests)).run
        ((Scratch.start 0).beside .blank) = (.ok tree, t.beside notes) ∧
      notes.calls = [call] ∧ call.args.map Tree.erase = [arg, .str "late"] ∧
      tree.erase.get "pair.1" = .ok arg := by
  have hsegment : ∀ s ∈ ["seat", "pair", "host"], Path.IsSegment s := by
    decide +kernel
  have hnamed : guests.Named Path.IsSegment :=
    ⟨⟨"seat", rfl, hsegment _ (by simp)⟩, by simp, trivial,
      ⟨"pair", rfl, hsegment _ (by simp)⟩, by simp, trivial,
      ⟨"host", rfl, hsegment _ (by simp)⟩, by simp, trivial, trivial⟩
  have hok : ((guestsResolver.resolveTree guests).run (Scratch.start 0)).1.isOk = true := by
    decide +kernel
  obtain ⟨tree, t, hrun⟩ := Run.exists_of_isOk hok
  obtain ⟨notes, hnoted, hcalls⟩ := guestsResolver.arguments_of_resolveTree rfl
    (Host.computes_ofAnswer firstOf) hnamed rfl hrun (fun _ s => pure (.str s)) 0
  have honce : (((guestsResolver.carryOutNoted (fun _ s => pure (.str s)) 11 (.tree guests)).run
      ((Scratch.start 0).beside .blank)).2.memory.2.calls.map fun call =>
        call.placeholder.map Placeholder.tokens) = [some ["pair.1", "late"]] := by
    decide +kernel
  change (guestsResolver.carryOutNoted (fun _ s => pure (.str s)) 11 (.tree guests)).run _ = _
    at hnoted
  rw [hnoted] at honce
  obtain ⟨call, hcall, htokens⟩ := List.map_eq_singleton_iff.1 honce
  obtain ⟨p, hp, -, -, hargs⟩ := hcalls call (hcall ▸ List.mem_singleton_self call)
  rw [hp] at htokens
  rw [Option.some.inj htokens] at hargs
  generalize hgiven : call.args = given at hargs
  cases hargs with
  | @cons _ first _ rest hfirst hrest =>
  cases hrest with
  | @cons _ second _ _ hsecond hend =>
  cases hend
  have hword : second.erase = .str "late" := hsecond.1
  have hgot : call.args.map Tree.erase = [first.erase, .str "late"] := by
    rw [hgiven, ← hword]
    rfl
  exact ⟨tree, t, notes, call, first.erase, hrun, hnoted, hcall, hgot, hfirst⟩

/-- A definition with a call for what a reference to a mapping leads to. -/
def borrowed : Value :=
  .map () [(.str "m", .map () [(.str "z", .atom (.int 1))]), (.str "a", .str "$\x7bself:m\x7d"),
    (.str "x", .str "@\x7btypeof:a.z\x7d")]

/-- What a function answers that names the kind of its argument. -/
def kindOf (_ : FnHandle) : List Value → Except Unit Value
  | [v] => .ok (.str v.typeName)
  | _ => .error ()

/-- A strict resolver of that definition. -/
def borrowedResolver : Resolver Nat Unit where
  registry := ⟨borrowed, [(.str "typeof", .atom (.fn ⟨0, "typeof"⟩))]⟩
  host := .ofAnswer kindOf
  maxDepth := 10
  strict := true

/-- Where a token leads below a text with placeholders, the function is given the token, although the
resolved tree has a number at that path. -/
theorem arguments_not_as_resolved :
    let resolved := ((borrowedResolver.resolveTree borrowed).run (Scratch.start 0)).1.toOption
    let calls := ((borrowedResolver.carryOutNoted (fun _ s => pure (.str s)) 11
      (.tree borrowed)).run ((Scratch.start 0).beside .blank)).2.memory.2.calls
    (resolved.any fun tree =>
        (tree.erase.get "a.z").toOption.any (Tree.same · (.atom (.int 1) : Value)) &&
          (tree.erase.get "x").toOption.any (Tree.same · (.str "str" : Value))) = true ∧
      (calls.map fun call => call.placeholder.map Placeholder.tokens) = [some ["a.z"]] ∧
      (calls.map fun call => Tree.sameItems call.args ([.str "a.z"] : List Value)) = [true] := by
  decide +kernel

end Resolver

end LayeredConfig
