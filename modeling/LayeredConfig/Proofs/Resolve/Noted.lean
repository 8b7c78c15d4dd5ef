import LayeredConfig.Proofs.Resolve.Calls

/-!
# Runs that take notes

A resolver counts the passes down that are left, and what happens on the way does not
show in its result.  Here the same resolution counts its depth up, as long as it is
below the limit, and takes notes: of the texts that are being substituted, each with
its depth, and of the calls of functions.  It may go only so many texts deep; how it
would go on from there is left open.

* `Resolver.noting` — the resolver with functions that take note of their calls.
* `Resolver.noted` — a text substituted at a depth, with notes.
* `Resolver.carryOutNoted` — a call of a resolver with notes.
* `Scratch.exists_beside_of_rel`, `Resolver.noting_keepsStep` — the notes do not show.
-/

namespace LayeredConfig

open Template

variable {σ φ : Type}

/-! ## Notes -/

/-- A call of a function. -/
structure NotedCall where
  /-- The placeholder that asks for it. -/
  placeholder : Option Placeholder
  /-- The function. -/
  function : FnHandle
  /-- The arguments as they reach it. -/
  args : List Shared

/-- What is noted during a resolution. -/
structure Notes where
  /-- The depths of the texts that are being substituted, the innermost first. -/
  depths : List Int
  /-- The placeholders that are being evaluated, the innermost first. -/
  placeholders : List Placeholder
  /-- For each text that has had placeholders evaluated, its depth and those of the texts around
  it. -/
  chains : List (List Int)
  /-- The calls of functions, the latest first. -/
  calls : List NotedCall

/-- Nothing is noted yet. -/
def Notes.blank : Notes := ⟨[], [], [], []⟩

/-- A state with notes beside what the functions remember. -/
def Scratch.beside (s : Scratch σ) (n : Notes) : Scratch (σ × Notes) :=
  ⟨(s.memory, n), s.cache, s.active, s.fresh, s.revisions, s.log⟩

/-- A change of the notes. -/
def Scratch.note (f : Notes → Notes) (s : Scratch (σ × Notes)) : Scratch (σ × Notes) :=
  { s with memory := (s.memory.1, f s.memory.2) }

/-- The functions, which take note of their calls. -/
def Host.noting (h : Host σ φ) : Host (σ × Notes) φ where
  call f args m :=
    let (memory, out) := h.call f args m.1
    ((memory, { m.2 with calls := ⟨m.2.placeholders.head?, f, args⟩ :: m.2.calls }), out)
  revise rev m := (h.revise rev m.1, m.2)

namespace Run

variable {α : Type}

/-- Substitutes a text at a depth. -/
def nested (depth : Int) (x : Run (σ × Notes) φ α) : Run (σ × Notes) φ α :=
  between
    (Scratch.note fun n =>
      { n with depths := depth :: n.depths, chains := (depth :: n.depths) :: n.chains })
    (Scratch.note fun n => { n with depths := n.depths.tail }) x

/-- Evaluates a placeholder. -/
def evaluating (p : Placeholder) (x : Run (σ × Notes) φ α) : Run (σ × Notes) φ α :=
  between (Scratch.note fun n => { n with placeholders := p :: n.placeholders })
    (Scratch.note fun n => { n with placeholders := n.placeholders.tail }) x

end Run

namespace Resolver

variable (r : Resolver σ φ)

/-- The resolver with functions that take note of their calls. -/
def noting : Resolver (σ × Notes) φ where
  registry := r.registry
  host := r.host.noting
  maxDepth := r.maxDepth
  strict := r.strict

/-- A text substituted at a depth, with notes, and with at most so many texts inside each other.
`deeper` stands for how it would go on from there. -/
def noted (deeper : Int → String → Run (σ × Notes) φ Shared) :
    Nat → Int → String → Run (σ × Notes) φ Shared
  | 0, depth, s => deeper depth s
  | n + 1, depth, s =>
    if !hasPlaceholder s.toList then pure (.str s)
    else if r.maxDepth ≤ depth then r.noting.exhausted s
    else
      let again := noted deeper n (depth + 1)
      Run.nested (depth + 1) <|
        onePass
          (fun p => Run.evaluating p
            (r.noting.engine.evaluate again (r.passesLeft (depth + 1)) p))
          again s

variable (deeper : Int → String → Run (σ × Notes) φ Shared)

/-- With enough texts allowed inside each other, a text without placeholders is left alone, one at the
limit is at its end, and any other one is passed over, with a depth less for all that follows. -/
theorem noted_cases {n : Nat} {depth : Int} (hn : r.passesLeft depth < n + 1) (s : String) :
    (hasPlaceholder s.toList = false ∧ r.noted deeper (n + 1) depth s = pure (.str s)) ∨
    (hasPlaceholder s.toList = true ∧ r.passesLeft depth = 0 ∧
      r.noted deeper (n + 1) depth s = r.noting.exhausted s) ∨
    hasPlaceholder s.toList = true ∧ depth < r.maxDepth ∧
      r.passesLeft depth = r.passesLeft (depth + 1) + 1 ∧ r.passesLeft (depth + 1) < n ∧
      r.noted deeper (n + 1) depth s = Run.nested (depth + 1) (onePass
        (fun p => Run.evaluating p (r.noting.engine.evaluate (r.noted deeper n (depth + 1))
          (r.passesLeft (depth + 1)) p))
        (r.noted deeper n (depth + 1)) s) := by
  unfold passesLeft at hn ⊢
  by_cases hs : hasPlaceholder s.toList = true
  · by_cases hdepth : r.maxDepth ≤ depth
    · exact Or.inr (Or.inl ⟨hs, by omega, by simp [noted, hs, hdepth]⟩)
    · have hlt : depth < r.maxDepth := Int.not_le.1 hdepth
      refine Or.inr (Or.inr ⟨hs, hlt, by omega, by omega, ?_⟩)
      simp [noted, hs, hdepth, passesLeft]
  · rw [Bool.not_eq_true] at hs
    exact Or.inl ⟨hs, by simp [noted, hs]⟩

/-- A value resolved at a depth, with notes. -/
def resolveNoted (n : Nat) (depth : Int) : Value → Run (σ × Notes) φ Shared :=
  resolveWith (resolveText (r.noted deeper n depth))

/-- The depth at which a call begins. -/
def Request.depth : Request → Int
  | .tree _ => 0
  | .value depth _ => depth
  | .text depth _ => depth

/-- Carries a call out and takes notes, with at most so many texts inside each other. -/
def carryOutNoted (n : Nat) : Request → Run (σ × Notes) φ Shared
  | .tree definition => r.noting.treeWith (r.resolveNoted deeper n 0) definition
  | .value depth v => r.resolveNoted deeper n depth v
  | .text depth (.atom (.str s)) => r.noted deeper n depth s
  | .text _ v => pure v.unmarked

end Resolver

/-! ## Notes do not show -/

/-- The second state is the first one with notes beside it: on texts at these depths, and on chains
of texts that are all as told. -/
def Scratch.Noted (P : List Int → Prop) (depths : List Int) (s : Scratch σ)
    (s' : Scratch (σ × Notes)) : Prop :=
  ∃ n : Notes, s' = s.beside n ∧ n.depths = depths ∧ ∀ chain ∈ n.chains, P chain

theorem stateRelation_noted (P : List Int → Prop) (depths : List Int) :
    StateRelation Eq 0 (Scratch.Noted (σ := σ) P depths) where
  active := by rintro s _ ⟨n, rfl, -⟩; rfl
  isSome := by rintro s _ ⟨n, rfl, -⟩; rfl
  report := by rintro s _ e ⟨n, rfl, hn⟩; exact ⟨n, rfl, hn⟩
  enter := by rintro s _ a ⟨n, rfl, hn⟩; exact ⟨n, rfl, hn⟩
  leave := by rintro s _ a ⟨n, rfl, hn⟩; exact ⟨n, rfl, hn⟩
  openCache := by rintro s _ ⟨n, rfl, hn⟩; exact ⟨n, rfl, hn⟩
  closeCache := by rintro s _ ⟨n, rfl, hn⟩; exact ⟨n, rfl, hn⟩
  find? := by
    rintro s _ a left ⟨n, rfl, -⟩
    change Option.Rel Eq _ ((s.cache.getD []).find? ⟨a, left, s.active⟩)
    cases (s.cache.getD []).find? ⟨a, left, s.active⟩ with
    | none => exact .none
    | some v => exact .some rfl
  mark := by rintro s _ v _ ⟨n, rfl, -⟩ rfl; rfl
  insert := by rintro s _ v _ a left active ⟨n, rfl, hn⟩ rfl; exact ⟨n, rfl, hn⟩

/-- A run that keeps step with one that takes notes has its result, and its state but for these. -/
theorem Scratch.exists_beside_of_rel {P : List Int → Prop} {β : Type} {x : Run σ φ β}
    {y : Run (σ × Notes) φ β}
    (h : (Run.sideBySide (Scratch.Noted P []) fun _ => False).rel Eq x y) (s : Scratch σ) :
    ∃ n : Notes, y.run (s.beside .blank) = ((x.run s).1, (x.run s).2.beside n) ∧
      ∀ chain ∈ n.chains, P chain := by
  have hrun := h s (s.beside .blank) ⟨.blank, rfl, rfl, by simp [Notes.blank]⟩
  generalize x.run s = xs at hrun ⊢
  generalize y.run (s.beside .blank) = ys at hrun ⊢
  cases hrun with
  | ok hv ht =>
    obtain ⟨n, rfl, -, hn⟩ := ht
    exact ⟨n, by rw [hv], hn⟩
  | error ht =>
    obtain ⟨n, rfl, -, hn⟩ := ht
    exact ⟨n, rfl, hn⟩
  | excused he => exact he.elim

namespace Run

variable {P : List Int → Prop} {depths : List Int} {excused : ResolveError φ → Prop}
  {β γ : Type} {Q : β → γ → Prop} {x : Run σ φ β} {y : Run (σ × Notes) φ γ}

/-- A text is substituted further in, and its chain is as told. -/
theorem rel_nested {depth : Int} (hP : P (depth :: depths))
    (h : (sideBySide (Scratch.Noted P (depth :: depths)) excused).rel Q x y) :
    (sideBySide (Scratch.Noted P depths) excused).rel Q x (nested depth y) := by
  change (sideBySide _ excused).rel Q (between id id x) _
  refine rel_between ?_ ?_ h
  · rintro s _ ⟨n, rfl, rfl, hn⟩
    exact ⟨_, rfl, rfl, List.forall_mem_cons.2 ⟨hP, hn⟩⟩
  · rintro s _ ⟨n, rfl, hdepths, hn⟩
    exact ⟨_, rfl, congrArg List.tail hdepths, hn⟩

theorem rel_evaluating (p : Placeholder)
    (h : (sideBySide (Scratch.Noted P depths) excused).rel Q x y) :
    (sideBySide (Scratch.Noted P depths) excused).rel Q x (evaluating p y) := by
  change (sideBySide _ excused).rel Q (between id id x) _
  refine rel_between ?_ ?_ h
  · rintro s _ ⟨n, rfl, hn⟩
    exact ⟨_, rfl, hn⟩
  · rintro s _ ⟨n, rfl, hn⟩
    exact ⟨_, rfl, hn⟩

end Run

namespace Resolver

variable (r : Resolver σ φ) (P : List Int → Prop) (depths : List Int)

/-- A resolver keeps step with the one that takes notes. -/
theorem noting_keepsStep :
    KeepsStep (Scratch.Noted P depths) (fun _ => False) Eq 0 r r.noting where
  states := stateRelation_noted P depths
  trees := treeRelation_eq
  registry := rfl
  exhausted s hs := by
    rw [substitute, Engine.substitute_zero _ hs]
    rintro t _ ⟨n, rfl, hn⟩
    change Run.Agree _ _ _ _ ((r.noting.exhausted s).run _)
    unfold exhausted
    rw [show r.noting.strict = r.strict from rfl]
    split
    · exact .error ⟨n, rfl, hn⟩
    · exact .ok rfl ⟨n, rfl, hn⟩
  circular v reference := by
    rintro t _ ⟨n, rfl, hn⟩
    unfold circular
    rw [show r.noting.strict = r.strict from rfl]
    split
    · exact .error ⟨n, rfl, hn⟩
    · exact .ok rfl ⟨n, rfl, hn⟩
  apply f args args' hargs := by
    rw [List.forall₂_eq_eq_eq] at hargs
    subst hargs
    rintro t _ ⟨n, rfl, hn⟩
    rw [run_apply, run_apply]
    change Run.Agree _ _ _ _ ((r.host.call f args t.memory).2.mapError .fault, _)
    cases (r.host.call f args t.memory).2 with
    | ok v => exact .ok (Or.inl rfl) ⟨_, rfl, hn⟩
    | error e => exact .error ⟨_, rfl, hn⟩

theorem noting_writeLeaf {es es' : List (Key × Shared)} (path : String) {v w : Shared}
    (hes : es = es') (hv : v = w) :
    (Run.sideBySide (Scratch.Noted P depths) fun _ => False).rel Eq (r.writeLeaf es path v)
      (r.noting.writeLeaf es' path w) := by
  subst hes hv
  rintro s _ ⟨n, rfl, hn⟩
  rw [run_writeLeaf, run_writeLeaf]
  cases Tree.writeRevision? v (Path.split path) es with
  | none => exact .ok rfl ⟨n, rfl, hn⟩
  | some rev => exact .ok rfl ⟨n, rfl, hn⟩

end Resolver

end LayeredConfig
