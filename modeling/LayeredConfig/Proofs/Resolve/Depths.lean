import LayeredConfig.Proofs.Resolve.Noted

/-!
# Depths grow inwards

A reference may lead to any other value, also to one that is larger than the text with
the reference, or back to that text, and a text may grow with every pass.  What goes
down all the same is the number of depths that are left: every text that has its
placeholders evaluated stands deeper than the one around it, through containers and the
arguments of functions too, and none stands deeper than the limit.  So a
resolution ends.

* `Inwards` — depths that grow inwards, up to a limit.
* `Resolver.rel_noted` — one text, by induction on the steps inwards that are left.
* `Resolver.depths_of_carryOut` — any call of a resolver.
-/

namespace LayeredConfig

open Template

variable {σ φ : Type}

/-- Depths, the innermost first, that grow inwards from above a base up to a limit. -/
structure Inwards (base limit : Int) (chain : List Int) : Prop where
  pairwise : chain.Pairwise (· > ·)
  bounds : ∀ d ∈ chain, base < d ∧ d ≤ limit

/-- The next depth after one that all depths so far are within. -/
theorem Inwards.cons {base limit depth : Int} {chain : List Int} (h : Inwards base limit chain)
    (hle : ∀ d ∈ chain, d ≤ depth) (hbase : base ≤ depth) (hlimit : depth < limit) :
    Inwards base limit ((depth + 1) :: chain) where
  pairwise := List.pairwise_cons.2 ⟨fun d hd => Int.lt_add_one_of_le (hle d hd), h.pairwise⟩
  bounds := List.forall_mem_cons.2 ⟨⟨by omega, by omega⟩, h.bounds⟩

namespace Resolver

variable (r : Resolver σ φ) (deeper : Int → String → Run (σ × Notes) φ Shared)

/-- A text substituted with notes is substituted as it is without, and the depths of the texts that
are substituted on the way grow inwards. -/
theorem rel_noted {base : Int} {n : Nat} {depth : Int} (hn : r.passesLeft depth < n)
    {depths : List Int} (hopen : Inwards base r.maxDepth depths) (hle : ∀ d ∈ depths, d ≤ depth)
    (hbase : base ≤ depth) (s : String) :
    (Run.sideBySide (Scratch.Noted (Inwards base r.maxDepth) depths) fun _ => False).rel Eq
      (r.substitute (r.passesLeft depth) s) (r.noted deeper n depth s) := by
  -- each step inwards uses up a depth, whatever text it leads to
  induction n generalizing depth depths s with
  | zero => exact absurd hn (Nat.not_lt_zero _)
  | succ n ih =>
    rcases r.noted_cases deeper hn s with ⟨hs, hnoted⟩ | ⟨hs, hleft, hnoted⟩ |
      ⟨hs, hlt, hleft, hfewer, hnoted⟩
    · rw [hnoted, substitute, Engine.substitute_of_not_hasPlaceholder _ hs]
      exact Relator.rel_pure _ rfl
    · have hend := (r.noting_keepsStep (Inwards base r.maxDepth) depths).exhausted s hs
      rw [substitute, Engine.substitute_zero _ hs] at hend
      rw [hnoted, hleft, substitute, Engine.substitute_zero _ hs]
      exact hend
    · have hnext : Inwards base r.maxDepth ((depth + 1) :: depths) := hopen.cons hle hbase hlt
      have hinner : ∀ d ∈ (depth + 1) :: depths, d ≤ depth + 1 := by
        intro d hd
        rcases List.mem_cons.1 hd with rfl | hd
        · exact Int.le_refl _
        · have hout := hle d hd
          omega
      have hsub := ih hfewer hnext hinner (by omega)
      rw [hnoted, hleft, substitute, Engine.substitute_succ _ hs]
      refine Run.rel_nested hnext
        (rel_onePass (fun _ _ _ _ ht => .error ht) ?_ treeRelation_eq hsub s)
      intro p hp
      exact Run.rel_evaluating p
        (((r.noting_keepsStep _ _).inStep hsub (r.passesLeft (depth + 1))).evaluate hp)

/-- A value resolved with notes is resolved as it is without. -/
theorem rel_resolveNoted {base : Int} {n : Nat} (hn : r.passesLeft base < n) (v : Value) :
    (Run.sideBySide (Scratch.Noted (Inwards base r.maxDepth) []) fun _ => False).rel Eq
      (r.resolveAt base v) (r.resolveNoted deeper n base v) := by
  have htext : ∀ s, (Run.sideBySide (Scratch.Noted (Inwards base r.maxDepth) [])
      fun _ => False).rel Eq (r.engine.substitute (r.passesLeft base) s)
        (r.noted deeper n base s) := fun s =>
    r.rel_noted deeper hn ⟨.nil, by simp⟩ (by simp) (Int.le_refl base) s
  exact rel_resolveWith treeRelation_eq (rel_resolveText treeRelation_eq htext) v

/-- A call carried out with notes is carried out as it is without. -/
theorem rel_carryOutNoted (q : Request) {n : Nat} (hn : r.passesLeft q.depth < n) :
    (Run.sideBySide (Scratch.Noted (Inwards q.depth r.maxDepth) []) fun _ => False).rel Eq
      (r.carryOut q) (r.carryOutNoted deeper n q) := by
  cases q with
  | value depth v => exact r.rel_resolveNoted deeper hn v
  | text depth v =>
    cases v with
    | atom a =>
      cases a with
      | str s => exact r.rel_noted deeper hn ⟨.nil, by simp⟩ (by simp) (Int.le_refl depth) s
      | _ => exact Relator.rel_pure _ rfl
    | _ => exact Relator.rel_pure _ rfl
  | tree definition =>
    rw [carryOut, ← treeWith_resolveAt]
    exact (r.noting_keepsStep _ _).treeWith (fun v => r.rel_resolveNoted deeper hn v)
      (fun path _ _ hes hv => r.noting_writeLeaf _ _ path hes hv) rfl
      (fun _ _ hes => congrArg _ hes) definition

/-- Every call of a resolver ends, with a result or an error, and does not go more texts deep than
there are depths up to the limit, and one: how the same call with notes would go on from there does
not matter.  On the way every text that has its placeholders evaluated stands deeper than the one
around it, and none deeper than the limit. -/
theorem depths_of_carryOut (q : Request) (s : Scratch σ) (k : Nat) :
    ∃ notes : Notes,
      (r.carryOutNoted deeper (r.passesLeft q.depth + 1 + k) q).run (s.beside .blank) =
        (((r.carryOut q).run s).1, ((r.carryOut q).run s).2.beside notes) ∧
      ∀ chain ∈ notes.chains,
        chain.Pairwise (· > ·) ∧ ∀ d ∈ chain, q.depth < d ∧ d ≤ r.maxDepth := by
  have hn : r.passesLeft q.depth < r.passesLeft q.depth + 1 + k := by omega
  obtain ⟨notes, hrun, hchains⟩ :=
    Scratch.exists_beside_of_rel (r.rel_carryOutNoted deeper q hn) s
  exact ⟨notes, hrun, fun chain hc => ⟨(hchains chain hc).pairwise, (hchains chain hc).bounds⟩⟩

-- Around the ring, through two containers and the argument of a function; the latest text comes first.
example :
    ((ringResolver.carryOutNoted (fun _ s => pure (.str s)) 7 (.value 0 (.str "$\x7bself:b\x7d"))).run
      ((Scratch.start 0).beside .blank)).2.memory.2.chains =
        [[3, 2, 1], [2, 1], [3, 2, 1], [2, 1], [1]] := by
  decide +kernel

end Resolver

end LayeredConfig
