import LayeredConfig.Proofs.Resolve.Passes
import LayeredConfig.Proofs.Template.Grammar

/-!
# Further out, with more passes

What a strict resolution gives below some containers and with some passes left, it
gives below fewer containers and with more passes too: it consults both only to
give up.  And it gives no text with a placeholder, so what it gives is the same
whether or not it is looked at again.

* `Below.outward` — a step that gives a result gives a related one further out.
* `Resolver.direct_outward` — the direct engine keeps step with itself further out.
* `Resolver.substitute_outward`, `Resolver.resolve_outward` — texts and values.
-/

namespace LayeredConfig

open Template

variable {σ φ : Type}

/-- Where the first step gives a result, the second one gives a related one below fewer
containers. -/
def Below.outward : Relator (Below φ) (Below φ) where
  rel Q x y := ∀ above outer b, outer ⊆ above → x above = .ok b → ∃ c, y outer = .ok c ∧ Q b c
  rel_pure {_ _ _ b c} hQ above outer b' _ h := by
    rw [run_pure] at h
    cases h
    exact ⟨c, rfl, hQ⟩
  rel_bind hx hf above outer b hsub h := by
    obtain ⟨b', hb', h⟩ := exists_of_bind h
    obtain ⟨c, hc, hP⟩ := hx above outer b' hsub hb'
    rw [run_bind, hc]
    exact hf b' c hP above outer b hsub h
  rel_mono hQ hx above outer b hsub h := by
    obtain ⟨c, hc, hbc⟩ := hx above outer b hsub h
    exact ⟨c, hc, hQ b c hbc⟩

/-- A value that is no text with a placeholder. -/
def Finished (v : Value) : Prop :=
  ∀ s, v = .str s → hasPlaceholder s.toList = false

/-- The same value on both sides, which is no text with a placeholder. -/
theorem treeRelation_finished : TreeRelation fun v w : Value => v = w ∧ Finished v where
  erase h := congrArg Tree.erase h.1
  str hs := ⟨rfl, fun _ heq => by cases heq; exact hs⟩
  unquote {s cs} h hcs := by
    refine ⟨rfl, fun t heq => ?_⟩
    cases heq
    rw [String.toList_ofList]
    exact not_hasPlaceholder_mono (infix_of_unquote? hcs) (h.2 s rfl)
  atom ha := ⟨rfl, fun s heq => absurd (by cases heq; rfl) (ha s)⟩
  set _ := ⟨rfl, fun _ heq => by cases heq⟩
  list h := ⟨treeRelation_eq.list (h.imp fun _ _ hv => hv.1), fun _ heq => by cases heq⟩
  map h := ⟨treeRelation_eq.map (h.imp fun _ _ hv => ⟨hv.1, hv.2.1⟩), fun _ heq => by cases heq⟩

namespace Resolver

variable (r : Resolver σ φ) {answer : FnHandle → List Value → Except φ Value}

/-- With more passes and below fewer containers a strict resolution gives the values that it gives
with fewer passes below more containers, and none of them is a text with a placeholder. -/
theorem direct_outward (hstrict : r.strict = true) (k : Nat) :
    Engine.Simulates Below.outward (fun v w => v = w ∧ Finished v) k (r.direct answer)
      (r.direct answer) where
  trees := treeRelation_finished
  registry := rfl
  throw _ err above outer b _ h := by
    rw [Below.run_throw] at h
    cases h
  exhausted s _ above outer b _ h := by
    rw [r.direct_exhausted hstrict] at h
    cases h
  unregistered _ above outer b _ h := ⟨(), rfl, trivial⟩
  apply f args args' hargs above outer b _ h := by
    have hsame : args = args' := by
      rw [← List.forall₂_eq_eq_eq]
      exact hargs.imp fun _ _ hv => hv.1
    have hanswer : answer f args = .ok b := Below.exists_of_ofExcept h
    refine ⟨b, ?_, ?_⟩
    · show (ResolveError.ofExcept .fault (answer f args') : Below φ Value) outer = .ok b
      rw [← hsame, hanswer]
      rfl
    · by_cases hb : ∃ s, b = .str s
      · obtain ⟨s, rfl⟩ := hb
        exact Or.inr ⟨s, rfl, rfl⟩
      · exact Or.inl ⟨rfl, fun s hs => absurd ⟨s, hs⟩ hb⟩
  container left a v reference _ hr above outer b hsub h := by
    change r.directContainer _ a v reference above = .ok b at h
    show ∃ c, r.directContainer _ a v reference outer = .ok c ∧ b = c ∧ Finished b
    rw [run_directContainer] at h ⊢
    by_cases ha : a ∈ above
    · rw [if_pos ha, hstrict] at h
      cases h
    · rw [if_neg ha] at h
      rw [if_neg fun hmem => ha (hsub hmem)]
      exact hr v _ _ b (Finset.insert_subset_insert a hsub) h

theorem substitute_outward (hstrict : r.strict = true) {left n : Nat} (hle : left ≤ n)
    {above outer : Finset Address} (hsub : outer ⊆ above) {s : String} {v : Value}
    (h : (r.direct answer).substitute left s above = .ok v) :
    (r.direct answer).substitute n s outer = .ok v ∧ Finished v := by
  have hout := (r.direct_outward hstrict (n - left)).substitute left s above outer v hsub h
  rw [Nat.add_sub_cancel' hle] at hout
  obtain ⟨w, hw, rfl, hv⟩ := hout
  exact ⟨hw, hv⟩

theorem resolve_outward (hstrict : r.strict = true) {left n : Nat} (hle : left ≤ n)
    {above outer : Finset Address} (hsub : outer ⊆ above) {u v : Value}
    (h : (r.direct answer).resolve left u above = .ok v) :
    (r.direct answer).resolve n u outer = .ok v := by
  have hout := (r.direct_outward hstrict (n - left)).resolve left u above outer v hsub h
  rw [Nat.add_sub_cancel' hle] at hout
  obtain ⟨w, hw, rfl, -⟩ := hout
  exact hw

end Resolver

end LayeredConfig
