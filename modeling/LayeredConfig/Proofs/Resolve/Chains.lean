import LayeredConfig.Proofs.Resolve.Transparent

/-!
# Chains of references and the depth limit

In a chain every path of the definition holds a reference to the next one.  Each link
takes one pass, so a limit of so many passes lets a resolution follow so many links: a
chain that ends within the limit gives what stands at its end, and any other one, also
one that goes round in a circle, is left at the link where the limit is reached.

* `Engine.lookup_of_missing`, `Engine.lookup_of_atom`, `Engine.lookup_of_hasPlaceholder` — what a
  reference finds.
* `Chain.substitute_ends` — a chain that ends within the passes that are left.
* `Chain.substitute_stops` — a chain that does not.
* `Resolver.resolveAt_chain` — the limit is exact.
-/

namespace LayeredConfig

open Template

/-! ## What one reference finds -/

namespace Engine

variable {m : Type → Type} {α φ : Type} [Monad m] [Inhabited α] [MonadExcept (ResolveError φ) m]
variable (e : Engine m α) (sub : String → m (Tree α)) (left : Nat) {path : String}
variable (defaults : List String)

omit [Inhabited α] [MonadExcept (ResolveError φ) m] in
theorem get?_reservedName (r : Registry) : r.get? Registry.reservedName = some r.definition :=
  if_pos rfl

variable [LawfulMonad m]

/-- Where the definition has nothing, the defaults count. -/
theorem lookup_of_missing (h : e.registry.definition.get path = .ok Tree.missing) :
    e.lookup sub left Registry.reservedName path defaults = pure (firstDefault defaults) := by
  cases hfind : Tree.find? path e.registry.definition with
  | error err =>
    rw [Tree.get, hfind] at h
    cases h
  | ok found =>
    simp only [lookup, get?_reservedName, hfind, ResolveError.ofExcept, pure_bind]
    cases found with
    | none => rfl
    | some hit =>
      obtain ⟨steps, v⟩ := hit
      obtain rfl : v = Tree.missing := Except.ok.inj ((get_of_find? hfind).symm.trans h)
      rfl

/-- A scalar without placeholders that the definition has is found as it is. -/
theorem lookup_of_atom {a : Atom} (h : e.registry.definition.get path = .ok (.atom a))
    (ha : a ≠ .missing) (hs : ∀ s, a = .str s → hasPlaceholder s.toList = false) :
    e.lookup sub left Registry.reservedName path [] = pure (.atom a) := by
  obtain ⟨steps, hfind⟩ := exists_find?_of_get h (by simpa using ha)
  simp only [lookup, get?_reservedName, hfind, ResolveError.ofExcept, pure_bind]
  cases a with
  | missing => exact absurd rfl ha
  | str s =>
    simp only [hs s rfl]
    rfl
  | _ => rfl

/-- A text with placeholders that the definition has is substituted in its turn. -/
theorem lookup_of_hasPlaceholder {s : String} (h : e.registry.definition.get path = .ok (.str s))
    (hs : hasPlaceholder s.toList = true) :
    e.lookup sub left Registry.reservedName path defaults = (do
      let out ← sub s
      if (coerce (.str s : Value) out).isUndefined then return firstDefault defaults
      else return out) := by
  obtain ⟨steps, hfind⟩ := exists_find?_of_get h (by simp)
  simp only [lookup, get?_reservedName, hfind, ResolveError.ofExcept, pure_bind, hs, if_true]

end Engine

/-! ## Texts that stay references -/

section Coerce

variable {β : Type}

theorem literal_reference (path : String) :
    (literal (reference path) : Tree β) = .str (reference path) := by
  have hhead : (reference path).toList.head? = some '$' := by
    rw [toList_reference]
    rfl
  have hword : wordValue? (reference path) = none := by
    unfold wordValue?
    split_ifs <;> simp_all
  have hquote : unquote? (reference path).toList = none := by
    rw [toList_reference]
    rfl
  rw [literal, hword, hquote]

/-- A reference that comes out of a substitution stays one. -/
theorem coerce_reference (s path : String) :
    coerce (.str s : Value) (.str (reference path) : Tree β) = .str (reference path) := by
  rw [coerce, literal_reference, ite_self]

/-- A scalar without placeholders is given its type without regard to the text with a placeholder
that it comes from. -/
theorem coerce_atom_congr {a : Atom} (ha : ∀ s, a = .str s → hasPlaceholder s.toList = false)
    {s t : String} (hs : hasPlaceholder s.toList = true) (ht : hasPlaceholder t.toList = true) :
    coerce (.str s : Value) (.atom a : Tree β) = coerce (.str t : Value) (.atom a) := by
  cases a with
  | str u =>
    have hne : ∀ {s : String}, hasPlaceholder s.toList = true → u ≠ s := by
      rintro s hs rfl
      rw [ha u rfl] at hs
      cases hs
    simp only [coerce, if_neg (hne hs), if_neg (hne ht)]
  | _ => rfl

end Coerce

/-- Where no pass is left, a text stays as it is, or the resolution fails. -/
theorem Resolver.exhausted_bind {σ φ : Type} (r : Resolver σ φ) {s : String}
    {f : Shared → Run σ φ Shared} (hf : f (.str s) = pure (.str s)) :
    r.exhausted s >>= f = r.exhausted s := by
  unfold exhausted
  split
  · rfl
  · rw [bind_assoc]
    simp only [pure_bind, hf]

/-! ## Chains -/

/-- Paths of a definition, of which each one holds a reference to the next one: for ever, or up to
the last one, which holds a scalar without placeholders. -/
structure Chain (definition : Value) where
  /-- The paths, from the first one on. -/
  path : ℕ → String
  /-- How many links lead to the last path, if there is a last one, and what it holds. -/
  last : Option (ℕ × Atom)
  plain (i : ℕ) : (∀ n a, last = some (n, a) → i ≤ n) → Path.Plain (path i)
  link (i : ℕ) : (∀ n a, last = some (n, a) → i < n) →
    definition.get (path i) = .ok (.str (reference (path (i + 1))))
  ends (n : ℕ) (a : Atom) : last = some (n, a) → definition.get (path n) = .ok (.atom a)
  ne_missing (n : ℕ) (a : Atom) : last = some (n, a) → a ≠ .missing
  done (n : ℕ) (s : String) : last = some (n, .str s) → hasPlaceholder s.toList = false

namespace Chain

variable {definition : Value} (c : Chain definition)

/-- The reference to one of the paths. -/
def text (i : ℕ) : String :=
  reference (c.path i)

variable {c}

theorem hasPlaceholder_text {i : ℕ} (h : Path.Plain (c.path i)) :
    hasPlaceholder (c.text i).toList = true :=
  hasPlaceholder_reference h

/-- At a path before the last one the next reference stands. -/
theorem get_of_lt {n : ℕ} {a : Atom} (hlast : c.last = some (n, a)) {i : ℕ} (hi : i < n) :
    definition.get (c.path i) = .ok (.str (c.text (i + 1))) := by
  refine c.link i fun n' a' h => ?_
  cases hlast.symm.trans h
  exact hi

theorem plain_of_le {n : ℕ} {a : Atom} (hlast : c.last = some (n, a)) {i : ℕ} (hi : i ≤ n) :
    Path.Plain (c.path i) := by
  refine c.plain i fun n' a' h => ?_
  cases hlast.symm.trans h
  exact hi

theorem done_atom {n : ℕ} {a : Atom} (hlast : c.last = some (n, a)) :
    ∀ s, a = .str s → hasPlaceholder s.toList = false := by
  rintro s rfl
  exact c.done n s hlast

section

variable {m : Type → Type} {α φ : Type} [Monad m] [LawfulMonad m] [Inhabited α]
variable [MonadExcept (ResolveError φ) m]

/-- A chain that ends within the passes that are left gives what stands at its end; a word for the
undefined value may have become that value on the way. -/
theorem substitute_ends {e : Engine m α} (c : Chain e.registry.definition) {n : ℕ} {a : Atom}
    (hlast : c.last = some (n, a)) {i : ℕ} (hi : i ≤ n) (left : ℕ) (hleft : n < i + left) :
    ∃ v : Tree α, e.substitute left (c.text i) = pure v ∧
      ∀ t, hasPlaceholder t.toList = true →
        coerce (.str t : Value) v = coerce (.str t : Value) (.atom a) := by
  induction left generalizing i with
  | zero => omega
  | succ left ih =>
    rw [text, e.substitute_reference _ (plain_of_le hlast hi)]
    rcases Nat.eq_or_lt_of_le hi with rfl | hlt
    · exact ⟨.atom a, e.lookup_of_atom _ _ (c.ends i a hlast) (c.ne_missing i a hlast)
        (done_atom hlast), fun _ _ => rfl⟩
    · obtain ⟨v, hv, hcoerce⟩ := ih hlt (by omega)
      have htext := hasPlaceholder_text (plain_of_le hlast hlt)
      rw [e.lookup_of_hasPlaceholder _ _ _ (get_of_lt hlast hlt) htext, hv, pure_bind]
      split
      · rename_i hundefined
        refine ⟨Tree.undefined, rfl, fun t ht => ?_⟩
        rw [coerce_atom_congr (done_atom hlast) ht htext, ← hcoerce _ htext]
        exact (eq_undefined_of_isUndefined hundefined).symm
      · exact ⟨v, rfl, hcoerce⟩

end

variable {σ φ : Type}

/-- A chain that does not end within the passes that are left stops at the link where none is
left. -/
theorem substitute_stops {r : Resolver σ φ} (c : Chain r.registry.definition) (i left : ℕ)
    (hlast : ∀ n a, c.last = some (n, a) → i + left ≤ n) :
    r.substitute left (c.text i) = r.exhausted (c.text (i + left)) := by
  induction left generalizing i with
  | zero =>
    have hplain := c.plain i hlast
    exact r.engine.substitute_zero (hasPlaceholder_text hplain)
  | succ left ih =>
    have hplain := c.plain i fun n a h => Nat.le_of_add_right_le (hlast n a h)
    have hnext := c.plain (i + 1) fun n a h => by
      have := hlast n a h
      omega
    have hget := c.link i fun n a h => by
      have := hlast n a h
      omega
    have hrest := ih (i + 1) fun n a h => by
      have := hlast n a h
      omega
    rw [Resolver.substitute] at hrest ⊢
    rw [text, r.engine.substitute_reference _ hplain,
      r.engine.lookup_of_hasPlaceholder _ _ _ hget (hasPlaceholder_text hnext)]
    change r.engine.substitute left (c.text (i + 1)) >>= _ = _
    rw [hrest, Nat.add_right_comm, Nat.add_assoc]
    refine r.exhausted_bind ?_
    rw [text, coerce_reference]
    rfl

end Chain

namespace Resolver

variable {σ φ : Type} (r : Resolver σ φ)

/-- The depth limit is exact on chains of references.  A chain that ends within the limit gives what
stands at its end; of any other one as many links are followed as the limit allows, and then
the next reference is left as it is, which is an error in strict mode. -/
theorem resolveAt_chain {m : ℕ} (hm : r.maxDepth = m) (c : Chain r.registry.definition)
    (s : Scratch σ) :
    (∀ n a, c.last = some (n, a) → n + 1 ≤ m →
      (r.resolveAt 0 (.str (c.text 0))).run s =
        (.ok (coerce (.str (c.text 0) : Value) (.atom a)), s)) ∧
    ((∀ n a, c.last = some (n, a) → m < n + 1) →
      (r.strict = true → (r.resolveAt 0 (.str (c.text 0))).run s =
        (.error (.depth (c.text m) m), s)) ∧
      (r.strict = false → (r.resolveAt 0 (.str (c.text 0))).run s =
        (.ok (.str (c.text m)), { s with log := ⟨.debug, .placeholders, "Depth limit " ++
          toString m ++ " reached, leaving partially resolved: " ++ c.text m⟩ :: s.log }))) := by
  have hleft : r.passesLeft 0 = m := by
    rw [passesLeft, hm, Int.sub_zero, Int.toNat_natCast]
  have hresolve : r.resolveAt 0 (.str (c.text 0)) =
      (do return coerce (.str (c.text 0) : Value) (← r.substitute m (c.text 0))) := by
    rw [← hleft]
    rfl
  rw [hresolve]
  constructor
  · intro n a hlast hn
    obtain ⟨v, hv, hcoerce⟩ := c.substitute_ends (e := r.engine) hlast n.zero_le m (by omega)
    change r.substitute m (c.text 0) = pure v at hv
    rw [hv, pure_bind, hcoerce _ (Chain.hasPlaceholder_text (Chain.plain_of_le hlast n.zero_le))]
    rfl
  · intro hlast
    have hstop := c.substitute_stops 0 m fun n a h => by
      have := hlast n a h
      omega
    rw [hstop, Nat.zero_add]
    have hkeep := r.exhausted_bind (s := c.text m)
      (f := fun v => pure (coerce (.str (c.text 0) : Value) v)) (by
        rw [Chain.text, Chain.text, coerce_reference])
    rw [hkeep, exhausted, hm]
    constructor
    · intro hstrict
      rw [hstrict]
      rfl
    · intro hlenient
      rw [hlenient]
      rfl

/-- A definition with a chain of references that ends at a word, and with three references that go
round in a circle. -/
def turns : Value :=
  .map () [(.str "a", .str (reference "b")), (.str "b", .str (reference "c")),
    (.str "c", .str "undefined"), (.str "x", .str (reference "y")),
    (.str "y", .str (reference "z")), (.str "z", .str (reference "x"))]

/-- The chain that ends. -/
def turnsEnding : Chain turns where
  path i := if i = 0 then "a" else if i = 1 then "b" else "c"
  last := some (2, .str "undefined")
  plain i _ := by split_ifs <;> decide +kernel
  link i hi := by
    have hlt : i < 2 := hi 2 _ rfl
    obtain rfl | rfl : i = 0 ∨ i = 1 := by omega
    · rfl
    · rfl
  ends n a h := by
    cases h
    rfl
  ne_missing n a h := by
    cases h
    simp
  done n s h := by
    cases h
    decide +kernel

/-- The chain that goes round. -/
def turnsCircle : Chain turns where
  path i := if i % 3 = 0 then "x" else if i % 3 = 1 then "y" else "z"
  last := none
  plain i _ := by split_ifs <;> decide +kernel
  link i _ := by
    rcases (by omega : i % 3 = 0 ∨ i % 3 = 1 ∨ i % 3 = 2) with h | h | h
    all_goals
      simp only [Nat.add_mod i 1 3, h]
      rfl
  ends n a h := by cases h
  ne_missing n a h := by cases h
  done n s h := by cases h

/-- A resolver of that definition, with a limit. -/
def turnsResolver (m : ℕ) (strict : Bool) : Resolver Nat Unit where
  registry := .ofDefinition turns
  host := .ofAnswer refuse
  maxDepth := m
  strict := strict

/-- Three passes are enough for the chain that ends and two are not; the other one is left after
seven passes where the eighth link would be followed. -/
theorem resolveAt_chain_turns :
    ((turnsResolver 3 false).resolveAt 0 (.str (reference "a"))).run (.start 0) =
        (.ok Tree.undefined, .start 0) ∧
      ((turnsResolver 2 true).resolveAt 0 (.str (reference "a"))).run (.start 0) =
        (.error (.depth (reference "c") 2), .start 0) ∧
      (((turnsResolver 7 false).resolveAt 0 (.str (reference "x"))).run (.start 0)).1 =
        .ok (.str (reference "y")) := by
  have hends : ∀ n a, turnsEnding.last = some (n, a) → 2 < n + 1 := by
    rintro n a h
    cases h
    decide
  refine ⟨?_, ?_, ?_⟩
  · exact ((turnsResolver 3 false).resolveAt_chain rfl turnsEnding (.start 0)).1 2
      (.str "undefined") rfl (Nat.le_refl 3)
  · exact (((turnsResolver 2 true).resolveAt_chain rfl turnsEnding (.start 0)).2 hends).1 rfl
  · have hcircle := ((turnsResolver 7 false).resolveAt_chain rfl turnsCircle (.start 0)).2 nofun
    exact congrArg Prod.fst (hcircle.2 rfl)

end Resolver

end LayeredConfig
