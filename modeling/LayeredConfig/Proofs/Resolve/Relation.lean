import LayeredConfig.Proofs.Path.Places
import LayeredConfig.Proofs.Resolve.OnePass
import LayeredConfig.Proofs.Template.Tokens
import LayeredConfig.Proofs.Value.Tags
import Mathlib.Data.List.Forall2

/-!
# Engines that keep step

Two engines over the same namespaces give related results as soon as what they
leave open does: the end of the passes, the calls of functions and the references
to containers.  They evaluate a placeholder alike if they substitute alike whatever
texts it leads to (`Engine.InStep.evaluate`), and one induction over the passes shows
it for every text (`Engine.Simulates.substitute`) and every value
(`Engine.Simulates.resolve`); the second engine may have some passes more than the
first.

* `Relator` — how steps of two monads are related through their results.
* `TreeRelation` — what a relation between resolved trees has to respect.
* `rel_onePass` — one pass over a text.
* `Engine.ReadsAlike`, `Engine.InStep` — the conditions on two engines for one placeholder.
* `Engine.Simulates` — the conditions on two engines.
-/

namespace LayeredConfig

open Template

/-- A way to relate the steps of two monads, given how their results have to be related. -/
structure Relator (m m' : Type → Type) [Monad m] [Monad m'] where
  rel {β γ : Type} : (β → γ → Prop) → m β → m' γ → Prop
  rel_pure {β γ : Type} {Q : β → γ → Prop} {b : β} {c : γ} : Q b c → rel Q (pure b) (pure c)
  rel_bind {β γ β' γ' : Type} {P : β → γ → Prop} {Q : β' → γ' → Prop} {x : m β} {y : m' γ}
    {f : β → m β'} {g : γ → m' γ'} :
    rel P x y → (∀ b c, P b c → rel Q (f b) (g c)) → rel Q (x >>= f) (y >>= g)
  rel_mono {β γ : Type} {Q Q' : β → γ → Prop} {x : m β} {y : m' γ} :
    (∀ b c, Q b c → Q' b c) → rel Q x y → rel Q' x y

section Lists

variable {m m' : Type → Type} [Monad m] [Monad m'] (R : Relator m m') {ι β γ : Type}

theorem Relator.rel_mapM_loop {Q : β → γ → Prop} {f : ι → m β} {g : ι → m' γ} {items : List ι}
    (h : ∀ i ∈ items, R.rel Q (f i) (g i)) {bs : List β} {cs : List γ}
    (hacc : List.Forall₂ Q bs cs) :
    R.rel (List.Forall₂ Q) (List.mapM.loop f items bs) (List.mapM.loop g items cs) := by
  induction items generalizing bs cs with
  | nil => exact R.rel_pure (List.rel_reverse hacc)
  | cons i items ih =>
    refine R.rel_bind (h i List.mem_cons_self) fun b c hbc => ?_
    exact ih (fun j hj => h j (List.mem_cons_of_mem _ hj)) (.cons hbc hacc)

/-- Steps done for each item give related lists if they give related results. -/
theorem Relator.rel_mapM {Q : β → γ → Prop} {f : ι → m β} {g : ι → m' γ} {items : List ι}
    (h : ∀ i ∈ items, R.rel Q (f i) (g i)) :
    R.rel (List.Forall₂ Q) (items.mapM f) (items.mapM g) :=
  R.rel_mapM_loop h .nil

end Lists

/-! ## Related trees -/

variable {α β : Type} [Inhabited α] [Inhabited β]

/-- What a relation between resolved trees has to respect: related trees say the same, and what is
built from related trees in the same way is related.  Texts are related to themselves if they have
no placeholder. -/
structure TreeRelation (V : Tree α → Tree β → Prop) : Prop where
  erase {v : Tree α} {w : Tree β} : V v w → v.erase = w.erase
  str {s : String} : hasPlaceholder s.toList = false → V (.str s) (.str s)
  unquote {s : String} {cs : List Char} :
    V (.str s) (.str s) → unquote? s.toList = some cs → V (.str (.ofList cs)) (.str (.ofList cs))
  atom {a : Atom} : (∀ s, a ≠ .str s) → V (.atom a) (.atom a)
  set (members : List Key) : V (.set members) (.set members)
  list {items : List (Tree α)} {items' : List (Tree β)} :
    List.Forall₂ V items items' → V (.list default items) (.list default items')
  map {es : List (Key × Tree α)} {es' : List (Key × Tree β)} :
    List.Forall₂ (fun e e' => e.1 = e'.1 ∧ V e.2 e'.2) es es' →
      V (.map default es) (.map default es')

/-- The same tree on both sides. -/
theorem treeRelation_eq : TreeRelation (Eq : Tree α → Tree α → Prop) where
  erase h := congrArg Tree.erase h
  str _ := rfl
  unquote _ _ := rfl
  atom _ := rfl
  set _ := rfl
  list h := by rw [List.forall₂_eq_eq_eq] at h; rw [h]
  map h := by
    have heq : ∀ {es es' : List (Key × Tree α)},
        List.Forall₂ (fun e e' => e.1 = e'.1 ∧ e.2 = e'.2) es es' → es = es' := by
      intro es es' h
      induction h with
      | nil => rfl
      | cons he _ ih => rw [Prod.ext he.1 he.2, ih]
    rw [heq h]

/-- Results of functions: a text that comes from a function may have placeholders still. -/
def OrSameText (V : Tree α → Tree β → Prop) (v : Tree α) (w : Tree β) : Prop :=
  V v w ∨ ∃ s, v = .str s ∧ w = .str s

namespace TreeRelation

variable {V : Tree α → Tree β → Prop} (hV : TreeRelation V)

include hV

theorem erase_orSameText {v : Tree α} {w : Tree β} (h : OrSameText V v w) : v.erase = w.erase := by
  rcases h with h | ⟨s, rfl, rfl⟩
  · exact hV.erase h
  · rfl

/-- Related results of functions are the same text, or related values other than texts. -/
theorem orSameText_cases {v : Tree α} {w : Tree β} (h : OrSameText V v w) :
    (∃ s, v = .str s ∧ w = .str s) ∨ V v w ∧ (∀ s, v ≠ .str s) ∧ ∀ s, w ≠ .str s := by
  by_cases hv : ∃ s, v = .str s
  · obtain ⟨s, rfl⟩ := hv
    refine Or.inl ⟨s, rfl, ?_⟩
    rw [← Tree.erase_eq_atom_iff, ← hV.erase_orSameText h, Tree.erase_atom]
  · have hne : ∀ s, v ≠ .str s := fun s hs => hv ⟨s, hs⟩
    refine Or.inr ⟨?_, hne, fun s hs => hne s ?_⟩
    · rcases h with h | ⟨s, rfl, -⟩
      · exact h
      · exact absurd rfl (hne s)
    · rw [← Tree.erase_eq_atom_iff, hV.erase_orSameText h, hs, Tree.erase_atom]

theorem literal {s : String} (h : V (.str s) (.str s)) : V (literal s) (literal s) := by
  unfold Template.literal
  split
  · rename_i a ha
    refine hV.atom fun t => ?_
    rintro rfl
    unfold wordValue? at ha
    grind
  · split
    · exact hV.unquote h (by assumption)
    · exact h

/-- Reading a literal off related results gives related results. -/
theorem coerce {γ : Type} (given : Tree γ) {v : Tree α} {w : Tree β} (h : V v w) :
    V (coerce given v) (coerce given w) := by
  have hw := hV.erase h
  cases v with
  | atom a =>
    obtain rfl : w = .atom a := Tree.erase_eq_atom_iff.1 hw.symm
    cases a with
    | str s =>
      simp only [Template.coerce]
      split
      · split
        · exact h
        · exact hV.literal h
      · exact hV.literal h
    | _ => exact h
  | _ =>
    cases w with
    | atom b => cases hw
    | _ => exact h

theorem undefined : V Tree.undefined Tree.undefined :=
  hV.atom (by simp)

theorem firstDefault {ts : List String} (h : ∀ t ∈ ts, hasPlaceholder t.toList = false) :
    V (firstDefault ts) (firstDefault ts) := by
  induction ts with
  | nil => exact hV.undefined
  | cons t ts ih =>
    unfold LayeredConfig.firstDefault
    split
    · exact ih fun u hu => h u (List.mem_cons_of_mem _ hu)
    · exact hV.str (h t List.mem_cons_self)

end TreeRelation

/-! ## Values resolved text by text -/

section Values

variable {m m' : Type → Type} [Monad m] [Monad m'] {R : Relator m m'}
  {V : Tree α → Tree β → Prop} {text : String → m (Tree α)} {text' : String → m' (Tree β)}

mutual

/-- Values resolved by related steps for their texts have related results. -/
theorem rel_resolveWith (hV : TreeRelation V) (ht : ∀ s, R.rel V (text s) (text' s)) :
    (v : Value) → R.rel V (resolveWith text v) (resolveWith text' v)
  | .atom a => by
    cases a with
    | str s => exact ht s
    | _ => exact R.rel_pure (hV.atom (by simp))
  | .list _ items =>
    R.rel_bind (rel_resolveItems hV ht items) fun _ _ h => R.rel_pure (hV.list h)
  | .tuple items =>
    R.rel_bind (rel_resolveItems hV ht items) fun _ _ h => R.rel_pure (hV.list h)
  | .map _ es =>
    R.rel_bind (rel_resolveEntries hV ht es) fun _ _ h => R.rel_pure (hV.map h)
  | .set members => R.rel_pure (hV.set members)

theorem rel_resolveItems (hV : TreeRelation V) (ht : ∀ s, R.rel V (text s) (text' s)) :
    (items : List Value) →
      R.rel (List.Forall₂ V) (resolveItems text items) (resolveItems text' items)
  | [] => R.rel_pure .nil
  | x :: xs =>
    R.rel_bind (rel_resolveWith hV ht x) fun _ _ h =>
      R.rel_bind (rel_resolveItems hV ht xs) fun _ _ hs => R.rel_pure (.cons h hs)

theorem rel_resolveEntries (hV : TreeRelation V) (ht : ∀ s, R.rel V (text s) (text' s)) :
    (es : List (Key × Value)) →
      R.rel (List.Forall₂ fun e e' => e.1 = e'.1 ∧ V e.2 e'.2)
        (resolveEntries text es) (resolveEntries text' es)
  | [] => R.rel_pure .nil
  | (_, v) :: es =>
    R.rel_bind (rel_resolveWith hV ht v) fun _ _ h =>
      R.rel_bind (rel_resolveEntries hV ht es) fun _ _ hs => R.rel_pure (.cons ⟨rfl, h⟩ hs)

end

theorem rel_resolveText (hV : TreeRelation V) (ht : ∀ s, R.rel V (text s) (text' s))
    (s : String) : R.rel V (resolveText text s) (resolveText text' s) :=
  R.rel_bind (ht s) fun _ _ h => R.rel_pure (hV.coerce _ h)

end Values

/-! ## Engines in step -/

section Failing

variable {m m' : Type → Type} {φ : Type} [Monad m] [Monad m'] [MonadExcept (ResolveError φ) m]
  [MonadExcept (ResolveError φ) m'] {R : Relator m m'}
  (hthrow : ∀ {γ γ' : Type} (Q : γ → γ' → Prop) (err : ResolveError φ),
    R.rel Q (MonadExcept.throw err) (MonadExcept.throw err))

include hthrow

/-- The same result taken over on both sides. -/
theorem rel_ofExcept {ε γ : Type} (wrap : ε → ResolveError φ) (x : Except ε γ) :
    R.rel (fun b c => b = c ∧ x = .ok b) (ResolveError.ofExcept wrap x)
      (ResolveError.ofExcept wrap x) := by
  cases x with
  | ok b => exact R.rel_pure ⟨rfl, rfl⟩
  | error err => exact hthrow _ (wrap err)

variable {V : Tree α → Tree β → Prop} {evaluate : Placeholder → m (Tree α)}
  {evaluate' : Placeholder → m' (Tree β)}
  (hevaluate : ∀ p : Placeholder, p.WellFormed →
    R.rel (fun v w => OrSameText V v w ∧ (p.sigil = .lookup → V v w)) (evaluate p) (evaluate' p))

include hevaluate

theorem rel_fillWith (hV : TreeRelation V) {piece : Piece}
    (hp : ∀ p, piece = .hole p → p.WellFormed) :
    R.rel Eq (fillWith evaluate piece) (fillWith evaluate' piece) := by
  cases piece with
  | char c => exact R.rel_pure rfl
  | hole p =>
    refine R.rel_bind (hevaluate p (hp p rfl)) fun v w hvw => ?_
    rw [text_congr (hV.erase_orSameText hvw.1)]
    refine R.rel_bind (rel_ofExcept hthrow .unwritable (text w)) ?_
    rintro s _ ⟨rfl, -⟩
    exact R.rel_pure rfl

/-- A pass over a text gives related results if its placeholders have related values and texts are
substituted alike afterwards. -/
theorem rel_onePass (hV : TreeRelation V) {again : String → m (Tree α)}
    {again' : String → m' (Tree β)} (hagain : ∀ t, R.rel V (again t) (again' t)) (s : String) :
    R.rel V (onePass evaluate again s) (onePass evaluate' again' s) := by
  have hwf : ∀ p, Piece.hole p ∈ scan s.toList → p.WellFormed := fun p => wellFormed_of_mem_scan
  unfold onePass
  split
  · rename_i p hp
    refine R.rel_bind (hevaluate p (hwf p (hp ▸ List.mem_singleton_self _))) ?_
    rintro v w ⟨hvw, hlookup⟩
    cases hsigil : p.sigil with
    | lookup => exact R.rel_pure (hlookup hsigil)
    | call =>
      rcases hV.orSameText_cases hvw with ⟨t, rfl, rfl⟩ | ⟨hvw, hv, hw⟩
      · exact hagain t
      · rw [Engine.again_of_ne_str _ hv, Engine.again_of_ne_str _ hw]
        exact R.rel_pure hvw
  · have hfill : ∀ piece ∈ scan s.toList,
        R.rel Eq (fillWith evaluate piece) (fillWith evaluate' piece) := fun piece hmem =>
      rel_fillWith hthrow hevaluate hV fun p hp => hwf p (hp ▸ hmem)
    refine R.rel_bind (R.rel_mapM hfill) fun parts parts' hparts => ?_
    rw [List.forall₂_eq_eq_eq] at hparts
    rw [hparts]
    exact hagain _

end Failing

namespace Engine

variable {m m' : Type → Type} {φ : Type} [Monad m] [Monad m'] [MonadExcept (ResolveError φ) m]
  [MonadExcept (ResolveError φ) m']

/-- What two engines have to share so that they find values alike, each with its own way to
substitute the texts that it meets and its own number of passes left. -/
structure ReadsAlike (R : Relator m m') (V : Tree α → Tree β → Prop) (e : Engine m α)
    (sub : String → m (Tree α)) (left : Nat) (e' : Engine m' β) (sub' : String → m' (Tree β))
    (left' : Nat) : Prop where
  trees : TreeRelation V
  registry : e'.registry = e.registry
  throw {γ γ' : Type} (Q : γ → γ' → Prop) (err : ResolveError φ) :
    R.rel Q (MonadExcept.throw err) (MonadExcept.throw err)
  text (s : String) : R.rel V (sub s) (sub' s)
  container {a : Address} {v : Value} (reference : String) : e.registry.at? a = some v →
    R.rel V (e.container (resolveWith (resolveText sub)) left a v reference)
      (e'.container (resolveWith (resolveText sub')) left' a v reference)

/-- What two engines have to share so that they evaluate placeholders alike. -/
structure InStep (R : Relator m m') (V : Tree α → Tree β → Prop) (e : Engine m α)
    (sub : String → m (Tree α)) (left : Nat) (e' : Engine m' β) (sub' : String → m' (Tree β))
    (left' : Nat) : Prop extends ReadsAlike R V e sub left e' sub' left' where
  unregistered (name : String) :
    R.rel (fun _ _ => True) (e.unregistered name) (e'.unregistered name)
  apply (f : FnHandle) {args : List (Tree α)} {args' : List (Tree β)} :
    List.Forall₂ V args args' → R.rel (OrSameText V) (e.apply f args) (e'.apply f args')

section Placeholders

variable {R : Relator m m'} {V : Tree α → Tree β → Prop} {e : Engine m α}
  {sub : String → m (Tree α)} {left : Nat} {e' : Engine m' β} {sub' : String → m' (Tree β)}
  {left' : Nat}

namespace ReadsAlike

variable (h : ReadsAlike R V e sub left e' sub' left')

include h

/-- Both engines resolve a value alike. -/
theorem resolve (v : Value) :
    R.rel V (resolveWith (resolveText sub) v) (resolveWith (resolveText sub') v) :=
  rel_resolveWith h.trees (rel_resolveText h.trees h.text) v

theorem lookup (space path : String) {defaults : List String}
    (hd : ∀ t ∈ defaults, hasPlaceholder t.toList = false) :
    R.rel V (e.lookup sub left space path defaults) (e'.lookup sub' left' space path defaults) := by
  have hdef : R.rel V (pure (firstDefault defaults)) (pure (firstDefault defaults)) :=
    R.rel_pure (h.trees.firstDefault hd)
  unfold Engine.lookup
  rw [h.registry]
  refine R.rel_bind (rel_ofExcept h.throw .index _) ?_
  rintro found _ ⟨rfl, hfound⟩
  match found with
  | none => exact hdef
  | some (steps, .set members) => exact R.rel_pure (h.trees.set members)
  | some (steps, .atom a) =>
    cases a with
    | missing => exact hdef
    | undefined => exact hdef
    | str s =>
      by_cases hs : hasPlaceholder s.toList = true
      · simp only [hs, if_true]
        refine R.rel_bind (h.text s) fun v w hvw => ?_
        have hu : (coerce (.str s : Value) v).isUndefined =
            (coerce (.str s : Value) w).isUndefined := by
          rw [← Tree.isUndefined_erase, h.trees.erase (h.trees.coerce _ hvw),
            Tree.isUndefined_erase]
        rw [hu]
        split
        · exact hdef
        · exact R.rel_pure hvw
      · simp only [hs]
        exact R.rel_pure (h.trees.str (by simpa using hs))
    | _ => exact R.rel_pure (h.trees.atom (by simp))
  | some (steps, .list t items) =>
    exact h.container _ (Registry.at?_of_find? hfound)
  | some (steps, .map t es) =>
    exact h.container _ (Registry.at?_of_find? hfound)
  | some (steps, .tuple items) =>
    exact h.container _ (Registry.at?_of_find? hfound)

theorem argument {token : String} (ht : hasPlaceholder token.toList = false) :
    R.rel V (e.argument sub token) (e'.argument sub' token) := by
  have hword : R.rel V (pure (.str token)) (pure (.str token)) := R.rel_pure (h.trees.str ht)
  unfold Engine.argument
  rw [h.registry]
  refine R.rel_bind (rel_ofExcept h.throw .index _) ?_
  rintro found _ ⟨rfl, -⟩
  match found with
  | none => exact hword
  | some (steps, v) =>
    have hv := h.resolve v
    cases v with
    | atom a =>
      cases a with
      | missing => exact hword
      | _ => exact hv
    | _ => exact hv

theorem arguments {tokens : List String}
    (ht : ∀ t ∈ tokens, hasPlaceholder t.toList = false) :
    R.rel (List.Forall₂ V) (tokens.mapM (e.argument sub)) (tokens.mapM (e'.argument sub')) :=
  R.rel_mapM fun t htok => h.argument (ht t htok)

end ReadsAlike

namespace InStep

variable (h : InStep R V e sub left e' sub' left')

include h

theorem call (space : String) {tokens : List String}
    (ht : ∀ t ∈ tokens, hasPlaceholder t.toList = false) :
    R.rel (OrSameText V) (e.call sub space tokens) (e'.call sub' space tokens) := by
  rcases e.call_cases sub space tokens with ⟨f, hf, hcall⟩ | ⟨hne, hcall⟩ <;>
    rcases e'.call_cases sub' space tokens with ⟨f', hf', hcall'⟩ | ⟨hne', hcall'⟩ <;>
    rw [hcall, hcall']
  · rw [h.registry, hf] at hf'
    cases hf'
    exact R.rel_bind (h.arguments ht) fun args args' hargs => h.apply f hargs
  · exact absurd (h.registry ▸ hf) (hne' f)
  · exact absurd (h.registry ▸ hf') (hne f')
  · exact R.rel_bind (h.unregistered space) fun _ _ _ => R.rel_pure (Or.inl h.trees.undefined)

/-- Both engines give a placeholder related values; only a function may give a text that is not
substituted yet. -/
theorem evaluate {p : Placeholder} (hp : p.WellFormed) :
    R.rel (fun v w => OrSameText V v w ∧ (p.sigil = .lookup → V v w))
      (e.evaluate sub left p) (e'.evaluate sub' left' p) := by
  have ht : ∀ t ∈ p.tokens, hasPlaceholder t.toList = false := fun t htok =>
    hp.not_hasPlaceholder_of_mem_tokens htok
  unfold Engine.evaluate
  cases hsigil : p.sigil with
  | call =>
    refine R.rel_mono (fun v w hvw => ⟨hvw, by simp⟩) (h.call p.spaceName ht)
  | lookup =>
    have hd : ∀ t ∈ p.tokens.tail, hasPlaceholder t.toList = false := fun t htok =>
      ht t (List.mem_of_mem_tail htok)
    exact R.rel_mono (fun v w hvw => ⟨Or.inl hvw, fun _ => hvw⟩)
      (h.lookup p.spaceName (p.tokens.headD "") hd)

end InStep

end Placeholders

/-! ## Engines that keep step -/

/-- What two engines have to share so that the second one, with `k` passes more, keeps step. -/
structure Simulates (R : Relator m m') (V : Tree α → Tree β → Prop) (k : Nat) (e : Engine m α)
    (e' : Engine m' β) : Prop where
  trees : TreeRelation V
  registry : e'.registry = e.registry
  throw {γ γ' : Type} (Q : γ → γ' → Prop) (err : ResolveError φ) :
    R.rel Q (MonadExcept.throw err) (MonadExcept.throw err)
  exhausted (s : String) : hasPlaceholder s.toList = true →
    R.rel V (e.exhausted s) (e'.substitute k s)
  unregistered (name : String) :
    R.rel (fun _ _ => True) (e.unregistered name) (e'.unregistered name)
  apply (f : FnHandle) {args : List (Tree α)} {args' : List (Tree β)} :
    List.Forall₂ V args args' → R.rel (OrSameText V) (e.apply f args) (e'.apply f args')
  container (left : Nat) {a : Address} {v : Value} (reference : String) :
    e.registry.at? a = some v →
    (∀ u, R.rel V (e.resolve left u) (e'.resolve (left + k) u)) →
    R.rel V (e.container (e.resolve left) left a v reference)
      (e'.container (e'.resolve (left + k)) (left + k) a v reference)

namespace Simulates

variable {R : Relator m m'} {V : Tree α → Tree β → Prop} {k : Nat} {e : Engine m α}
  {e' : Engine m' β} (h : Simulates R V k e e')

include h

/-- Engines that keep step are in step wherever they substitute texts alike. -/
theorem inStep {left : Nat}
    (ih : ∀ s, R.rel V (e.substitute left s) (e'.substitute (left + k) s)) :
    InStep R V e (e.substitute left) left e' (e'.substitute (left + k)) (left + k) where
  trees := h.trees
  registry := h.registry
  throw := h.throw
  unregistered := h.unregistered
  apply := h.apply
  text := ih
  container reference ha := h.container left reference ha
    (rel_resolveWith h.trees (rel_resolveText h.trees ih))

/-- Engines that keep step substitute every text alike, with any number of passes left. -/
theorem substitute (left : Nat) (s : String) :
    R.rel V (e.substitute left s) (e'.substitute (left + k) s) := by
  -- the passes count down on every way back into `substitute`, through containers too
  induction left generalizing s with
  | zero =>
    rw [Nat.zero_add]
    by_cases hs : hasPlaceholder s.toList = true
    · rw [e.substitute_zero hs]
      exact h.exhausted s hs
    · rw [Bool.not_eq_true] at hs
      rw [e.substitute_of_not_hasPlaceholder hs, e'.substitute_of_not_hasPlaceholder hs]
      exact R.rel_pure (h.trees.str hs)
  | succ left ih =>
    rw [Nat.add_right_comm]
    by_cases hs : hasPlaceholder s.toList = true
    · rw [e.substitute_succ hs, e'.substitute_succ hs]
      exact rel_onePass h.throw (fun p hp => (h.inStep ih).evaluate hp) h.trees ih s
    · rw [Bool.not_eq_true] at hs
      rw [e.substitute_of_not_hasPlaceholder hs, e'.substitute_of_not_hasPlaceholder hs]
      exact R.rel_pure (h.trees.str hs)

/-- Engines that keep step resolve every value alike. -/
theorem resolve (left : Nat) (v : Value) : R.rel V (e.resolve left v) (e'.resolve (left + k) v) :=
  (h.inStep (h.substitute left)).resolve v

end Simulates

end Engine

end LayeredConfig
