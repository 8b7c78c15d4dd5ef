import LayeredConfig.Proofs.Resolve.Outward
import LayeredConfig.Proofs.Resolve.Whole
import LayeredConfig.Proofs.Template.Nested
import Mathlib.Logic.Relation

/-!
# References are transparent

A text that is exactly one reference has the value that the resolved tree has at
the place it leads to, although this value is computed twice: there at depth zero,
and through the reference with fewer passes left and below a container.  Neither
matters to a strict resolution that succeeds, and texts are given their type once,
since no result of a strict substitution has a placeholder.

* `referred` — what a reference means, by the definition and its resolved tree.
* `Resolver.referred_of_directAt` — one reference.
* `Resolver.referred_of_chain` — a chain of references.
* `Resolver.referred_of_resolveTree` — the references in a definition.
-/

namespace LayeredConfig

open Template

variable {σ φ : Type}

/-! ## References -/

/-- A path that a placeholder names as it is: without commas, braces and blanks at its ends. -/
def Path.Plain (path : String) : Prop :=
  (∀ c ∈ path.toList, isBodyChar c = true ∧ c ≠ ',') ∧ Text.trim path.toList = path.toList

instance : DecidablePred Path.Plain := fun path =>
  decidable_of_iff ((path.toList.all fun c => isBodyChar c && c != ',') = true ∧
    Text.trim path.toList = path.toList) (by simp [Path.Plain, List.all_eq_true])

/-- The reference to a path of the definition, as a placeholder. -/
def selfReference (path : String) : Placeholder :=
  ⟨.lookup, Registry.reservedName.toList, path.toList⟩

/-- A reference as it is written. -/
abbrev reference (path : String) : String :=
  referenceText Registry.reservedName path

theorem toList_reference (path : String) : (reference path).toList = (selfReference path).chars := by
  simp [reference, referenceText, selfReference, Placeholder.chars, Sigil.char]

theorem wellFormed_selfReference {path : String} (h : Path.Plain path) :
    (selfReference path).WellFormed := by
  have hspace : Registry.reservedName.toList.all isSpaceChar = true := by decide +kernel
  exact ⟨List.all_eq_true.1 hspace, fun c hc => (h.1 c hc).1⟩

theorem scan_reference {path : String} (h : Path.Plain path) :
    scan (reference path).toList = [.hole (selfReference path)] := by
  rw [toList_reference, scan_chars (wellFormed_selfReference h)]

theorem hasPlaceholder_reference {path : String} (h : Path.Plain path) :
    hasPlaceholder (reference path).toList = true := by
  rw [hasPlaceholder, scan_reference h]
  rfl

theorem tokens_selfReference {path : String} (h : Path.Plain path) :
    (selfReference path).tokens = [path] := by
  have hcomma : ',' ∉ path.toList := fun hmem => (h.1 ',' hmem).2 rfl
  rw [Placeholder.tokens, selfReference, List.splitOn_eq_singleton hcomma, List.map_singleton, h.2,
    String.ofList_toList]

theorem spaceName_selfReference (path : String) :
    (selfReference path).spaceName = Registry.reservedName := by
  have hname : String.ofList (Text.trim Registry.reservedName.toList) = Registry.reservedName := by
    decide +kernel
  exact hname

namespace Engine

variable {m : Type → Type} {α φ : Type} [Monad m] [Inhabited α] [MonadExcept (ResolveError φ) m]
variable (e : Engine m α) {path : String}

theorem evaluate_selfReference (sub : String → m (Tree α)) (left : Nat)
    (hpath : Path.Plain path) :
    e.evaluate sub left (selfReference path) =
      e.lookup sub left Registry.reservedName path [] := by
  change e.lookup sub left (selfReference path).spaceName ((selfReference path).tokens.headD "")
    (selfReference path).tokens.tail = _
  rw [spaceName_selfReference, tokens_selfReference hpath]
  rfl

/-- A text that is exactly one reference takes what it finds, with a pass less. -/
theorem substitute_reference [LawfulMonad m] (left : Nat) (hpath : Path.Plain path) :
    e.substitute (left + 1) (reference path) =
      e.lookup (e.substitute left) left Registry.reservedName path [] := by
  rw [e.substitute_exact (scan_reference hpath), e.evaluate_selfReference _ _ hpath]
  exact bind_pure _

end Engine

/-! ## What a reference means -/

/-- What a text that is exactly a reference to a path has for its value, given the definition and
its resolved tree. -/
def referred (definition resolved : Value) (text path : String) : Except NumeralError Value := do
  match ← definition.get path with
  | .atom .missing => return Tree.undefined
  | .atom .undefined => return Tree.undefined
  | .atom (.str s) =>
    if hasPlaceholder s.toList then resolved.get path else return coerce (.str text : Value) (.str s)
  | _ => resolved.get path

theorem get_of_find? {t : Value} {path : String} {steps : List Nat} {v : Value}
    (h : Tree.find? path t = .ok (some (steps, v))) : t.get path = .ok v := by
  rw [Tree.get, h]
  rfl

theorem get_of_find?_eq_none {t : Value} {path : String} (h : Tree.find? path t = .ok none) :
    t.get path = .ok Tree.missing := by
  rw [Tree.get, h]
  rfl

theorem exists_find?_of_get {t : Value} {path : String} {v : Value} (h : t.get path = .ok v)
    (hv : v ≠ Tree.missing) : ∃ steps, Tree.find? path t = .ok (some (steps, v)) := by
  rw [Tree.get] at h
  cases hfind : Tree.find? path t with
  | error e =>
    rw [hfind] at h
    cases h
  | ok found =>
    rw [hfind] at h
    cases found with
    | none => exact absurd (Except.ok.inj h).symm hv
    | some hit =>
      cases h
      exact ⟨hit.1, rfl⟩

theorem referred_text {definition resolved : Value} {text path s : String}
    (h : definition.get path = .ok (.str s)) :
    referred definition resolved text path =
      if hasPlaceholder s.toList then resolved.get path
      else .ok (coerce (.str text : Value) (.str s)) := by
  rw [referred, h]
  rfl

theorem referred_of_ne_atom {definition resolved : Value} {text path : String} {u : Value}
    (h : definition.get path = .ok u) (hu : ∀ a, u ≠ .atom a) :
    referred definition resolved text path = resolved.get path := by
  rw [referred, h]
  cases u with
  | atom a => exact absurd rfl (hu a)
  | _ => rfl

theorem coerce_of_ne_str (given : Value) {v : Value} (hv : ∀ s, v ≠ .str s) :
    coerce given v = v := by
  cases v with
  | atom a =>
    cases a with
    | str s => exact absurd rfl (hv s)
    | _ => rfl
  | _ => rfl

/-- What is no scalar has no text for its value. -/
theorem ne_str_of_resolveWith {text : String → Below φ Value} {above : Finset Address}
    {u v : Value} (hu : ∀ a, u ≠ .atom a) (h : resolveWith text u above = .ok v) (s : String) :
    v ≠ .str s := by
  rintro rfl
  cases u with
  | atom a => exact hu a rfl
  | set members => cases h
  | _ =>
    obtain ⟨_, -, h⟩ := Below.exists_of_bind h
    cases h

/-- A text is given its type without regard to the text with a placeholder that it comes from. -/
theorem coerce_congr {s t : String} (hs : hasPlaceholder s.toList = true)
    (ht : hasPlaceholder t.toList = true) {v : Value} (hv : Finished v) :
    coerce (.str s : Value) v = coerce (.str t : Value) v := by
  by_cases htext : ∃ u, v = .str u
  · obtain ⟨u, rfl⟩ := htext
    have hu := hv u rfl
    have hus : u ≠ s := by
      rintro rfl
      rw [hs] at hu
      cases hu
    have hut : u ≠ t := by
      rintro rfl
      rw [ht] at hu
      cases hu
    simp only [coerce, if_neg hus, if_neg hut]
  · have hne : ∀ u, v ≠ .str u := fun u hu => htext ⟨u, hu⟩
    rw [coerce_of_ne_str _ hne, coerce_of_ne_str _ hne]

theorem eq_undefined_of_isUndefined {α : Type} {v : Tree α} (h : v.isUndefined = true) :
    v = Tree.undefined := by
  unfold Tree.isUndefined at h
  split at h
  · rfl
  · cases h

namespace Resolver

variable (r : Resolver σ φ) {answer : FnHandle → List Value → Except φ Value}

theorem exists_of_directAt_str {s : String} {w : Value}
    (h : r.directAt answer 0 (.str s) = .ok w) :
    ∃ v, (r.direct answer).substitute (r.passesLeft 0) s ∅ = .ok v ∧
      w = coerce (.str s : Value) v := by
  obtain ⟨v, hv, h⟩ := Below.exists_of_bind h
  cases h
  exact ⟨v, hv, rfl⟩

/-- A text that is exactly a reference takes what the reference finds, with one pass less. -/
theorem exists_lookup_of_directAt (hstrict : r.strict = true) {path : String}
    (hpath : Path.Plain path) {w : Value}
    (h : r.directAt answer 0 (.str (reference path)) = .ok w) :
    ∃ n v, n ≤ r.passesLeft 0 ∧
      (r.direct answer).lookup ((r.direct answer).substitute n) n Registry.reservedName path [] ∅ =
        .ok v ∧
      w = coerce (.str (reference path) : Value) v := by
  obtain ⟨v, hv, rfl⟩ := r.exists_of_directAt_str h
  generalize hleft : r.passesLeft 0 = left at hv
  cases left with
  | zero =>
    rw [Engine.substitute_zero _ (hasPlaceholder_reference hpath),
      r.direct_exhausted hstrict] at hv
    cases hv
  | succ n =>
    rw [Engine.substitute_reference _ _ hpath] at hv
    exact ⟨n, v, Nat.le_succ n, hv, rfl⟩

/-- A text with placeholders that a reference finds has the value that it has at its own place. -/
theorem coerce_of_lookup_str (hstrict : r.strict = true) {path s : String}
    (hpath : Path.Plain path) (hs : hasPlaceholder s.toList = true) {n : Nat}
    (hn : n ≤ r.passesLeft 0) {v x : Value}
    (h : (do
      let out ← (r.direct answer).substitute n s
      if (coerce (.str s : Value) out).isUndefined then return Tree.undefined else return out :
        Below φ Value) ∅ = .ok v)
    (hx : r.directAt answer 0 (.str s) = .ok x) :
    coerce (.str (reference path) : Value) v = x := by
  obtain ⟨out, hout, h⟩ := Below.exists_of_bind h
  obtain ⟨hwhole, hfinished⟩ := r.substitute_outward hstrict hn (Finset.Subset.refl ∅) hout
  obtain ⟨out', hout', rfl⟩ := r.exists_of_directAt_str hx
  obtain rfl : out = out' := Except.ok.inj (hwhole.symm.trans hout')
  split at h
  · rename_i hundefined
    cases h
    exact (eq_undefined_of_isUndefined hundefined).symm
  · cases h
    exact coerce_congr (hasPlaceholder_reference hpath) hs hfinished

/-- A container that a reference finds has the value that it has at its own place. -/
theorem resolve_of_container (hstrict : r.strict = true) {n : Nat} (hn : n ≤ r.passesLeft 0)
    {a : Address} {u v : Value} {reference : String}
    (h : r.directContainer ((r.direct answer).resolve n) a u reference ∅ = .ok v) :
    r.directAt answer 0 u = .ok v := by
  rw [run_directContainer, if_neg (Finset.notMem_empty a)] at h
  exact r.resolve_outward hstrict hn (Finset.empty_subset _) h

/-- What a reference finds is what the resolved tree has at that place. -/
theorem referred_of_directAt (hstrict : r.strict = true) {tree : Value}
    (htree : r.directAt answer 0 r.registry.definition = .ok tree) {path : String}
    (hpath : Path.Plain path) {w : Value}
    (h : r.directAt answer 0 (.str (reference path)) = .ok w) :
    referred r.registry.definition tree (reference path) path = .ok w := by
  obtain ⟨n, v, hn, hlookup, rfl⟩ := r.exists_lookup_of_directAt hstrict hpath h
  rw [Engine.lookup] at hlookup
  obtain ⟨found, hfound, hlookup⟩ := Below.exists_of_bind hlookup
  have hfind : Tree.find? path r.registry.definition = .ok found :=
    Below.exists_of_ofExcept hfound
  match found with
  | none =>
    cases hlookup
    rw [referred, get_of_find?_eq_none hfind]
    rfl
  | some (steps, u) =>
    obtain ⟨x, hx, hvalue⟩ := find?_resolveWith htree hfind
    have hget : tree.get path = .ok x := get_of_find? hx
    have hfound : r.registry.definition.get path = .ok u := get_of_find? hfind
    have hcontainer : (∀ a, u ≠ .atom a) → ∀ {a : Address} {text : String},
        r.directContainer ((r.direct answer).resolve n) a u text ∅ = .ok v →
          referred r.registry.definition tree (reference path) path =
            .ok (coerce (.str (reference path) : Value) v) := by
      intro hu a text h
      have hv := r.resolve_of_container hstrict hn h
      obtain rfl : v = x := Except.ok.inj (hv.symm.trans hvalue)
      rw [referred_of_ne_atom hfound hu, coerce_of_ne_str _ (ne_str_of_resolveWith hu hvalue)]
      exact hget
    cases u with
    | atom a =>
      cases a with
      | missing =>
        cases hlookup
        rw [referred, hfound]
        rfl
      | undefined =>
        cases hlookup
        rw [referred, hfound]
        rfl
      | str s =>
        rw [referred_text hfound]
        by_cases hs : hasPlaceholder s.toList = true
        · simp only [hs, if_true] at hlookup ⊢
          rw [r.coerce_of_lookup_str hstrict hpath hs hn hlookup hvalue]
          exact hget
        · rw [if_neg hs]
          simp only [hs] at hlookup
          cases hlookup
          rfl
      | _ =>
        cases hlookup
        cases hvalue
        rw [referred, hfound]
        exact hget
    | set members =>
      cases hlookup
      cases hvalue
      rw [referred, hfound]
      exact hget
    | list t items => exact hcontainer (by simp) hlookup
    | map t es => exact hcontainer (by simp) hlookup
    | tuple items => exact hcontainer (by simp) hlookup

/-! ## Chains of references -/

omit r in
/-- The definition has a reference to the second path at the first one. -/
def Refers (definition : Value) (p q : String) : Prop :=
  Path.Plain q ∧ definition.get p = .ok (.str (reference q))

omit r in
/-- What a reference means does not depend on the text that it is written in. -/
theorem referred_congr (definition resolved : Value) {s t : String}
    (hs : hasPlaceholder s.toList = true) (ht : hasPlaceholder t.toList = true) (path : String) :
    referred definition resolved s path = referred definition resolved t path := by
  cases hget : definition.get path with
  | error e => rw [referred, referred, hget]; rfl
  | ok v =>
    by_cases htext : ∃ u, v = .str u
    · obtain ⟨u, rfl⟩ := htext
      rw [referred_text hget, referred_text hget]
      split
      · rfl
      · rename_i hu
        have hfinished : Finished (.str u) := fun _ heq => by
          cases heq
          simpa using hu
        rw [coerce_congr hs ht hfinished]
    · rw [referred, referred, hget]
      cases v with
      | atom a =>
        cases a with
        | str u => exact absurd ⟨u, rfl⟩ htext
        | _ => rfl
      | _ => rfl

/-- A chain of references means what its last link means. -/
theorem referred_of_chain (hstrict : r.strict = true) {tree : Value}
    (htree : r.directAt answer 0 r.registry.definition = .ok tree) {path last : String}
    (hpath : Path.Plain path)
    (hchain : Relation.ReflTransGen (Refers r.registry.definition) path last) {w : Value}
    (h : r.directAt answer 0 (.str (reference path)) = .ok w) :
    referred r.registry.definition tree (reference path) last = .ok w := by
  induction hchain with
  | refl => exact r.referred_of_directAt hstrict htree hpath h
  | @tail link next _ hstep ih =>
    obtain ⟨hnext, hget⟩ := hstep
    rw [referred_text hget, if_pos (hasPlaceholder_reference hnext)] at ih
    -- the link has its value at its own place, and that is what the next one means
    obtain ⟨steps, hfind⟩ := exists_find?_of_get hget (by simp)
    obtain ⟨x, hx, hvalue⟩ := find?_resolveWith htree hfind
    obtain rfl : x = w := Except.ok.inj ((get_of_find? hx).symm.trans ih)
    have hreferred := r.referred_of_directAt hstrict htree hnext hvalue
    rwa [referred_congr _ _ (hasPlaceholder_reference hnext) (hasPlaceholder_reference hpath)]
      at hreferred

/-- If the keys of a definition are segments and the functions compute, a strict resolution that
succeeds gives every text in it that is exactly a reference what the reference means, and what the
last link of a chain of references means that starts with it. -/
theorem referred_of_resolveTree (hstrict : r.strict = true) (h : r.host.Computes answer)
    (hnamed : r.registry.definition.Named Path.IsSegment) {s t : Scratch σ}
    (hactive : s.active = []) {tree : Shared}
    (hrun : (r.resolveTree r.registry.definition).run s = (.ok tree, t)) {path : String}
    (hpath : Path.Plain path) {steps : List Nat}
    (hplace : r.registry.definition.descend steps = some (.str (reference path)))
    {last : String} (hchain : Relation.ReflTransGen (Refers r.registry.definition) path last) :
    ∃ w, tree.erase.descend steps = some w ∧
      referred r.registry.definition tree.erase (reference path) last = .ok w := by
  have htree : r.directAt answer 0 r.registry.definition = .ok tree.erase := by
    obtain ⟨es, hes, -⟩ := r.exists_map_of_resolveTree hrun
    rw [hes] at hnamed hrun ⊢
    exact r.directAt_of_resolveTree h hnamed hactive hrun
  obtain ⟨w, hw, hvalue⟩ := descend_resolveWith htree hplace
  exact ⟨w, hw, r.referred_of_chain hstrict htree hpath hchain hvalue⟩

/-- A definition with a chain of references that ends at a quoted word. -/
def aliases : Value :=
  .map () [(.str "a", .str (reference "b")), (.str "b", .str (reference "c")),
    (.str "c", .str "'true'"), (.str "all", .list () [.str (reference "a")])]

/-- What a function answers that always fails. -/
def refuse (_ : FnHandle) (_ : List Value) : Except Unit Value :=
  .error ()

/-- A strict resolver of the aliases. -/
def aliasResolver : Resolver Nat Unit where
  registry := .ofDefinition aliases
  host := .ofAnswer refuse
  maxDepth := 10
  strict := true

/-- The item of the list is the word, from which the quotes are taken once. -/
theorem referred_of_resolveTree_aliases :
    ∃ tree t, (aliasResolver.resolveTree aliases).run (Scratch.start 0) = (.ok tree, t) ∧
      tree.erase.descend [3, 0] = some (.str "true") := by
  have hsegment : ∀ s ∈ ["a", "b", "c", "all"], Path.IsSegment s := by
    decide +kernel
  have hnamed : aliases.Named Path.IsSegment :=
    ⟨⟨"a", rfl, hsegment _ (by simp)⟩, by simp, trivial,
      ⟨"b", rfl, hsegment _ (by simp)⟩, by simp, trivial,
      ⟨"c", rfl, hsegment _ (by simp)⟩, by simp, trivial,
      ⟨"all", rfl, hsegment _ (by simp)⟩, by simp, trivial, trivial⟩
  have hplain : ∀ s ∈ ["a", "b", "c"], Path.Plain s := by
    decide +kernel
  have hchain : Relation.ReflTransGen (Refers aliases) "a" "c" :=
    (Relation.ReflTransGen.single ⟨hplain "b" (by simp), by rfl⟩).tail
      ⟨hplain "c" (by simp), by rfl⟩
  have hok : ((aliasResolver.resolveTree aliases).run (Scratch.start 0)).1.isOk = true := by
    decide +kernel
  obtain ⟨tree, t, hrun⟩ := Run.exists_of_isOk hok
  have hplace : aliases.descend [3, 0] = some (.str (reference "a")) := rfl
  obtain ⟨w, hw, hreferred⟩ := aliasResolver.referred_of_resolveTree rfl
    (Host.computes_ofAnswer refuse) hnamed rfl hrun (hplain "a" (by simp)) hplace hchain
  have hword : referred aliases tree.erase (reference "a") "c" = .ok (.str "true") := by
    rw [referred_text (s := "'true'") (by rfl)]
    rfl
  obtain rfl : .str "true" = w := Except.ok.inj (hword.symm.trans hreferred)
  exact ⟨tree, t, hrun, hw⟩

end Resolver

end LayeredConfig
