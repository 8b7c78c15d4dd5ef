import LayeredConfig.Proofs.Resolve.Cached
import LayeredConfig.Proofs.Template.InsideOut

/-!
# Passes work from the inside out

A strict substitution that replaces the innermost placeholders of a text in one
pass after the other gives what the recursion over the fragments of the text gives,
if what goes into a text is plain and functions answer with plain texts.

With more passes a strict resolution gives the same values, so it does not matter
in which pass a placeholder is evaluated (`Resolver.meaning_of_evaluate`).

* `Resolver.meaning` — what a placeholder that holds no other one means.
* `Resolver.value_of_substitute` — passes without a cache.
* `Resolver.value_of_substituteAt` — passes with one.
-/

namespace LayeredConfig

open Template Fragment

variable {σ φ : Type}

/-! ## More passes -/

/-- Where the first step gives a result, the second one gives a related one. -/
def Below.follows : Relator (Below φ) (Below φ) where
  rel Q x y := ∀ above b, x above = .ok b → ∃ c, y above = .ok c ∧ Q b c
  rel_pure {_ _ _ b c} hQ above b' h := by
    rw [run_pure] at h
    cases h
    exact ⟨c, rfl, hQ⟩
  rel_bind hx hf above b h := by
    obtain ⟨b', hb', h⟩ := exists_of_bind h
    obtain ⟨c, hc, hP⟩ := hx above b' hb'
    rw [run_bind, hc]
    exact hf b' c hP above b h
  rel_mono hQ hx above b h := by
    obtain ⟨c, hc, hbc⟩ := hx above b h
    exact ⟨c, hc, hQ b c hbc⟩

/-- Steps done for each item give the results of the steps. -/
theorem Below.forall₂_of_mapM {ι β : Type} {f : ι → Below φ β} {items : List ι}
    {above : Finset Address} {bs : List β} (h : (items.mapM f) above = .ok bs) :
    List.Forall₂ (fun i b => f i above = .ok b) items bs := by
  induction items generalizing bs with
  | nil =>
    rw [List.mapM_nil, run_pure] at h
    cases h
    exact .nil
  | cons i items ih =>
    rw [List.mapM_cons] at h
    obtain ⟨b, hb, h⟩ := exists_of_bind h
    obtain ⟨rest, hrest, h⟩ := exists_of_bind h
    cases h
    exact .cons hb (ih hrest)

namespace Resolver

variable (r : Resolver σ φ) {answer : FnHandle → List Value → Except φ Value}

/-- What a placeholder that holds no other one means, with some number of passes for what it leads
to. -/
def meaning (answer : FnHandle → List Value → Except φ Value) (n : Nat) (p : Placeholder) :
    Except (ResolveError φ) Value :=
  (r.direct answer).evaluate ((r.direct answer).substitute n) n p ∅

theorem direct_exhausted (hstrict : r.strict = true) (s : String) :
    (r.direct answer).exhausted s = throw (.depth s r.maxDepth) := by
  show r.directExhausted s = _
  rw [directExhausted, hstrict]
  rfl

/-- With more passes a strict resolution gives the values that it gives with fewer. -/
theorem direct_follows (hstrict : r.strict = true) (k : Nat) :
    Engine.Simulates Below.follows Eq k (r.direct answer) (r.direct answer) where
  trees := treeRelation_eq
  registry := rfl
  throw _ err above b h := by
    rw [Below.run_throw] at h
    cases h
  exhausted s _ above b h := by
    rw [r.direct_exhausted hstrict] at h
    cases h
  unregistered _ above b h := ⟨(), rfl, trivial⟩
  apply f args args' hargs above b h := by
    rw [List.forall₂_eq_eq_eq] at hargs
    rw [← hargs]
    exact ⟨b, h, Or.inl rfl⟩
  container left a v reference _ hr above b h := by
    change r.directContainer _ a v reference above = .ok b at h
    show ∃ c, r.directContainer _ a v reference above = .ok c ∧ b = c
    rw [run_directContainer] at h ⊢
    by_cases ha : a ∈ above
    · rw [if_pos ha, hstrict] at h
      cases h
    · rw [if_neg ha] at h ⊢
      exact hr v _ b h

/-- What a placeholder gives in some pass is what it means, whatever the number of passes that are
left behind it. -/
theorem meaning_of_evaluate (hstrict : r.strict = true) {left n : Nat} (hle : left ≤ n)
    {p : Placeholder} (hp : p.WellFormed) {v : Value}
    (h : (r.direct answer).evaluate ((r.direct answer).substitute left) left p ∅ = .ok v) :
    r.meaning answer n p = .ok v := by
  have hsim : Engine.Simulates Below.follows Eq (n - left) (r.direct answer) (r.direct answer) :=
    r.direct_follows hstrict (n - left)
  have hev := (hsim.inStep (hsim.substitute left)).evaluate hp ∅ v h
  rw [Nat.add_sub_cancel' hle] at hev
  obtain ⟨w, hw, hsame, -⟩ := hev
  have hvw : v = w := by
    rcases hsame with hvw | ⟨s, rfl, rfl⟩
    · exact hvw
    · rfl
  rw [hvw]
  exact hw

theorem embedded_of_fill (hstrict : r.strict = true) {left n : Nat} (hle : left ≤ n)
    {p : Placeholder} (hp : p.WellFormed) {cs : List Char}
    (h : (r.direct answer).fill ((r.direct answer).substitute left) left (.hole p) ∅ = .ok cs) :
    embedded (r.meaning answer n) p = .ok cs := by
  rw [Engine.fill] at h
  obtain ⟨v, hv, h⟩ := Below.exists_of_bind h
  obtain ⟨s, hs, h⟩ := Below.exists_of_bind h
  cases h
  exact embedded_of_ok (r.meaning_of_evaluate hstrict hle hp hv) (Below.exists_of_ofExcept hs)

/-- A pass replaces every innermost placeholder by the text form of what it means. -/
theorem exists_texts_of_mapM (hstrict : r.strict = true) {left n : Nat} (hle : left ≤ n)
    {pieces : List Piece} (hp : ∀ p, .hole p ∈ pieces → p.WellFormed) {parts : List (List Char)}
    (h : (pieces.mapM ((r.direct answer).fill ((r.direct answer).substitute left) left)) ∅ =
      .ok parts) :
    ∃ texts, (∀ p, .hole p ∈ pieces → embedded (r.meaning answer n) p = .ok (texts p)) ∧
      parts.flatten = pieces.flatMap (Piece.filled texts) := by
  refine ⟨fun p => (embedded (r.meaning answer n) p).toOption.getD [], ?_⟩
  have hparts := Below.forall₂_of_mapM h
  clear h
  induction hparts with
  | nil => exact ⟨fun p hmem => (List.not_mem_nil hmem).elim, rfl⟩
  | @cons piece part pieces parts hpiece _ ih =>
    obtain ⟨htexts, hflat⟩ := ih fun p hmem => hp p (List.mem_cons_of_mem _ hmem)
    cases piece with
    | char c =>
      cases hpiece
      refine ⟨fun p hmem => ?_, ?_⟩
      · rcases List.mem_cons.1 hmem with heq | hmem
        · cases heq
        · exact htexts p hmem
      · rw [List.flatten_cons, List.flatMap_cons, hflat]
        rfl
    | hole q =>
      have hq := r.embedded_of_fill hstrict hle (hp q List.mem_cons_self) hpiece
      have htext : (embedded (r.meaning answer n) q).toOption.getD [] = part := by
        rw [hq]
        rfl
      refine ⟨fun p hmem => ?_, ?_⟩
      · rcases List.mem_cons.1 hmem with heq | hmem
        · cases heq
          show embedded _ q = .ok ((embedded (r.meaning answer n) q).toOption.getD [])
          rw [htext, hq]
        · exact htexts p hmem
      · rw [List.flatten_cons, List.flatMap_cons, hflat, Piece.filled, htext]

/-! ## The last pass -/

/-- A text that an at placeholder gives is the answer of a function. -/
theorem exists_answer_of_evaluate {sub : String → Below φ Value} {left : Nat} {p : Placeholder}
    (hp : p.sigil = .call) {above : Finset Address} {s : String}
    (h : (r.direct answer).evaluate sub left p above = .ok (.str s)) :
    ∃ f args, answer f args = .ok (.str s) := by
  rw [Engine.evaluate, hp] at h
  rcases (r.direct answer).call_cases sub p.spaceName p.tokens with ⟨f, -, hcall⟩ | ⟨-, hcall⟩
  · change (r.direct answer).call sub p.spaceName p.tokens above = _ at h
    rw [hcall] at h
    obtain ⟨args, -, h⟩ := Below.exists_of_bind h
    exact ⟨f, args, Below.exists_of_ofExcept h⟩
  · change (r.direct answer).call sub p.spaceName p.tokens above = _ at h
    rw [hcall] at h
    cases h

/-- A text that is exactly one placeholder, which holds no other one, takes what it means: a text
that a function answers is plain and stays as it is. -/
theorem meaning_of_substitute_exact (hstrict : r.strict = true)
    (hplain : ∀ f args s, answer f args = .ok (.str s) → ∀ c ∈ s.toList, isPlainChar c = true)
    {left n : Nat} (hle : left ≤ n) {s : String} {p : Placeholder}
    (hscan : scan s.toList = [.hole p]) {v : Value}
    (h : (r.direct answer).substitute (left + 1) s ∅ = .ok v) :
    r.meaning answer n p = .ok v := by
  have hp : p.WellFormed := wellFormed_of_mem_scan (hscan ▸ List.mem_singleton_self _)
  rw [Engine.substitute_exact _ hscan] at h
  obtain ⟨u, hu, h⟩ := Below.exists_of_bind h
  have hmeaning := r.meaning_of_evaluate hstrict hle hp hu
  cases hsigil : p.sigil with
  | lookup =>
    rw [hsigil] at h
    cases h
    exact hmeaning
  | call =>
    rw [hsigil] at h
    by_cases htext : ∃ t, u = .str t
    · obtain ⟨t, rfl⟩ := htext
      obtain ⟨f, args, hanswer⟩ := r.exists_answer_of_evaluate hsigil hu
      have hbrace : '{' ∉ t.toList := fun hc => by
        have hopen := hplain f args t hanswer _ hc
        simp [isPlainChar] at hopen
      have hsub := (r.direct answer).substitute_of_not_hasPlaceholder
        (not_hasPlaceholder_of_brace hbrace) left
      change (r.direct answer).substitute left t ∅ = _ at h
      rw [hsub] at h
      cases h
      exact hmeaning
    · rw [Engine.again_of_ne_str _ fun t ht => htext ⟨t, ht⟩] at h
      cases h
      exact hmeaning

/-! ## All passes -/

theorem value_of_substitute_literal {n left : Nat} {ps : List Fragment} (hps : WellFormedAll ps)
    (hnone : ps.any isHole = false) {v : Value}
    (h : (r.direct answer).substitute left (written ps) ∅ = .ok v) :
    value (r.meaning answer n) ps = .ok v := by
  rw [value_of_not_isHole hnone, ← h,
    Engine.substitute_of_not_hasPlaceholder _ ((hasPlaceholder_written hps).trans hnone)]
  rfl

/-- A strict substitution without a cache gives the value of the fragments that the text is written
from. -/
theorem value_of_substitute (hstrict : r.strict = true)
    (hplain : ∀ f args s, answer f args = .ok (.str s) → ∀ c ∈ s.toList, isPlainChar c = true)
    {n left : Nat} (hle : left ≤ n + 1) {ps : List Fragment} (hps : WellFormedAll ps)
    (hembeds : EmbedsAll (r.meaning answer n) ps) {v : Value}
    (h : (r.direct answer).substitute left (written ps) ∅ = .ok v) :
    value (r.meaning answer n) ps = .ok v := by
  -- by induction on the passes: each one takes the innermost placeholders off the fragments
  induction left generalizing ps with
  | zero =>
    by_cases hany : ps.any isHole = true
    · rw [Engine.substitute_zero _ ((hasPlaceholder_written hps).trans hany),
        r.direct_exhausted hstrict] at h
      cases h
    · rw [Bool.not_eq_true] at hany
      exact r.value_of_substitute_literal hps hany h
  | succ left ih =>
    by_cases hany : ps.any isHole = true
    · have hscan := scan_written hps
      by_cases hexact : ∃ p, piecesAll ps = [.hole p]
      · obtain ⟨p, hp⟩ := hexact
        obtain ⟨body, rfl, hbody, hchars⟩ := eq_of_piecesAll_eq_singleton hps hp
        rw [value_innermost p.sigil p.space hbody, ← hchars]
        exact r.meaning_of_substitute_exact hstrict hplain (Nat.le_of_succ_le_succ hle)
          (hscan.trans hp) h
      · have hne : ∀ p, piecesAll ps ≠ [.hole p] := fun p hp => hexact ⟨p, hp⟩
        rw [Engine.substitute_mixed _ ((hasPlaceholder_written hps).trans hany)
          (by rw [hscan]; exact hne), hscan] at h
        obtain ⟨parts, hparts, h⟩ := Below.exists_of_bind h
        have hwf : ∀ p, .hole p ∈ piecesAll ps → p.WellFormed := fun p hp =>
          wellFormed_of_mem_scan (scan_charsAll hps ▸ hp)
        obtain ⟨texts, htexts, hflat⟩ :=
          r.exists_texts_of_mapM hstrict (Nat.le_of_succ_le_succ hle) hwf hparts
        rw [hflat, ← charsAll_fillAll] at h
        rw [← value_fillAll hne htexts]
        refine ih (Nat.le_of_succ_le hle) (WellFormedAll.fillAll ps hps fun q hq => ?_)
          (hembeds.fillAll hne htexts) h
        exact hembeds.plain hne hq (htexts q hq)
    · rw [Bool.not_eq_true] at hany
      exact r.value_of_substitute_literal hps hany h

/-- A strict substitution of a text with nested placeholders gives the value that the recursion over
its fragments gives, if every text that goes into another one is plain and functions answer with
plain texts.  A placeholder means the same with any number of passes that is not smaller. -/
theorem value_of_substituteAt (hstrict : r.strict = true) (h : r.host.Computes answer)
    (hplain : ∀ f args s, answer f args = .ok (.str s) → ∀ c ∈ s.toList, isPlainChar c = true)
    {ps : List Fragment} (hps : WellFormedAll ps) {depth : Int} {n : Nat}
    (hn : r.passesLeft (depth + 1) ≤ n) (hembeds : EmbedsAll (r.meaning answer n) ps)
    {s t : Scratch σ} (hs : s.Clear) {v : Shared}
    (hrun : (r.substituteAt depth (.str (written ps))).run s = (.ok v, t)) :
    value (r.meaning answer n) ps = .ok v.erase := by
  have hle : r.passesLeft depth ≤ n + 1 := by
    unfold passesLeft at hn ⊢
    omega
  refine r.value_of_substitute hstrict hplain hle hps hembeds ?_
  obtain ⟨hend, -, -⟩ := (r.direct_simulates h).substitute (r.passesLeft depth)
    (written ps) s ⟨hs.sound _, trivial⟩
  have hout := map_erase_of_sameEnd hend
  rw [hs.active] at hout
  change ((r.substituteAt depth (.str (written ps))).run s).1.map Tree.erase = _ at hout
  rw [hrun] at hout
  exact hout.symm

/-- A definition whose hosts are listed by environment. -/
def hosts : Value :=
  .map () [(.str "env", .str "prod"), (.str "hosts", .map () [(.str "prod", .list () [.str "db"])])]

/-- What a function answers that counts its arguments. -/
def count (_ : FnHandle) (args : List Value) : Except Unit Value :=
  .ok (.atom (.int args.length))

/-- A strict resolver of the hosts. -/
def hostsResolver : Resolver Nat Unit where
  registry := ⟨hosts, [(.str "count", .atom (.fn ⟨0, "count"⟩))]⟩
  host := .ofAnswer count
  maxDepth := 10
  strict := true

/-- An address: the first host of the environment, and a number that a function gives. -/
def address : List Fragment :=
  [.hole .lookup "self".toList
      [.literal "hosts.".toList, .hole .lookup "self".toList [.literal "env".toList],
        .literal ".0".toList],
    .literal ":".toList,
    .hole .call "count".toList [.literal "env, x".toList]]

/-- The address is what its fragments mean. -/
theorem value_of_substituteAt_address :
    ∃ v t, (hostsResolver.substituteAt 0 (.str (written address))).run (Scratch.start 0) =
        (.ok v, t) ∧
      value (hostsResolver.meaning count 9) address = .ok v.erase := by
  have htext : ∀ (ds : List Char) {x : Except (ResolveError Unit) (List Char)},
      x.toOption = some ds → Plain ds → ∀ cs, x = .ok cs → Plain cs := by
    rintro ds _ hx hds cs rfl
    cases hx
    exact hds
  have henv : EmbedsFragment (hostsResolver.meaning count 9)
      (.hole .lookup "self".toList [.literal "env".toList]) :=
    ⟨⟨trivial, trivial⟩, htext "prod".toList (by decide +kernel) (by decide +kernel)⟩
  have hembeds : EmbedsAll (hostsResolver.meaning count 9) address :=
    ⟨⟨⟨trivial, henv, trivial, trivial⟩,
        htext "db".toList (by decide +kernel) (by decide +kernel)⟩,
      trivial,
      ⟨⟨trivial, trivial⟩, htext "2".toList (by decide +kernel) (by decide +kernel)⟩, trivial⟩
  have hok : ((hostsResolver.substituteAt 0 (.str (written address))).run
      (Scratch.start 0)).1.isOk = true := by
    decide +kernel
  have hplain : ∀ f args s, count f args = .ok (.str s) → ∀ c ∈ s.toList, isPlainChar c = true :=
    fun f args s hs => by cases hs
  have hliteral : ∀ cs, Plain cs → (Fragment.literal cs).WellFormed := fun _ hcs => hcs
  have hspace : ∀ cs : List Char, cs.all isSpaceChar = true → ∀ c ∈ cs, isSpaceChar c = true :=
    fun _ => List.all_eq_true.1
  have hps : WellFormedAll address :=
    ⟨⟨hspace _ (by decide +kernel), hliteral _ (by decide +kernel),
        ⟨hspace _ (by decide +kernel), hliteral _ (by decide +kernel), trivial⟩,
        hliteral _ (by decide +kernel), trivial⟩,
      hliteral _ (by decide +kernel),
      ⟨hspace _ (by decide +kernel), hliteral _ (by decide +kernel), trivial⟩, trivial⟩
  obtain ⟨v, t, h⟩ := Run.exists_of_isOk hok
  exact ⟨v, t, h, hostsResolver.value_of_substituteAt rfl (Host.computes_ofAnswer count) hplain hps
    (by decide +kernel) hembeds ⟨rfl, rfl⟩ h⟩

end Resolver

end LayeredConfig
