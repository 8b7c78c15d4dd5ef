import LayeredConfig.Proofs.Resolve.Chains
import LayeredConfig.Proofs.Template.Pasting

/-!
# Defaults that are references

The value of a reference that is written as a default is pasted into the text before
the defaults are read.  So it stands for the reference only if it is a text that comes
back from there: commas cut it, braces end the placeholder or keep it open, and blanks
at its ends are lost.

* `Engine.substitute_filled` — a pass in which every placeholder has a known text.
* `Engine.substitute_defaulted` — a pass that pastes the value of the default.
* `Resolver.resolveAt_default` — which texts come back.
-/

namespace LayeredConfig

open Template

/-! ## Scanning what is pasted -/

namespace Template

theorem isBodyChar_of_ne {c : Char} (hopen : c ≠ '{') (hclose : c ≠ '}') :
    isBodyChar c = true := by
  simp [isBodyChar, hopen, hclose]

/-- A character starts no placeholder if no opening brace comes next. -/
theorem placeholderAt?_eq_none_of_head {c : Char} {cs : List Char} (h : cs.head? ≠ some '{') :
    placeholderAt? (c :: cs) = none := by
  unfold placeholderAt?
  split
  · rename_i heq
    obtain ⟨-, rfl⟩ := List.cons.inj heq
    exact absurd rfl h
  · rfl

/-- A scan passes over a part of a text without opening braces. -/
theorem scanFrom_append_of_brace {cs : List Char} (h : '{' ∉ cs) (rest : List Char)
    (hrest : rest.head? ≠ some '{') :
    scanFrom 0 (cs ++ rest) = cs.map .char ++ scanFrom 0 rest := by
  induction cs with
  | nil => rfl
  | cons c cs ih =>
    rw [List.mem_cons, not_or] at h
    have hhead : (cs ++ rest).head? ≠ some '{' := by
      cases cs with
      | nil => exact hrest
      | cons d ds => exact fun heq => h.2 (by cases heq; exact List.mem_cons_self)
    rw [List.cons_append, scanFrom, placeholderAt?_eq_none_of_head hhead, ih h.2]
    rfl

end Template

/-! ## References with a default -/

/-- A reference to a path with a default. -/
def defaultedReference (path : String) (cs : List Char) : Placeholder :=
  ⟨.lookup, Registry.reservedName.toList, path.toList ++ ',' :: ' ' :: cs⟩

/-- Such a reference as it is written. -/
def defaulted (path text : String) : String :=
  reference (path ++ ", " ++ text)

theorem toList_defaulted (path text : String) :
    (defaulted path text).toList = (defaultedReference path text.toList).chars := by
  rw [defaulted, toList_reference, selfReference, defaultedReference]
  simp

theorem brace_mem_defaulted (path text : String) : '{' ∈ (defaulted path text).toList := by
  rw [toList_defaulted]
  simp [Placeholder.chars]

theorem tokens_defaultedReference {path : String} (h : Path.Plain path) (cs : List Char) :
    (defaultedReference path cs).tokens = path :: tokensOf cs := by
  have hcomma : ',' ∉ path.toList := fun hmem => (h.1 ',' hmem).2 rfl
  obtain ⟨part, parts, hparts⟩ := List.exists_cons_of_ne_nil (List.splitOn_ne_nil ',' cs)
  rw [Placeholder.tokens, defaultedReference,
    List.splitOn_append_cons_self_of_not_mem hcomma, List.splitOn_cons_eq_if_modifyHead,
    if_neg (by decide), tokensOf, hparts, List.modifyHead_cons, List.map_cons, List.map_cons,
    List.map_cons, h.2, String.ofList_toList, Text.trim_cons (by decide)]

theorem wellFormed_defaultedReference {path : String} (h : Path.Plain path) {cs : List Char}
    (hcs : ∀ c ∈ cs, isBodyChar c = true) : (defaultedReference path cs).WellFormed := by
  refine ⟨(wellFormed_selfReference h).space, fun c hc => ?_⟩
  simp only [defaultedReference, List.mem_append, List.mem_cons] at hc
  rcases hc with hc | rfl | rfl | hc
  · exact (h.1 c hc).1
  · rfl
  · rfl
  · exact hcs c hc

/-- All that stands before the default of such a reference. -/
def defaultedFront (path : String) : List Char :=
  Registry.reservedName.toList ++ ':' :: (path.toList ++ [',', ' '])

theorem chars_defaultedReference (path : String) (cs : List Char) :
    (defaultedReference path cs).chars = '$' :: '{' :: (defaultedFront path ++ (cs ++ ['}'])) := by
  simp [Placeholder.chars, defaultedReference, defaultedFront, Sigil.char]

theorem brace_notMem_defaultedFront {path : String} (h : Path.Plain path) :
    '{' ∉ defaultedFront path := by
  have hspace : '{' ∉ Registry.reservedName.toList := by decide
  have hpath : '{' ∉ path.toList := fun hmem => absurd (h.1 _ hmem).1 (by decide)
  simp [defaultedFront, hspace, hpath]

/-- In a reference whose default is another reference, that one is found. -/
theorem scan_defaulted_reference {path source : String} (hpath : Path.Plain path)
    (hsource : Path.Plain source) :
    scan (defaulted path (reference source)).toList =
      ('$' :: '{' :: defaultedFront path).map .char ++
        [.hole (selfReference source), .char '}'] := by
  have hinner : (selfReference source).chars =
      '$' :: '{' :: (Registry.reservedName.toList ++ ':' :: (source.toList ++ ['}'])) := rfl
  have hbody : ∀ c ∈ path.toList ++ [',', ' ', '$'], isBodyChar c = true := by
    intro c hc
    rcases List.mem_append.1 hc with hc | hc
    · exact (hpath.1 c hc).1
    · exact List.all_eq_true.1 (by decide : [',', ' ', '$'].all isBodyChar = true) c hc
  -- the brace of the default keeps the outer placeholder from being one
  have hnone : placeholderAt? ('$' :: '{' ::
      (defaultedFront path ++ ((selfReference source).chars ++ ['}']))) = none := by
    have houter : placeholderAt? (Sigil.lookup.char :: '{' :: (Registry.reservedName.toList ++
        ':' :: (path.toList ++ [',', ' ', '$'] ++ '{' ::
          (Registry.reservedName.toList ++ ':' :: (source.toList ++ ['}']) ++ ['}'])))) = _ :=
      placeholderAt?_sigil_append .lookup (wellFormed_selfReference hpath).space
    rw [bodyAt?_eq_none_of_brace hbody] at houter
    rw [hinner, defaultedFront]
    simpa [Sigil.char, selfReference] using houter
  rw [toList_defaulted, toList_reference, chars_defaultedReference, scan, scanFrom, hnone]
  simp only [scanFrom]
  rw [placeholderAt?_eq_none_of_char rfl]
  simp only
  rw [scanFrom_append_of_brace (brace_notMem_defaultedFront hpath) _ (by rw [hinner]; simp),
    scanFrom_chars_append (wellFormed_selfReference hsource)]
  rfl

/-- A default without braces leaves one placeholder. -/
theorem scan_defaulted {path text : String} (hpath : Path.Plain path)
    (htext : ∀ c ∈ text.toList, isBodyChar c = true) :
    scan (defaulted path text).toList = [.hole (defaultedReference path text.toList)] := by
  rw [toList_defaulted, scan_chars (wellFormed_defaultedReference hpath htext)]

/-- A default with a closing brace ends the placeholder there. -/
theorem scan_defaulted_closed {path : String} (hpath : Path.Plain path) {front back : List Char}
    (hfront : ∀ c ∈ front, isBodyChar c = true) (hback : '{' ∉ back) :
    scan (defaulted path (String.ofList (front ++ '}' :: back))).toList =
      .hole (defaultedReference path front) :: (back ++ ['}']).map .char := by
  have hchars : (defaultedReference path (front ++ '}' :: back)).chars =
      (defaultedReference path front).chars ++ (back ++ ['}']) := by
    simp [chars_defaultedReference]
  have hnone : '{' ∉ back ++ ['}'] := by simp [hback]
  have hrest := scanFrom_append_of_brace hnone [] (by simp)
  rw [List.append_nil] at hrest
  rw [toList_defaulted, String.toList_ofList, hchars, scan,
    scanFrom_chars_append (wellFormed_defaultedReference hpath hfront), hrest, scanFrom,
    List.append_nil]

namespace Engine

variable {m : Type → Type} {α φ : Type} [Monad m] [LawfulMonad m] [Inhabited α]
variable [MonadExcept (ResolveError φ) m] (e : Engine m α)

/-- A placeholder whose value is known becomes its text. -/
theorem fill_hole {sub : String → m (Tree α)} {left : Nat} {p : Placeholder} {v : Tree α}
    (h : e.evaluate sub left p = pure v) {t : String} (ht : text v = .ok t) :
    e.fill sub left (.hole p) = pure t.toList := by
  rw [fill, h, pure_bind, ht]
  exact pure_bind _ _

theorem mapM_fill {sub : String → m (Tree α)} {left : Nat} {texts : Placeholder → List Char}
    {pieces : List Piece}
    (h : ∀ p, .hole p ∈ pieces → e.fill sub left (.hole p) = pure (texts p)) :
    pieces.mapM (e.fill sub left) = pure (pieces.map (Piece.filled texts)) := by
  induction pieces with
  | nil => rfl
  | cons piece pieces ih =>
    have hpiece : e.fill sub left piece = pure (piece.filled texts) := by
      cases piece with
      | char c => rfl
      | hole p => exact h p List.mem_cons_self
    rw [List.mapM_cons, hpiece, pure_bind, ih fun p hp => h p (List.mem_cons_of_mem _ hp),
      pure_bind, List.map_cons]

/-- In a pass in which every placeholder has a known text, the texts are filled in. -/
theorem substitute_filled {s : String} (hs : hasPlaceholder s.toList = true)
    (hne : ∀ p, scan s.toList ≠ [.hole p]) {left : Nat} (texts : Placeholder → List Char)
    (h : ∀ p, .hole p ∈ scan s.toList →
      e.fill (e.substitute left) left (.hole p) = pure (texts p)) :
    e.substitute (left + 1) s =
      e.substitute left (String.ofList ((scan s.toList).flatMap (Piece.filled texts))) := by
  rw [e.substitute_mixed hs hne, e.mapM_fill h, pure_bind, List.flatMap_def]

/-- The value of the default is pasted in. -/
theorem substitute_defaulted {path source s : String} (hpath : Path.Plain path)
    (hsource : Path.Plain source) (hget : e.registry.definition.get source = .ok (.str s))
    (hs : hasPlaceholder s.toList = false) (left : Nat) :
    e.substitute (left + 1) (defaulted path (reference source)) =
      e.substitute left (defaulted path s) := by
  have hscan := scan_defaulted_reference hpath hsource
  have hany : hasPlaceholder (defaulted path (reference source)).toList = true := by
    rw [hasPlaceholder, hscan]
    simp [Piece.isHole]
  have hne : ∀ p, scan (defaulted path (reference source)).toList ≠ [.hole p] := by
    intro p hp
    rw [hscan] at hp
    cases hp
  have hfound : e.evaluate (e.substitute left) left (selfReference source) = pure (.str s) := by
    rw [e.evaluate_selfReference _ _ hsource]
    refine e.lookup_of_atom _ _ hget (by simp) fun t ht => ?_
    cases ht
    exact hs
  rw [e.substitute_filled hany hne fun _ => s.toList, hscan]
  · rw [List.flatMap_append, flatMap_filled_char]
    congr 1
    rw [← String.toList_inj, String.toList_ofList, toList_defaulted, chars_defaultedReference]
    simp [Piece.filled]
  · intro p hp
    have hp : p = selfReference source := by
      rw [hscan] at hp
      simpa using hp
    rw [hp]
    exact e.fill_hole hfound rfl

/-- Where a path leads nowhere, the defaults count that stand behind it. -/
theorem evaluate_defaultedReference {path : String} (hpath : Path.Plain path)
    (hget : e.registry.definition.get path = .ok Tree.missing) (sub : String → m (Tree α))
    (left : Nat) (cs : List Char) :
    e.evaluate sub left (defaultedReference path cs) = pure (firstDefault (tokensOf cs)) := by
  change e.lookup sub left (selfReference path).spaceName
    ((defaultedReference path cs).tokens.headD "") (defaultedReference path cs).tokens.tail = _
  rw [spaceName_selfReference, tokens_defaultedReference hpath]
  exact e.lookup_of_missing sub left (tokensOf cs) hget

/-- A pasted text without braces is read as a row of defaults. -/
theorem substitute_pasted {path s : String} (hpath : Path.Plain path)
    (hget : e.registry.definition.get path = .ok Tree.missing)
    (hs : ∀ c ∈ s.toList, isBodyChar c = true) (left : Nat) :
    e.substitute (left + 1) (defaulted path s) = pure (firstDefault (tokensOf s.toList)) := by
  rw [e.substitute_exact (scan_defaulted hpath hs), e.evaluate_defaultedReference hpath hget,
    pure_bind]
  rfl

/-- Of a pasted text with a closing brace, only what stands in front of the brace is read as
defaults. -/
theorem substitute_pasted_closed {path : String} (hpath : Path.Plain path)
    (hget : e.registry.definition.get path = .ok Tree.missing) {front back : List Char}
    (hfront : ∀ c ∈ front, isBodyChar c = true) (hback : '{' ∉ back) (left : Nat) :
    e.substitute (left + 1) (defaulted path (String.ofList (front ++ '}' :: back))) =
      pure (.str (String.ofList ((defaultText (tokensOf front)).toList ++ (back ++ ['}'])))) := by
  have hscan := scan_defaulted_closed hpath hfront hback
  have hany : hasPlaceholder
      (defaulted path (String.ofList (front ++ '}' :: back))).toList = true := by
    rw [hasPlaceholder, hscan]
    simp [Piece.isHole]
  have hne : ∀ p, scan (defaulted path (String.ofList (front ++ '}' :: back))).toList ≠
      [.hole p] := by
    intro p hp
    rw [hscan] at hp
    simp at hp
  have hnone : hasPlaceholder ((defaultText (tokensOf front)).toList ++ (back ++ ['}'])) =
      false := by
    have hopen : '{' ∉ front := fun hmem => absurd (hfront _ hmem) (by decide)
    exact not_hasPlaceholder_of_brace (by simp [brace_notMem_defaultText hopen, hback])
  rw [e.substitute_filled hany hne fun _ => (defaultText (tokensOf front)).toList, hscan,
    List.flatMap_cons, flatMap_filled_char]
  · exact e.substitute_of_not_hasPlaceholder (by rwa [String.toList_ofList]) left
  · intro p hp
    have hp : p = defaultedReference path front := by
      rw [hscan] at hp
      simpa using hp
    rw [hp]
    exact e.fill_hole (e.evaluate_defaultedReference hpath hget _ _ _) (text_firstDefault _)

end Engine

/-! ## Texts that come back -/

namespace Resolver

variable {σ φ : Type} (r : Resolver σ φ)

theorem run_pure_eq_iff {v w : Shared} {st : Scratch σ} :
    (pure v : Run σ φ Shared).run st = (pure w : Run σ φ Shared).run st ↔ v = w :=
  ⟨fun h => Except.ok.inj (Prod.mk.inj h).1, fun h => h ▸ rfl⟩

section

variable {path source s : String} (hdepth : 2 ≤ r.maxDepth) (hpath : Path.Plain path)
variable (hsource : Path.Plain source)
variable (hmissing : r.registry.definition.get path = .ok Tree.missing)
variable (hget : r.registry.definition.get source = .ok (.str s))

theorem resolveAt_text (hdepth : 2 ≤ r.maxDepth) :
    ∃ left, ∀ t, r.resolveAt 0 (.str t) =
      (do return coerce (.str t : Value) (← r.engine.substitute (left + 2) t)) := by
  obtain ⟨left, hleft⟩ : ∃ left, r.passesLeft 0 = left + 2 :=
    Nat.exists_eq_add_of_le' (by unfold passesLeft; omega)
  refine ⟨left, fun t => ?_⟩
  rw [← hleft]
  rfl

include hdepth hsource hget

/-- A reference to a text gives the value of the text. -/
theorem resolveAt_source (hs : hasPlaceholder s.toList = false) :
    r.resolveAt 0 (.str (reference source)) = pure (literal s) := by
  obtain ⟨left, hresolve⟩ := r.resolveAt_text hdepth
  have hne : s ≠ reference source := by
    rintro rfl
    rw [hasPlaceholder_reference hsource] at hs
    cases hs
  rw [hresolve, r.engine.substitute_reference _ hsource,
    r.engine.lookup_of_atom _ _ hget (by simp) (fun t ht => by cases ht; exact hs), pure_bind,
    coerce, if_neg hne]

include hpath

/-- Where the text is no placeholder when it is pasted, it is left as it is pasted. -/
theorem resolveAt_defaulted_of_open (hs : hasPlaceholder s.toList = false)
    (hnone : hasPlaceholder (defaulted path s).toList = false) :
    r.resolveAt 0 (.str (defaulted path (reference source))) =
      pure (.str (defaulted path s)) := by
  obtain ⟨left, hresolve⟩ := r.resolveAt_text hdepth
  rw [hresolve, r.engine.substitute_defaulted hpath hsource hget hs,
    r.engine.substitute_of_not_hasPlaceholder hnone, pure_bind, defaulted, defaulted,
    coerce_reference]

include hmissing

/-- A text without braces is read as a row of defaults. -/
theorem resolveAt_defaulted (hbody : ∀ c ∈ s.toList, isBodyChar c = true) :
    r.resolveAt 0 (.str (defaulted path (reference source))) =
      pure (literal (defaultText (tokensOf s.toList))) := by
  obtain ⟨left, hresolve⟩ := r.resolveAt_text hdepth
  have hopen : '{' ∉ s.toList := fun hmem => absurd (hbody _ hmem) (by decide)
  have hgiven : defaulted path (reference source) ∉ tokensOf s.toList := fun hmem =>
    hopen (mem_of_mem_tokensOf hmem (brace_mem_defaulted path _))
  have hplain := not_hasPlaceholder_of_brace hopen
  rw [hresolve, r.engine.substitute_defaulted hpath hsource hget hplain,
    r.engine.substitute_pasted hpath hmissing hbody, pure_bind, coerce_firstDefault hgiven]

omit hget in
/-- A text with a closing brace is read as a row of defaults up to there. -/
theorem resolveAt_defaulted_closed {front back : List Char}
    (hget : r.registry.definition.get source = .ok (.str (String.ofList (front ++ '}' :: back))))
    (hfront : ∀ c ∈ front, isBodyChar c = true) (hback : '{' ∉ back) :
    r.resolveAt 0 (.str (defaulted path (reference source))) =
      pure (literal (String.ofList
        ((defaultText (tokensOf front)).toList ++ (back ++ ['}'])))) := by
  obtain ⟨left, hresolve⟩ := r.resolveAt_text hdepth
  have hopen : '{' ∉ front := fun hmem => absurd (hfront _ hmem) (by decide)
  have hs : hasPlaceholder (String.ofList (front ++ '}' :: back)).toList = false :=
    not_hasPlaceholder_of_brace (by simp [hopen, hback])
  have hne : String.ofList ((defaultText (tokensOf front)).toList ++ (back ++ ['}'])) ≠
      defaulted path (reference source) := by
    intro h
    have hmem := brace_mem_defaulted path (reference source)
    rw [← h, String.toList_ofList] at hmem
    simp [brace_notMem_defaultText hopen, hback] at hmem
  rw [hresolve, r.engine.substitute_defaulted hpath hsource hget hs,
    r.engine.substitute_pasted_closed hpath hmissing hfront hback, pure_bind, coerce, if_neg hne]

end

/-- A reference that leads nowhere and has another reference for its default gives what that one
gives if and only if the text found there comes back when it is pasted.  A text with an opening
brace does not, unless the braces around it make it a placeholder. -/
theorem resolveAt_default (hdepth : 2 ≤ r.maxDepth) {path source s : String}
    (hpath : Path.Plain path) (hsource : Path.Plain source)
    (hmissing : r.registry.definition.get path = .ok Tree.missing)
    (hget : r.registry.definition.get source = .ok (.str s))
    (hs : hasPlaceholder s.toList = false) (st : Scratch σ) :
    ('{' ∉ s.toList →
      ((r.resolveAt 0 (.str (defaulted path (reference source)))).run st =
          (r.resolveAt 0 (.str (reference source))).run st ↔ Pasteable s.toList)) ∧
    ('{' ∈ s.toList → hasPlaceholder (defaulted path s).toList = false →
      (r.resolveAt 0 (.str (defaulted path (reference source)))).run st ≠
        (r.resolveAt 0 (.str (reference source))).run st) := by
  rw [r.resolveAt_source hdepth hsource hget hs]
  constructor
  · intro hopen
    by_cases hclosed : '}' ∈ s.toList
    · obtain ⟨front, back, hsplit, hfront⟩ := List.eq_append_cons_of_mem hclosed
      obtain rfl : s = String.ofList (front ++ '}' :: back) := by
        rw [← hsplit, String.ofList_toList]
      rw [String.toList_ofList] at hopen ⊢
      rw [List.mem_append, List.mem_cons, not_or, not_or] at hopen
      have hbody : ∀ c ∈ front, isBodyChar c = true := fun c hc =>
        isBodyChar_of_ne (fun h => hopen.1 (h ▸ hc)) (fun h => hfront (h ▸ hc))
      rw [r.resolveAt_defaulted_closed hdepth hpath hsource hmissing hget hbody hopen.2.2,
        run_pure_eq_iff, literal_closed_iff hbody]
    · have hbody : ∀ c ∈ s.toList, isBodyChar c = true := fun c hc =>
        isBodyChar_of_ne (fun h => hopen (h ▸ hc)) (fun h => hclosed (h ▸ hc))
      rw [r.resolveAt_defaulted hdepth hpath hsource hmissing hget hbody, run_pure_eq_iff,
        literal_defaultText_iff hbody]
  · intro _ hnone heq
    rw [r.resolveAt_defaulted_of_open hdepth hpath hsource hget hs hnone] at heq
    -- what is pasted is longer than the text
    refine literal_ne_of_length_lt ?_ (run_pure_eq_iff.1 heq).symm
    rw [toList_defaulted, chars_defaultedReference]
    simp
    omega

/-- A definition with texts for defaults: one with closing braces at its end, one in quotes with a
line break behind, a row, and an opening brace. -/
def sources : Value :=
  .map () [(.str "closed", .str "a b\x7d\x7d"), (.str "line", .str "'x'\n"),
    (.str "row", .str "a, b"), (.str "brace", .str "\x7b")]

/-- A resolver of that definition. -/
def sourcesResolver : Resolver Nat Unit where
  registry := .ofDefinition sources
  host := .ofAnswer refuse
  maxDepth := 2
  strict := true

/-- Closing braces come back and a line break behind a text in quotes does not count, but an opening
brace makes a difference. -/
theorem resolveAt_default_sources :
    (sourcesResolver.resolveAt 0 (.str (defaulted "none" (reference "closed")))).run (.start 0) =
        (sourcesResolver.resolveAt 0 (.str (reference "closed"))).run (.start 0) ∧
      (sourcesResolver.resolveAt 0 (.str (defaulted "none" (reference "line")))).run (.start 0) =
        (sourcesResolver.resolveAt 0 (.str (reference "line"))).run (.start 0) ∧
      (sourcesResolver.resolveAt 0 (.str (defaulted "none" (reference "brace")))).run (.start 0) ≠
        (sourcesResolver.resolveAt 0 (.str (reference "brace"))).run (.start 0) := by
  have hplain : ∀ path ∈ ["none", "closed", "line", "brace"], Path.Plain path := by
    decide +kernel
  have hchars : ∀ core : List Char, (core.all fun c => isBodyChar c && c != ',') = true →
      ∀ c ∈ core, isBodyChar c = true ∧ c ≠ ',' := by
    intro core h c hc
    simpa using List.all_eq_true.1 h c hc
  have hdefault := fun (source s : String) (hsource : source ∈ ["none", "closed", "line", "brace"])
      (hget : sources.get source = .ok (.str s)) (hs : hasPlaceholder s.toList = false) =>
    sourcesResolver.resolveAt_default (Int.le_refl 2) (hplain "none" (by simp))
      (hplain source hsource) (by rfl) hget hs (.start 0)
  have hclosed := hdefault "closed" "a b\x7d\x7d" (by simp) (by rfl) (by decide +kernel)
  have hline := hdefault "line" "'x'\n" (by simp) (by rfl) (by decide +kernel)
  have hbrace := hdefault "brace" "\x7b" (by simp) (by rfl) (by decide +kernel)
  refine ⟨(hclosed.1 (by decide)).2 ?_, (hline.1 (by decide)).2 ?_,
    hbrace.2 (by decide) (by decide +kernel)⟩
  · exact ⟨"a b".toList, 2, by decide, by decide, hchars _ (by decide), .inl (by decide +kernel)⟩
  · exact ⟨"'x'\n".toList, 0, by decide, by decide, hchars _ (by decide),
      .inr ⟨rfl, by decide +kernel⟩⟩

/-- A row is cut at its comma, and a brace keeps the placeholder open. -/
theorem default_not_as_referred :
    let value (text : String) :=
      ((sourcesResolver.resolveAt 0 (.str text)).run (Scratch.start 0)).1.toOption
    let same (s : String) (v : Shared) := Tree.same v.erase (.str s : Value)
    sources.get "none" = .ok Tree.missing ∧ sources.get "row" = .ok (.str "a, b") ∧
      sources.get "brace" = .ok (.str "\x7b") ∧
      (value "$\x7bself:none, $\x7bself:row\x7d\x7d").any (same "a") = true ∧
      (value "$\x7bself:row\x7d").any (same "a, b") = true ∧
      (value "$\x7bself:none, $\x7bself:brace\x7d\x7d").any
        (same "$\x7bself:none, \x7b\x7d") = true ∧
      (value "$\x7bself:brace\x7d").any (same "\x7b") = true := by
  refine ⟨rfl, rfl, rfl, ?_⟩
  decide +kernel

end Resolver

end LayeredConfig
