import LayeredConfig.Proofs.Template.Grammar
import LayeredConfig.Template.Pattern

/-!
# The scanner finds what the grammar says

The placeholders of a text can be told by a search for their pattern, by the scanner
and by the grammar, and all three find the same: every part of the text that is written
like a placeholder, each once and from left to right.  No two such parts overlap, since
a placeholder has braces at its second place and at its end only.

* `ways_placeholderPattern` — a text starts with a placeholder in one way at most.
* `hits_placeholderPattern` — a search for the pattern finds what the scanner finds.
* `mem_spans_iff` — the scanner finds what a placeholder starts with, wherever it stands.
* `spans_eq_occurrences` — the scanner, the pattern and the grammar.
-/

namespace LayeredConfig.Template

/-! ## Runs of characters -/

/-- The characters that a text starts with as long as each passes a test, which may look at those
behind it. -/
def runOf (go : Char → List Char → Bool) : List Char → List Char
  | [] => []
  | c :: cs => if go c cs then c :: runOf go cs else []

/-- What follows such a run. -/
def afterRun (go : Char → List Char → Bool) : List Char → List Char
  | [] => []
  | c :: cs => if go c cs then afterRun go cs else c :: cs

/-- A run whose test looks at one character alone ends where that one fails. -/
theorem runOf_eq_takeWhile (test : Char → Bool) (cs : List Char) :
    runOf (fun c _ => test c) cs = cs.takeWhile test ∧
      afterRun (fun c _ => test c) cs = cs.dropWhile test := by
  induction cs with
  | nil => exact ⟨rfl, rfl⟩
  | cons c cs ih =>
    rw [runOf, afterRun, List.takeWhile_cons, List.dropWhile_cons, ih.1, ih.2]
    exact ⟨rfl, rfl⟩

/-! ## Ways to match a pattern -/

namespace Pattern

/-- The pattern takes one character, if that passes a test which may look at those behind it. -/
structure Takes (p : Pattern) (go : Char → List Char → Bool) : Prop where
  nil : p.ways [] = []
  cons (c : Char) (cs : List Char) : p.ways (c :: cs) = if go c cs then [⟨[c], [], cs⟩] else []

theorem takes_one (test : Char → Bool) : (one test).Takes fun c _ => test c :=
  ⟨rfl, fun _ _ => rfl⟩

/-- After a character comes the rest of the pattern. -/
theorem ways_seq_cons {p : Pattern} {go : Char → List Char → Bool} (hp : p.Takes go) (q : Pattern)
    (c : Char) (cs : List Char) :
    (seq p q).ways (c :: cs) =
      if go c cs then (q.ways cs).map (Way.andThen ⟨[c], [], cs⟩) else [] := by
  rw [ways, hp.cons]
  split
  · exact List.flatMap_singleton ..
  · rfl

theorem ways_seq_group_cons {p : Pattern} {go : Char → List Char → Bool} (hp : p.Takes go)
    (q : Pattern) (c : Char) (cs : List Char) :
    (seq (group p) q).ways (c :: cs) =
      if go c cs then (q.ways cs).map (Way.andThen ⟨[c], [[c]], cs⟩) else [] := by
  have hgroup : (group p).ways (c :: cs) = if go c cs then [⟨[c], [[c]], cs⟩] else [] := by
    rw [ways, hp.cons]
    split <;> rfl
  rw [ways, hgroup]
  split
  · exact List.flatMap_singleton ..
  · rfl

/-- A pattern for one character that is repeated takes the whole run first; every other way ends
before a character that it could have taken. -/
theorem exists_repeated {p : Pattern} {go : Char → List Char → Bool} (hp : p.Takes go) {n : Nat}
    {cs : List Char} (hn : cs.length ≤ n) :
    ∃ less, repeated p.ways n cs = ⟨runOf go cs, [], afterRun go cs⟩ :: less ∧
      ∀ w ∈ less, ∃ c rest, w.rest = c :: rest ∧ go c rest = true := by
  induction cs generalizing n with
  | nil =>
    refine ⟨[], ?_, nofun⟩
    cases n with
    | zero => rfl
    | succ n =>
      rw [repeated, hp.nil]
      rfl
  | cons c cs ih =>
    obtain ⟨n, rfl⟩ := Nat.exists_eq_add_one_of_ne_zero (Nat.ne_of_gt (Nat.lt_of_lt_of_le
      (Nat.succ_pos cs.length) hn))
    rw [repeated, hp.cons, runOf, afterRun]
    by_cases hgo : go c cs = true
    · obtain ⟨less, hless, hstop⟩ := ih (Nat.le_of_succ_le_succ hn)
      rw [if_pos hgo, if_pos hgo, if_pos hgo, List.flatMap_singleton, hless]
      refine ⟨less.map (Way.andThen ⟨[c], [], cs⟩) ++ [.idle (c :: cs)], rfl, fun w hw => ?_⟩
      rcases List.mem_append.1 hw with hw | hw
      · obtain ⟨v, hv, rfl⟩ := List.mem_map.1 hw
        exact hstop v hv
      · rw [List.mem_singleton.1 hw]
        exact ⟨c, cs, rfl, hgo⟩
    · rw [if_neg hgo, if_neg hgo, if_neg hgo]
      exact ⟨[], rfl, nofun⟩

/-- A run is followed by the rest of the pattern if that starts with no character that the run
could take; then there is nothing to give back. -/
theorem ways_seq_group_many {p q : Pattern} {go : Char → List Char → Bool} (hp : p.Takes go)
    (hq : ∀ c cs, go c cs = true → q.ways (c :: cs) = []) (cs : List Char) :
    (seq (group (many p)) q).ways cs =
      (q.ways (afterRun go cs)).map
        (Way.andThen ⟨runOf go cs, [runOf go cs], afterRun go cs⟩) := by
  obtain ⟨less, hless, hstop⟩ := exists_repeated hp (Nat.le_refl cs.length)
  have hnone : (less.map fun w => { w with groups := w.taken :: w.groups }).flatMap
      (fun w => (q.ways w.rest).map w.andThen) = [] := by
    refine List.flatMap_eq_nil_iff.2 fun w hw => ?_
    obtain ⟨v, hv, rfl⟩ := List.mem_map.1 hw
    obtain ⟨c, rest, hrest, hgo⟩ := hstop v hv
    change (q.ways v.rest).map _ = []
    rw [hrest, hq c rest hgo, List.map_nil]
  rw [ways, ways, ways, hless, List.map_cons, List.flatMap_cons, hnone, List.append_nil]

end Pattern

open Pattern

/-! ## The pattern of a placeholder -/

theorem takes_signPattern : signPattern.Takes fun c _ => (Sigil.ofChar? c).isSome :=
  takes_one _

/-- The character may stand in a body, and no placeholder seems to start with it. -/
def isBodyStart (c : Char) (cs : List Char) : Bool :=
  isBodyChar c && !((Sigil.ofChar? c).isSome && cs.head? == some '{')

theorem takes_bodyPattern : bodyPattern.Takes isBodyStart where
  nil := rfl
  cons c cs := by
    have habsent : (absent (seq signPattern (one (· == '{')))).ways (c :: cs) =
        if (Sigil.ofChar? c).isSome && cs.head? == some '{' then [] else [.idle (c :: cs)] := by
      rw [ways, ways_seq_cons takes_signPattern]
      cases hs : (Sigil.ofChar? c).isSome with
      | false => rfl
      | true =>
        cases cs with
        | nil => rfl
        | cons d cs =>
          by_cases hd : d = '{' <;> simp [ways, hd]
    rw [bodyPattern, ways, habsent, isBodyStart]
    cases hb : isBodyChar c <;>
      cases hh : (Sigil.ofChar? c).isSome && cs.head? == some '{' <;>
        simp [ways, hb, Way.andThen, Way.idle]

theorem bodyAt?_cons (c : Char) (cs : List Char) :
    bodyAt? (c :: cs) =
      if isBodyChar c then (bodyAt? cs).map (c :: ·) else if c = '}' then some [] else none := by
  by_cases hbody : isBodyChar c = true
  · rw [bodyAt?, List.dropWhile_cons_of_pos hbody, List.takeWhile_cons_of_pos hbody, if_pos hbody,
      bodyAt?]
    generalize cs.dropWhile isBodyChar = after
    split <;> rfl
  · rw [bodyAt?, List.dropWhile_cons_of_neg hbody, List.takeWhile_cons_of_neg hbody, if_neg hbody]
    by_cases hc : c = '}'
    · rw [hc]
      rfl
    · simp [hc]

/-- What follows a run is the text without the run. -/
theorem afterRun_eq_drop (go : Char → List Char → Bool) (cs : List Char) :
    afterRun go cs = cs.drop (runOf go cs).length := by
  induction cs with
  | nil => rfl
  | cons c cs ih =>
    rw [runOf, afterRun]
    split
    · exact ih
    · rfl

/-- A body is a run up to a closing brace.  It does not matter whether its characters are asked if a
placeholder seems to start with them: then an opening brace would follow, and no closing one. -/
theorem bodyAt?_eq_runOf (cs : List Char) :
    bodyAt? cs =
      if (afterRun isBodyStart cs).head? = some '}' then some (runOf isBodyStart cs) else none := by
  induction cs with
  | nil => rfl
  | cons c cs ih =>
    rw [bodyAt?_cons, runOf, afterRun]
    by_cases hbody : isBodyChar c = true
    · rw [if_pos hbody]
      by_cases hgo : isBodyStart c cs = true
      · rw [if_pos hgo, if_pos hgo, ih]
        split <;> rfl
      · -- an opening brace follows
        have hopen : cs.head? = some '{' := by
          simp only [isBodyStart, hbody] at hgo
          simp at hgo
          exact hgo.2
        have hc : c ≠ '}' := by
          rintro rfl
          simp [isBodyChar] at hbody
        obtain ⟨rest, rfl⟩ := List.head?_eq_some_iff.1 hopen
        rw [if_neg hgo, bodyAt?_cons]
        simp [isBodyChar, hc]
    · have hgo : isBodyStart c cs = false := by simp [isBodyStart, hbody]
      rw [if_neg hbody, hgo]
      simp

theorem ways_body (cs : List Char) :
    (seq (group (many bodyPattern)) (one (· == '}'))).ways cs =
      (bodyAt? cs).toList.map fun body =>
        ⟨body ++ ['}'], [body], cs.drop (body.length + 1)⟩ := by
  have hclose : ∀ c cs, isBodyStart c cs = true → (one (· == '}')).ways (c :: cs) = [] := by
    intro c cs hc
    have hne : c ≠ '}' := by
      rintro rfl
      simp [isBodyStart, isBodyChar] at hc
    simp [ways, hne]
  have hnext : cs.drop ((runOf isBodyStart cs).length + 1) = (afterRun isBodyStart cs).drop 1 := by
    rw [afterRun_eq_drop, List.drop_drop]
  rw [ways_seq_group_many takes_bodyPattern hclose, bodyAt?_eq_runOf]
  generalize afterRun isBodyStart cs = after at hnext ⊢
  cases after with
  | nil => rfl
  | cons c rest =>
    by_cases hc : c = '}' <;> simp [ways, hc, hnext, Way.andThen]

/-- What follows the namespace of a placeholder. -/
def behindSpace : Pattern :=
  seq (one (· == ':')) (seq (group (many bodyPattern)) (one (· == '}')))

/-- What follows the opening brace of a placeholder. -/
def behindBrace : Pattern :=
  seq (group (many (one isSpaceChar))) behindSpace

/-- A namespace goes on as long as it can. -/
theorem ways_behindBrace (cs : List Char) :
    behindBrace.ways cs = (behindSpace.ways (cs.dropWhile isSpaceChar)).map
      (Way.andThen ⟨cs.takeWhile isSpaceChar, [cs.takeWhile isSpaceChar],
        cs.dropWhile isSpaceChar⟩) := by
  have hclose : ∀ c rest, isSpaceChar c = true → behindSpace.ways (c :: rest) = [] := by
    intro c rest hc
    have hne : c ≠ ':' := by
      rintro rfl
      simp [isSpaceChar] at hc
    rw [behindSpace, ways_seq_cons (takes_one _), if_neg (by simpa using hne)]
  obtain ⟨hrun, hafter⟩ := runOf_eq_takeWhile isSpaceChar cs
  rw [behindBrace, ways_seq_group_many (takes_one _) hclose, hrun, hafter]

theorem ways_behindBrace_append {space : List Char} (hspace : ∀ c ∈ space, isSpaceChar c = true)
    (rest : List Char) :
    behindBrace.ways (space ++ ':' :: rest) =
      (bodyAt? rest).toList.map fun body =>
        ⟨space ++ ':' :: (body ++ ['}']), [space, body], rest.drop (body.length + 1)⟩ := by
  obtain ⟨htake, hdrop⟩ := takeWhile_append_stop (c := ':') hspace (by decide) rest
  rw [ways_behindBrace, htake, hdrop, behindSpace, ways_seq_cons (takes_one _), if_pos (by rfl),
    ways_body, List.map_map, List.map_map]
  rfl

theorem ways_behindBrace_of_ne {cs : List Char}
    (h : ∀ rest, cs.dropWhile isSpaceChar ≠ ':' :: rest) : behindBrace.ways cs = [] := by
  rw [ways_behindBrace]
  cases hafter : cs.dropWhile isSpaceChar with
  | nil => rfl
  | cons c rest =>
    have hc : c ≠ ':' := fun hc => h rest (by rw [hafter, hc])
    rw [behindSpace, ways_seq_cons (takes_one _), if_neg (by simpa using hc), List.map_nil]

/-- The way to match a placeholder at the start of a text. -/
def Placeholder.way (cs : List Char) (p : Placeholder) : Way :=
  ⟨p.chars, [[p.sigil.char], p.space, p.body], cs.drop p.chars.length⟩

/-- Behind a sign and an opening brace, the pattern matches what the scanner takes. -/
theorem ways_sigil_brace (sigil : Sigil) (cs : List Char) :
    (behindBrace.ways cs).map (fun w => Way.andThen ⟨[sigil.char], [[sigil.char]], '{' :: cs⟩
        (Way.andThen ⟨['{'], [], cs⟩ w)) =
      (placeholderAt? (sigil.char :: '{' :: cs)).toList.map
        (Placeholder.way (sigil.char :: '{' :: cs)) := by
  by_cases hcolon : ∃ rest, cs.dropWhile isSpaceChar = ':' :: rest
  · obtain ⟨rest, hrest⟩ := hcolon
    have hspace : ∀ c ∈ cs.takeWhile isSpaceChar, isSpaceChar c = true := fun c =>
      List.mem_takeWhile_imp
    have hcs := List.takeWhile_append_dropWhile (p := isSpaceChar) (l := cs)
    rw [hrest] at hcs
    generalize cs.takeWhile isSpaceChar = space at hspace hcs
    subst hcs
    rw [ways_behindBrace_append hspace, placeholderAt?_sigil_append sigil hspace]
    cases bodyAt? rest with
    | none => rfl
    | some body => simp [Placeholder.way, Placeholder.chars, Way.andThen]
  · have hne : ∀ rest, cs.dropWhile isSpaceChar ≠ ':' :: rest := fun rest h => hcolon ⟨rest, h⟩
    have hnone : placeholderAt? (sigil.char :: '{' :: cs) = none := by
      unfold placeholderAt?
      split
      · rename_i heq
        cases heq
        split
        · rename_i hafter
          exact absurd hafter (hne _)
        · rfl
      · rfl
    rw [ways_behindBrace_of_ne hne, hnone]
    rfl

/-- A text starts with a placeholder in one way at most, and the pattern of placeholders tells when:
it keeps the sign, the namespace and the body. -/
theorem ways_placeholderPattern (cs : List Char) :
    placeholderPattern.ways cs = (placeholderAt? cs).toList.map (Placeholder.way cs) := by
  change (seq (group signPattern) (seq (one (· == '{')) behindBrace)).ways cs = _
  cases cs with
  | nil => rfl
  | cons c cs =>
    rw [ways_seq_group_cons takes_signPattern]
    cases hsigil : Sigil.ofChar? c with
    | none =>
      rw [placeholderAt?_eq_none_of_char hsigil]
      rfl
    | some sigil =>
      obtain rfl := Sigil.char_ofChar? hsigil
      cases cs with
      | nil => rfl
      | cons d rest =>
        rw [Option.isSome_some, if_pos rfl, ways_seq_cons (takes_one _)]
        by_cases hd : d = '{'
        · rw [hd, if_pos (by rfl), List.map_map]
          exact ways_sigil_brace sigil rest
        · have hnone : placeholderAt? (sigil.char :: d :: rest) = none := by
            simp [placeholderAt?, hd]
          rw [if_neg (by simpa using hd), hnone]
          rfl

/-! ## Searching a text -/

/-- A placeholder of a text as a match of the pattern. -/
def Span.hit (s : Span) : Hit :=
  ⟨s.start, s.stop, [[s.placeholder.sigil.char], s.placeholder.space, s.placeholder.body]⟩

theorem hitsFrom_placeholderPattern (n skip : Nat) (cs : List Char) :
    placeholderPattern.hitsFrom n skip cs =
      (spansFrom (n + skip) (scanFrom skip cs)).map Span.hit := by
  induction cs generalizing n skip with
  | nil => cases skip <;> rfl
  | cons c cs ih =>
    cases skip with
    | succ skip =>
      rw [hitsFrom, ih, scanFrom, Nat.add_right_comm, Nat.add_assoc]
    | zero =>
      rw [hitsFrom, scanFrom, ways_placeholderPattern]
      cases placeholderAt? (c :: cs) with
      | none => exact ih (n + 1) 0
      | some p =>
        have hlength : n + 1 + (p.chars.length - 1) = n + p.chars.length := by
          simp [Placeholder.chars]
          omega
        have hrest := ih (n + 1) (p.chars.length - 1)
        rw [hlength] at hrest
        exact congrArg
          (⟨n, n + p.chars.length, [[p.sigil.char], p.space, p.body]⟩ :: ·) hrest

/-- A search for the pattern of placeholders finds what the scanner finds. -/
theorem hits_placeholderPattern (cs : List Char) :
    placeholderPattern.hits cs = (spans cs).map Span.hit :=
  hitsFrom_placeholderPattern 0 0 cs

/-! ## Placeholders do not overlap -/

theorem Placeholder.length_chars_pos (p : Placeholder) : 0 < p.chars.length := by
  simp [Placeholder.chars]

/-- The only opening brace of a placeholder stands at its second place. -/
theorem Placeholder.WellFormed.eq_zero_of_brace {p : Placeholder} (h : p.WellFormed) {k : Nat}
    (hk : p.chars[k + 1]? = some '{') : k = 0 := by
  cases k with
  | zero => rfl
  | succ k =>
    have hmem : '{' ∈ p.space ++ ':' :: (p.body ++ ['}']) := List.mem_of_getElem? hk
    rcases List.mem_append.1 hmem with hmem | hmem
    · exact absurd (h.space _ hmem) (by decide)
    · simp [h.brace_notMem_body] at hmem

/-- A placeholder ends with a closing brace. -/
theorem Placeholder.getElem?_chars_last {p : Placeholder} {k : Nat}
    (hk : k + 1 = p.chars.length) : p.chars[k]? = some '}' := by
  have hchars : p.chars = p.sigil.char :: '{' :: (p.space ++ ':' :: p.body) ++ ['}'] := by
    simp [Placeholder.chars]
  have hlast : p.chars.getLast? = some '}' := by rw [hchars, List.getLast?_concat]
  rw [List.getLast?_eq_getElem?, ← hk] at hlast
  exact hlast

/-- A placeholder starts with a sign and an opening brace. -/
theorem getElem?_of_placeholderAt? {cs : List Char} {p : Placeholder} {k : Nat}
    (h : placeholderAt? (cs.drop k) = some p) :
    cs[k]? = some p.sigil.char ∧ cs[k + 1]? = some '{' := by
  obtain ⟨rest, hrest⟩ := placeholderAt?_eq h
  constructor
  · rw [← Nat.add_zero k, ← List.getElem?_drop, hrest]
    rfl
  · rw [← List.getElem?_drop, hrest]
    rfl

/-- No placeholder starts inside another one. -/
theorem placeholderAt?_drop_eq_none {cs : List Char} {p : Placeholder}
    (h : placeholderAt? cs = some p) {k : Nat} (hpos : 0 < k) (hk : k < p.chars.length) :
    placeholderAt? (cs.drop k) = none := by
  obtain ⟨hwf, hprefix⟩ := placeholderAt?_eq_some_iff.1 h
  have hsame : ∀ i, i < p.chars.length → p.chars[i]? = cs[i]? := fun i hi => by
    rw [List.prefix_iff_getElem?.1 hprefix i hi, List.getElem?_eq_getElem hi]
  rw [Option.eq_none_iff_forall_ne_some]
  intro q hq
  obtain ⟨hsigil, hbrace⟩ := getElem?_of_placeholderAt? hq
  rcases Nat.lt_or_eq_of_le (Nat.succ_le_of_lt hk) with hnext | hlast
  · have hzero := hwf.eq_zero_of_brace ((hsame (k + 1) hnext).trans hbrace)
    omega
  · rw [← hsame k hk, Placeholder.getElem?_chars_last hlast] at hsigil
    cases hsign : q.sigil <;> rw [hsign] at hsigil <;> cases hsigil

/-! ## What the scanner finds -/

theorem mem_spansFrom_scanFrom (n skip : Nat) (cs : List Char) {s : Span} :
    s ∈ spansFrom (n + skip) (scanFrom skip cs) ↔
      n + skip ≤ s.start ∧ s.stop = s.start + s.placeholder.chars.length ∧
        placeholderAt? (cs.drop (s.start - n)) = some s.placeholder := by
  induction cs generalizing n skip with
  | nil => cases skip <;> simp [scanFrom, spansFrom, placeholderAt?]
  | cons c cs ih =>
    have hdrop : n + 1 ≤ s.start → (c :: cs).drop (s.start - n) = cs.drop (s.start - (n + 1)) := by
      intro hn
      rw [← Nat.sub_add_cancel (Nat.le_sub_of_add_le' hn), List.drop_succ_cons, Nat.sub_sub]
    cases skip with
    | succ skip =>
      rw [scanFrom, Nat.add_comm skip, ← Nat.add_assoc, ih]
      refine and_congr_right fun hn => ?_
      rw [hdrop (by omega)]
    | zero =>
      rw [scanFrom]
      cases hp : placeholderAt? (c :: cs) with
      | none =>
        -- nothing starts here, so a placeholder starts further on
        have hne : placeholderAt? ((c :: cs).drop (s.start - n)) = some s.placeholder →
            s.start ≠ n := by
          rintro hs rfl
          rw [Nat.sub_self, List.drop_zero, hp] at hs
          cases hs
        refine (ih (n + 1) 0).trans ⟨?_, ?_⟩
        · rintro ⟨hn, hstop, hs⟩
          exact ⟨Nat.le_of_succ_le hn, hstop, by rwa [hdrop hn]⟩
        · rintro ⟨hn, hstop, hs⟩
          have hlt : n + 1 ≤ s.start := Nat.lt_of_le_of_ne hn (hne hs).symm
          exact ⟨hlt, hstop, by rwa [← hdrop hlt]⟩
      | some p =>
        have hpos := p.length_chars_pos
        have hlength : n + 1 + (p.chars.length - 1) = n + p.chars.length := by omega
        have hrest := ih (n + 1) (p.chars.length - 1)
        rw [hlength] at hrest
        refine List.mem_cons.trans ((or_congr_right hrest).trans ⟨?_, ?_⟩)
        · rintro (rfl | ⟨hn, hstop, hs⟩)
          · exact ⟨Nat.le_refl n, rfl, by simpa using hp⟩
          · exact ⟨by omega, hstop, by rwa [hdrop (by omega)]⟩
        · rintro ⟨hn, hstop, hs⟩
          rcases Nat.eq_or_lt_of_le hn with heq | hlt
          · refine .inl ?_
            rw [← heq, Nat.add_zero, Nat.sub_self, List.drop_zero, hp] at hs
            cases hs
            obtain ⟨start, stop, q⟩ := s
            obtain rfl : n = start := heq
            obtain rfl : stop = n + q.chars.length := hstop
            rfl
          · -- a placeholder that starts further on starts behind this one
            refine .inr ⟨?_, hstop, by rwa [← hdrop hlt]⟩
            by_contra hinside
            rw [placeholderAt?_drop_eq_none hp (by omega) (by omega)] at hs
            cases hs

/-- The scanner finds what a placeholder starts with, wherever it stands. -/
theorem mem_spans_iff {cs : List Char} {s : Span} :
    s ∈ spans cs ↔ s.stop = s.start + s.placeholder.chars.length ∧
      placeholderAt? (cs.drop s.start) = some s.placeholder := by
  have hmem := mem_spansFrom_scanFrom 0 0 cs (s := s)
  rw [Nat.add_zero, Nat.sub_zero] at hmem
  exact hmem.trans (and_iff_right (Nat.zero_le _))

theorem le_start_of_mem_spansFrom {ps : List Piece} {n : Nat} {s : Span}
    (h : s ∈ spansFrom n ps) : n ≤ s.start := by
  induction ps generalizing n with
  | nil => cases h
  | cons piece ps ih =>
    cases piece with
    | char c => exact Nat.le_of_succ_le (ih h)
    | hole p =>
      rcases List.mem_cons.1 h with rfl | h
      · exact Nat.le_refl _
      · exact Nat.le_trans (Nat.le_add_right n _) (ih h)

/-- Each placeholder that is found ends before the next one starts. -/
theorem pairwise_spansFrom (n : Nat) (ps : List Piece) :
    (spansFrom n ps).Pairwise fun a b => a.stop ≤ b.start := by
  induction ps generalizing n with
  | nil => exact .nil
  | cons piece ps ih =>
    cases piece with
    | char c => exact ih (n + 1)
    | hole p => exact .cons (fun s hs => le_start_of_mem_spansFrom hs) (ih _)

theorem hasPlaceholder_eq_true_iff_spans {cs : List Char} :
    hasPlaceholder cs = true ↔ spans cs ≠ [] := by
  have hany : ∀ (ps : List Piece) (n : Nat), ps.any Piece.isHole = true ↔ spansFrom n ps ≠ [] := by
    intro ps
    induction ps with
    | nil => intro n; simp [spansFrom]
    | cons piece ps ih =>
      intro n
      cases piece with
      | char c => exact ih (n + 1)
      | hole p => simp [spansFrom, Piece.isHole]
  exact hany (scan cs) 0

/-! ## What the grammar says -/

/-- The part of a text between two places is written like a placeholder. -/
structure Placeholder.Occurs (p : Placeholder) (cs : List Char) (start stop : Nat) : Prop where
  wellFormed : p.WellFormed
  inside : stop ≤ cs.length
  part : (cs.take stop).drop start = p.chars

theorem Placeholder.Occurs.stop_eq {p : Placeholder} {cs : List Char} {i j : Nat}
    (h : p.Occurs cs i j) : j = i + p.chars.length := by
  have hlength := congrArg List.length h.part
  have hpos := p.length_chars_pos
  rw [List.length_drop, List.length_take, Nat.min_eq_left h.inside] at hlength
  omega

/-- A part is written like a placeholder if and only if the text starts with that placeholder
there. -/
theorem Placeholder.occurs_iff {p : Placeholder} {cs : List Char} {i j : Nat} :
    p.Occurs cs i j ↔
      j = i + p.chars.length ∧ placeholderAt? (cs.drop i) = some p := by
  rw [placeholderAt?_eq_some_iff]
  constructor
  · intro h
    refine ⟨h.stop_eq, h.wellFormed, ?_⟩
    rw [← h.part, List.drop_take]
    exact List.take_prefix _ _
  · rintro ⟨rfl, hwf, hprefix⟩
    have hlength := hprefix.length_le
    have hpos := p.length_chars_pos
    rw [List.length_drop] at hlength
    refine ⟨hwf, by omega, ?_⟩
    rw [List.drop_take, Nat.add_sub_cancel_left]
    exact (List.prefix_iff_eq_take.1 hprefix).symm

theorem mem_spans_iff_occurs {cs : List Char} {s : Span} :
    s ∈ spans cs ↔ s.placeholder.Occurs cs s.start s.stop :=
  mem_spans_iff.trans Placeholder.occurs_iff.symm

/-- Of two parts that are written like placeholders, the later one is the same or starts behind the
other. -/
theorem Placeholder.Occurs.eq_or_le {p q : Placeholder} {cs : List Char} {i j k l : Nat}
    (hp : p.Occurs cs i j) (hq : q.Occurs cs k l) (hle : i ≤ k) :
    (i = k ∧ j = l ∧ p = q) ∨ j ≤ k := by
  obtain ⟨hj, hp⟩ := occurs_iff.1 hp
  obtain ⟨hl, hq⟩ := occurs_iff.1 hq
  rcases Nat.eq_or_lt_of_le hle with rfl | hlt
  · obtain rfl : p = q := Option.some.inj (hp.symm.trans hq)
    exact .inl ⟨rfl, hj.trans hl.symm, rfl⟩
  · by_contra hneither
    have hnone := placeholderAt?_drop_eq_none hp (Nat.sub_pos_of_lt hlt) (by omega)
    rw [List.drop_drop, Nat.add_sub_cancel' hle, hq] at hnone
    cases hnone

/-- Two parts that are written like placeholders are the same, or one ends before the other one
starts. -/
theorem Placeholder.Occurs.eq_or_disjoint {p q : Placeholder} {cs : List Char} {i j k l : Nat}
    (hp : p.Occurs cs i j) (hq : q.Occurs cs k l) :
    (i = k ∧ j = l ∧ p = q) ∨ j ≤ k ∨ l ≤ i := by
  rcases Nat.le_total i k with hle | hle
  · exact (hp.eq_or_le hq hle).imp_right .inl
  · rcases hq.eq_or_le hp hle with ⟨rfl, rfl, rfl⟩ | hstop
    · exact .inl ⟨rfl, rfl, rfl⟩
    · exact .inr (.inr hstop)

/-- A search for the pattern of placeholders finds the parts of a text that are written like a
placeholder, with their parts: all of them, each once and from left to right.  No two of them
overlap, and a text has a placeholder if there is one. -/
theorem spans_eq_occurrences (cs : List Char) :
    placeholderPattern.hits cs = (spans cs).map Span.hit ∧
      (∀ i j p, ⟨i, j, p⟩ ∈ spans cs ↔ p.Occurs cs i j) ∧
      (spans cs).Pairwise (fun a b => a.stop ≤ b.start) ∧
      (∀ (p q : Placeholder) (i j k l : Nat), p.Occurs cs i j → q.Occurs cs k l →
        (i = k ∧ j = l ∧ p = q) ∨ j ≤ k ∨ l ≤ i) ∧
      (hasPlaceholder cs = true ↔ ∃ (p : Placeholder) (i j : Nat), p.Occurs cs i j) := by
  refine ⟨hits_placeholderPattern cs, fun i j p => mem_spans_iff_occurs,
    pairwise_spansFrom 0 (scan cs), fun p q i j k l => Placeholder.Occurs.eq_or_disjoint, ?_⟩
  rw [hasPlaceholder_eq_true_iff_spans]
  constructor
  · intro h
    obtain ⟨s, hs⟩ := List.exists_mem_of_ne_nil _ h
    exact ⟨s.placeholder, s.start, s.stop, mem_spans_iff_occurs.1 hs⟩
  · rintro ⟨p, i, j, h⟩
    exact List.ne_nil_of_mem (a := ⟨i, j, p⟩) (mem_spans_iff_occurs.2 h)

end LayeredConfig.Template
