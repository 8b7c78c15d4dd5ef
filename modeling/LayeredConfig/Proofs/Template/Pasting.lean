import LayeredConfig.Proofs.Template.Tokens

/-!
# Texts that are pasted as defaults

A text that is pasted behind a comma into a placeholder is read again as a row of
defaults: it ends at its first closing brace, is cut at its commas and loses the blanks
around it, and the first default that says something is taken.  Counting characters
tells when it comes back as it was: quotes come in pairs, and what is cut off is never
put back.

* `defaultText` — the text of the first default that says something.
* `Pasteable` — the texts that come back.
* `literal_defaultText_iff` — a text without braces.
* `literal_closed_iff` — a text with a closing brace.
-/

namespace LayeredConfig

/-! ## Trimming -/

namespace Text

/-- Only blanks are cut off a text. -/
theorem exists_blanks_trim (cs : List Char) :
    ∃ front back, cs = front ++ trim cs ++ back ∧ (∀ c ∈ front, isBlank c = true) ∧
      ∀ c ∈ back, isBlank c = true := by
  refine ⟨cs.takeWhile isBlank, ((cs.dropWhile isBlank).reverse.takeWhile isBlank).reverse, ?_,
    fun c => List.mem_takeWhile_imp, fun c hc => List.mem_takeWhile_imp (List.mem_reverse.1 hc)⟩
  rw [trim, trimEnd, List.append_assoc, ← List.reverse_append, List.takeWhile_append_dropWhile,
    List.reverse_reverse, List.takeWhile_append_dropWhile]

/-- From a text without blanks at its ends nothing is cut off. -/
theorem trim_eq_self {cs : List Char} (hfirst : ∀ c ∈ cs.head?, isBlank c = false)
    (hlast : ∀ c ∈ cs.getLast?, isBlank c = false) : trim cs = cs := by
  have hkeep : ∀ {ds : List Char}, (∀ c ∈ ds.head?, isBlank c = false) →
      ds.dropWhile isBlank = ds := by
    intro ds hds
    cases ds with
    | nil => rfl
    | cons d ds => exact List.dropWhile_cons_of_neg (by simp [hds d rfl])
  rw [trim, hkeep hfirst, trimEnd, hkeep (by rwa [List.head?_reverse]), List.reverse_reverse]

/-- A trimmed text stays as it is when it is trimmed again. -/
theorem trim_trim (cs : List Char) : trim (trim cs) = trim cs := by
  refine trim_eq_self (fun c hc => ?_) (fun c hc => ?_)
  · have hprefix : trim cs <+: cs.dropWhile isBlank := by
      rw [trim, trimEnd, ← List.reverse_suffix, List.reverse_reverse]
      exact List.dropWhile_suffix isBlank
    obtain ⟨rest, hrest⟩ := hprefix
    obtain ⟨ds, hds⟩ := List.head?_eq_some_iff.1 hc
    have hfirst := List.head?_dropWhile_not isBlank cs
    rw [← hrest, hds] at hfirst
    exact hfirst
  · rw [trim, trimEnd, List.getLast?_reverse] at hc
    have hlast := List.head?_dropWhile_not isBlank (cs.dropWhile isBlank).reverse
    rw [Option.mem_def.1 hc] at hlast
    exact hlast

/-- A blank at the start of a text does not count. -/
theorem trim_cons {c : Char} (hc : isBlank c = true) (cs : List Char) :
    trim (c :: cs) = trim cs := by
  rw [trim, List.dropWhile_cons_of_pos hc, trim]

/-- A blank at the end of a text does not count. -/
theorem trim_concat {c : Char} (hc : isBlank c = true) (cs : List Char) :
    trim (cs ++ [c]) = trim cs := by
  rw [trim, trim, List.dropWhile_append]
  split
  · rename_i hempty
    rw [List.isEmpty_iff.1 hempty, List.dropWhile_cons_of_pos hc, List.dropWhile_nil]
  · rw [trimEnd, List.reverse_concat, List.dropWhile_cons_of_pos hc, trimEnd]

/-- A character that is no blank is never cut off. -/
theorem count_trim {c : Char} (hc : isBlank c = false) (cs : List Char) :
    (trim cs).count c = cs.count c := by
  obtain ⟨front, back, hcs, hfront, hback⟩ := exists_blanks_trim cs
  have hnone : ∀ {ds : List Char}, (∀ d ∈ ds, isBlank d = true) → ds.count c = 0 := by
    intro ds hds
    refine List.count_eq_zero.2 fun hmem => ?_
    rw [hds c hmem] at hc
    cases hc
  conv => rhs; rw [hcs]
  rw [List.count_append, List.count_append, hnone hfront, hnone hback, Nat.zero_add, Nat.add_zero]

/-- A text from which nothing is cut off has no blanks at its ends. -/
theorem trim_eq_self_of_length_le {cs : List Char} (h : cs.length ≤ (trim cs).length) :
    trim cs = cs := by
  obtain ⟨front, back, hcs, -, -⟩ := exists_blanks_trim cs
  have hlength := congrArg List.length hcs
  rw [List.length_append, List.length_append] at hlength
  obtain rfl : front = [] := List.eq_nil_of_length_eq_zero (by omega)
  obtain rfl : back = [] := List.eq_nil_of_length_eq_zero (by omega)
  rw [List.nil_append, List.append_nil] at hcs
  exact hcs.symm

end Text

namespace Template

variable {β : Type}

/-! ## Words and quotes -/

theorem isQuote_iff {c : Char} : isQuote c = true ↔ c = '\'' ∨ c = '"' := by
  simp [isQuote]

/-- The words that stand for values are written in small letters. -/
theorem wordValue?_eq_none_of_mem {s : String} {c : Char} (hc : c ∈ s.toList)
    (hlower : c.isLower = false) : wordValue? s = none := by
  have hne : ∀ w : String, w.toList.all Char.isLower = true → s ≠ w := by
    rintro w hw rfl
    rw [List.all_eq_true.1 hw c hc] at hlower
    cases hlower
  rw [wordValue?, if_neg (hne _ (by decide)), if_neg (hne _ (by decide)),
    if_neg (hne _ (by decide)), if_neg (hne _ (by decide))]

/-- No two words stand for one value. -/
theorem eq_of_wordValue? {s t : String} {a : Atom} (hs : wordValue? s = some a)
    (ht : wordValue? t = some a) : s = t := by
  unfold wordValue? at hs ht
  split_ifs at hs <;> cases hs <;> split_ifs at ht <;> simp_all

/-- No word stands for a text. -/
theorem wordValue?_ne_str {s t : String} : wordValue? s ≠ some (.str t) := by
  unfold wordValue?
  split_ifs <;> simp

/-- What a text in quotes is: some text between two equal quotes, and perhaps a line break. -/
theorem unquote?_eq_some_iff {cs inner : List Char} :
    unquote? cs = some inner ↔ ∃ q, isQuote q = true ∧
      (cs = q :: (inner ++ [q]) ∨ cs = q :: (inner ++ [q, '\n'])) := by
  have hbefore : ∀ {q : Char} {back : List Char}, beforeLast? q back = some inner ↔
      back = q :: inner.reverse := by
    intro q back
    cases back with
    | nil => simp [beforeLast?]
    | cons c rest =>
      rw [beforeLast?, List.cons.injEq]
      split
      · rename_i hc
        rw [Option.some.injEq, List.reverse_eq_iff, and_iff_right hc]
      · rename_i hc
        simp [hc]
  have hne : ∀ {q : Char}, isQuote q = true → q ≠ '\n' := by
    rintro q hq rfl
    cases hq
  cases cs with
  | nil => simp [unquote?]
  | cons c rest =>
    rw [unquote?]
    constructor
    · intro h
      split at h
      · rename_i hc
        refine ⟨c, hc, ?_⟩
        split at h
        · rename_i back hback
          rw [hbefore.1 h, List.reverse_eq_iff] at hback
          exact .inr (by rw [hback]; simp)
        · rw [hbefore, List.reverse_eq_iff] at h
          exact .inl (by rw [h]; simp)
      · cases h
    · rintro ⟨q, hq, h | h⟩
      · obtain ⟨rfl, rfl⟩ := List.cons.inj h
        rw [if_pos hq, List.reverse_concat]
        split
        · rename_i back hback
          exact absurd (List.cons.inj hback).1 (hne hq)
        · exact hbefore.2 rfl
      · obtain ⟨rfl, rfl⟩ := List.cons.inj h
        rw [if_pos hq, List.reverse_append]
        exact hbefore.2 rfl

/-- The text without the quotes around it, if there are any. -/
def bare (cs : List Char) : List Char :=
  (unquote? cs).getD cs

theorem literal_of_wordValue?_eq_some {s : String} {a : Atom} (h : wordValue? s = some a) :
    (literal s : Tree β) = .atom a := by
  rw [literal, h]

theorem literal_of_wordValue?_eq_none {s : String} (h : wordValue? s = none) :
    (literal s : Tree β) = .str (String.ofList (bare s.toList)) := by
  rw [literal, h, bare]
  cases unquote? s.toList with
  | none => simp
  | some cs => rfl

/-- Two texts have one value only if they are the same word, or no words and the same up to quotes
around them. -/
theorem literal_eq_literal_iff {s t : String} :
    (literal s : Tree β) = literal t ↔
      s = t ∨ (wordValue? s = none ∧ wordValue? t = none ∧ bare s.toList = bare t.toList) := by
  constructor
  · intro h
    cases hs : wordValue? s with
    | some a =>
      refine .inl ?_
      rw [literal_of_wordValue?_eq_some hs] at h
      cases ht : wordValue? t with
      | some b =>
        rw [literal_of_wordValue?_eq_some ht] at h
        cases h
        exact eq_of_wordValue? hs ht
      | none =>
        rw [literal_of_wordValue?_eq_none ht] at h
        cases h
        exact absurd hs wordValue?_ne_str
    | none =>
      rw [literal_of_wordValue?_eq_none hs] at h
      cases ht : wordValue? t with
      | some b =>
        rw [literal_of_wordValue?_eq_some ht] at h
        cases h
        exact absurd ht wordValue?_ne_str
      | none =>
        rw [literal_of_wordValue?_eq_none ht] at h
        exact .inr ⟨rfl, rfl, String.ofList_injective (Atom.str.inj (Tree.atom.inj h))⟩
  · rintro (rfl | ⟨hs, ht, h⟩)
    · rfl
    · rw [literal_of_wordValue?_eq_none hs, literal_of_wordValue?_eq_none ht, h]

/-- Two quotes are taken off, one of them in front, and perhaps a line break. -/
theorem count_of_unquote? {cs inner : List Char} (h : unquote? cs = some inner) :
    ∃ q, isQuote q = true ∧ cs.head? = some q ∧ cs.count q = inner.count q + 2 ∧
      ∀ c, c ≠ q → c ≠ '\n' → cs.count c = inner.count c := by
  obtain ⟨q, hq, hcs⟩ := unquote?_eq_some_iff.1 h
  have hbreak : q ≠ '\n' := by
    rintro rfl
    cases hq
  refine ⟨q, hq, ?_, ?_, fun c hc hc' => ?_⟩
  · rcases hcs with rfl | rfl <;> rfl
  · rcases hcs with rfl | rfl
    · simp
    · simp [hbreak.symm]
  · rcases hcs with rfl | rfl
    · simp [hc.symm]
    · simp [hc.symm, hc'.symm]

/-- A character that is no quote and no line break is in a text as often as without its quotes. -/
theorem count_bare {c : Char} (hc : isQuote c = false) (hc' : c ≠ '\n') (cs : List Char) :
    (bare cs).count c = cs.count c := by
  rw [bare]
  cases h : unquote? cs with
  | none => rfl
  | some inner =>
    obtain ⟨q, hq, -, -, hcount⟩ := count_of_unquote? h
    refine (hcount c ?_ hc').symm
    rintro rfl
    rw [hq] at hc
    cases hc

theorem length_bare_le (cs : List Char) : (bare cs).length ≤ cs.length := by
  rw [bare]
  cases h : unquote? cs with
  | none => exact Nat.le_refl _
  | some inner => exact (infix_of_unquote? h).length_le

/-- No text becomes longer when it is given its type. -/
theorem literal_ne_of_length_lt {s t : String} (h : s.toList.length < t.toList.length) :
    (literal s : Tree β) ≠ .str t := by
  intro heq
  cases hs : wordValue? s with
  | some a =>
    rw [literal_of_wordValue?_eq_some hs] at heq
    cases heq
    exact wordValue?_ne_str hs
  | none =>
    rw [literal_of_wordValue?_eq_none hs] at heq
    have hbare := congrArg String.toList (Atom.str.inj (Tree.atom.inj heq))
    have hlength := length_bare_le s.toList
    rw [String.toList_ofList] at hbare
    rw [hbare] at hlength
    omega

/-- What stands behind a closing brace has no quotes taken off. -/
theorem bare_concat_brace (cs : List Char) : bare (cs ++ ['}']) = cs ++ ['}'] := by
  have hnone : unquote? (cs ++ ['}']) = none := by
    rw [Option.eq_none_iff_forall_ne_some]
    intro inner h
    obtain ⟨q, hq, hcs | hcs⟩ := unquote?_eq_some_iff.1 h
    · have hlast := congrArg List.getLast? hcs
      rw [List.getLast?_concat, ← List.cons_append, List.getLast?_concat] at hlast
      cases hlast
      cases hq
    · have hlast := congrArg List.getLast? hcs
      rw [List.getLast?_concat, ← List.cons_append, List.getLast?_append] at hlast
      cases hlast
  rw [bare, hnone]
  rfl

/-- A text in quotes is no word. -/
theorem wordValue?_eq_none_of_isQuote {s : String} {q : Char} (hq : isQuote q = true)
    (hmem : q ∈ s.toList) : wordValue? s = none := by
  refine wordValue?_eq_none_of_mem hmem ?_
  rcases isQuote_iff.1 hq with rfl | rfl <;> decide

theorem isBlank_of_isQuote {q : Char} (hq : isQuote q = true) : Text.isBlank q = false := by
  rcases isQuote_iff.1 hq with rfl | rfl <;> decide

/-- Quotes are no blanks. -/
theorem trim_quoted {q : Char} (hq : isQuote q = true) (inner : List Char) :
    Text.trim (q :: (inner ++ [q])) = q :: (inner ++ [q]) := by
  refine Text.trim_eq_self (fun c hc => ?_) (fun c hc => ?_)
  · cases hc
    exact isBlank_of_isQuote hq
  · rw [← List.cons_append, List.getLast?_concat] at hc
    cases hc
    exact isBlank_of_isQuote hq

/-! ## Defaults -/

/-- The text of the first default that says something, else the word for the undefined value. -/
def defaultText : List String → String
  | [] => "undefined"
  | t :: ts => if t = "" ∨ t = "undefined" then defaultText ts else t

/-- The first default as a part of a text. -/
theorem text_firstDefault (ts : List String) :
    text (firstDefault ts : Tree β) = .ok (defaultText ts) := by
  induction ts with
  | nil => rfl
  | cons t ts ih =>
    rw [firstDefault, defaultText]
    split
    · exact ih
    · rfl

/-- The first default as the value of a text that is not among the defaults. -/
theorem coerce_firstDefault {s : String} {ts : List String} (h : s ∉ ts) :
    coerce (.str s : Value) (firstDefault ts : Tree β) = literal (defaultText ts) := by
  induction ts with
  | nil => rfl
  | cons t ts ih =>
    rw [List.mem_cons, not_or] at h
    rw [firstDefault, defaultText]
    split
    · exact ih h.2
    · rw [coerce, if_neg (Ne.symm h.1)]

theorem defaultText_cases (ts : List String) :
    (defaultText ts ∈ ts ∧ defaultText ts ≠ "") ∨ defaultText ts = "undefined" := by
  induction ts with
  | nil => exact .inr rfl
  | cons t ts ih =>
    rw [defaultText]
    split
    · exact ih.imp_left fun h => ⟨List.mem_cons_of_mem t h.1, h.2⟩
    · rename_i hne
      exact .inl ⟨List.mem_cons_self, fun h => hne (.inl h)⟩

/-- A default is trimmed, not empty and without commas. -/
theorem defaultText_tokensOf (cs : List Char) :
    Text.trim (defaultText (tokensOf cs)).toList = (defaultText (tokensOf cs)).toList ∧
      defaultText (tokensOf cs) ≠ "" ∧ ',' ∉ (defaultText (tokensOf cs)).toList := by
  rcases defaultText_cases (tokensOf cs) with ⟨hmem, hne⟩ | h
  · obtain ⟨part, hpart, htoken⟩ := List.mem_map.1 hmem
    rw [← htoken] at hne ⊢
    rw [String.toList_ofList]
    exact ⟨Text.trim_trim part, hne,
      fun hc => notMem_of_mem_splitOn hpart (Text.mem_of_mem_trim hc)⟩
  · rw [h]
    exact ⟨by decide +kernel, by simp, by decide⟩

/-- A default of a body without opening braces has none. -/
theorem brace_notMem_defaultText {cs : List Char} (h : '{' ∉ cs) :
    '{' ∉ (defaultText (tokensOf cs)).toList := by
  rcases defaultText_cases (tokensOf cs) with ⟨hmem, -⟩ | hword
  · exact fun hc => h (mem_of_mem_tokensOf hmem hc)
  · rw [hword]
    decide

/-- Without commas there is one default. -/
theorem defaultText_tokensOf_of_notMem {cs : List Char} (h : ',' ∉ cs) :
    defaultText (tokensOf cs) =
      if Text.trim cs = [] then "undefined" else String.ofList (Text.trim cs) := by
  rw [tokensOf, List.splitOn_eq_singleton h, List.map_singleton, defaultText]
  by_cases hnil : Text.trim cs = []
  · rw [if_pos hnil, if_pos (.inl (by rw [hnil]))]
    rfl
  · have hempty : String.ofList (Text.trim cs) ≠ "" := fun h => hnil (by
      simpa using congrArg String.toList h)
    rw [if_neg hnil]
    split
    · rename_i hword
      exact (hword.resolve_left hempty).symm
    · rfl

/-! ## Texts that come back -/

/-- The text comes back when it is pasted: without the closing braces at its end it has no comma and
no brace, and no blank at its ends, except that a line break behind a text in quotes does not
count where no closing brace follows. -/
def Pasteable (cs : List Char) : Prop :=
  ∃ core k, cs = core ++ List.replicate k '}' ∧ core ≠ [] ∧
    (∀ c ∈ core, isBodyChar c = true ∧ c ≠ ',') ∧
    (Text.trim core = core ∨ k = 0 ∧ (unquote? core).isSome = true)

/-- A text without braces that is read as a row of defaults has its own value if and only if it is
one of those that come back. -/
theorem literal_defaultText_iff {s : String} (hbody : ∀ c ∈ s.toList, isBodyChar c = true) :
    (literal (defaultText (tokensOf s.toList)) : Tree β) = literal s ↔ Pasteable s.toList := by
  obtain ⟨htrim, hne, hcomma⟩ := defaultText_tokensOf s.toList
  constructor
  · intro h
    rcases literal_eq_literal_iff.1 h with heq | ⟨hword, -, hbare⟩
    · -- the one default is the text
      rw [heq] at htrim hne hcomma
      exact ⟨s.toList, 0, (List.append_nil _).symm, by simpa using hne,
        fun c hc => ⟨hbody c hc, fun hc' => hcomma (hc' ▸ hc)⟩, .inl htrim⟩
    · have hcount := congrArg (List.count ',') hbare
      rw [count_bare (by decide) (by decide), count_bare (by decide) (by decide),
        List.count_eq_zero.2 hcomma] at hcount
      have hnone : ',' ∉ s.toList := List.count_eq_zero.1 hcount.symm
      rw [defaultText_tokensOf_of_notMem hnone] at hword hbare
      split at hword
      · cases hword
      · rename_i hblank
        have hnil : s.toList ≠ [] := fun h => hblank (by rw [h]; rfl)
        refine ⟨s.toList, 0, (List.append_nil _).symm, hnil,
          fun c hc => ⟨hbody c hc, fun hc' => hnone (hc' ▸ hc)⟩, ?_⟩
        rw [if_neg hblank, String.toList_ofList] at hbare
        cases hquote : unquote? s.toList with
        | some inner => exact .inr ⟨rfl, rfl⟩
        | none =>
          -- nothing can have been cut off, since nothing of the text is missing
          rw [bare, bare, hquote, Option.getD_none] at hbare
          refine .inl (Text.trim_eq_self_of_length_le ?_)
          have hlength := length_bare_le (Text.trim s.toList)
          rwa [bare, hbare] at hlength
  · rintro ⟨core, k, hcore, hnil, hchars, hends⟩
    obtain rfl : k = 0 := by
      by_contra hk
      have hmem : '}' ∈ s.toList := by
        rw [hcore]
        exact List.mem_append_right _ (List.mem_replicate.2 ⟨hk, rfl⟩)
      exact absurd (hbody _ hmem) (by decide)
    obtain rfl : core = s.toList := by simpa using hcore.symm
    have hnone : ',' ∉ s.toList := fun hc => (hchars _ hc).2 rfl
    rw [defaultText_tokensOf_of_notMem hnone]
    have hsame : Text.trim s.toList = s.toList →
        (literal (if Text.trim s.toList = [] then "undefined" else
          String.ofList (Text.trim s.toList)) : Tree β) = literal s := by
      intro h
      rw [h, if_neg hnil, String.ofList_toList]
    rcases hends with htrim | ⟨-, hquoted⟩
    · exact hsame htrim
    · obtain ⟨inner, hinner⟩ := Option.isSome_iff_exists.1 hquoted
      obtain ⟨q, hq, hs | hs⟩ := unquote?_eq_some_iff.1 hinner
      · exact hsame (by rw [hs, trim_quoted hq])
      · -- the line break is cut off, and it would not have counted
        have hline : s.toList = (q :: (inner ++ [q])) ++ ['\n'] := by simp [hs]
        have hfront : Text.trim s.toList = q :: (inner ++ [q]) := by
          rw [hline, Text.trim_concat (by decide), trim_quoted hq]
        rw [hfront, if_neg (List.cons_ne_nil _ _)]
        refine literal_eq_literal_iff.2 (.inr ⟨wordValue?_eq_none_of_isQuote hq (by simp),
          wordValue?_eq_none_of_isQuote hq (by rw [hs]; exact List.mem_cons_self), ?_⟩)
        have hshort : unquote? (q :: (inner ++ [q])) = some inner :=
          unquote?_eq_some_iff.2 ⟨q, hq, .inl rfl⟩
        rw [String.toList_ofList, bare, bare, hinner, hshort]
        rfl

/-- A row to which a character is added at the end as well as in front holds that one only. -/
theorem eq_replicate_of_concat {c : Char} {cs : List Char} (h : cs ++ [c] = c :: cs) :
    cs = List.replicate cs.length c := by
  induction cs with
  | nil => rfl
  | cons d ds ih =>
    obtain ⟨rfl, h⟩ := List.cons.inj h
    rw [List.length_cons, List.replicate_succ, ← ih h]

/-- A default of which a closing brace has cut off the end does not give back a text in quotes: the
quote in front is in the default, and the one at the end stays behind it. -/
theorem default_ne_of_quoted {front back inner : List Char}
    (h : unquote? (front ++ '}' :: back) = some inner) :
    (defaultText (tokensOf front)).toList ++ (back ++ ['}']) ≠ inner := by
  rintro rfl
  obtain ⟨q, hq, hhead, hcount, hothers⟩ := count_of_unquote? h
  have hbrace : q ≠ '}' := by
    rintro rfl
    cases hq
  -- no comma is missing, so the default is all that stands in front
  have hnone : ',' ∉ front := by
    have hcomma := hothers ',' (by rintro rfl; cases hq) (by decide)
    obtain ⟨-, -, hfree⟩ := defaultText_tokensOf front
    simp only [List.count_append, List.count_cons, List.count_eq_zero.2 hfree] at hcomma
    exact List.count_eq_zero.1 (by simpa using hcomma)
  -- but then no quote is missing
  have hkept : (defaultText (tokensOf front)).toList.count q = front.count q := by
    have hmem : q ∈ front := by
      cases front with
      | nil =>
        cases hhead
        cases hq
      | cons c front =>
        cases hhead
        exact List.mem_cons_self
    have htrim := Text.count_trim (isBlank_of_isQuote hq) front
    have hnil : Text.trim front ≠ [] := by
      intro hnil
      rw [hnil, List.count_nil] at htrim
      exact List.count_eq_zero.1 htrim.symm hmem
    rw [defaultText_tokensOf_of_notMem hnone, if_neg hnil, String.toList_ofList, htrim]
  simp [List.count_append, hkept, hbrace.symm] at hcount

/-- A text with a closing brace ends a placeholder too early: what comes out is the default before
the brace and all that stands behind it, with the brace of the placeholder at the end. -/
theorem literal_closed_iff {front back : List Char}
    (hfront : ∀ c ∈ front, isBodyChar c = true) :
    (literal (String.ofList ((defaultText (tokensOf front)).toList ++ (back ++ ['}']))) : Tree β) =
      literal (String.ofList (front ++ '}' :: back)) ↔ Pasteable (front ++ '}' :: back) := by
  obtain ⟨htrim, hne, hcomma⟩ := defaultText_tokensOf front
  have hword : ∀ {cs : List Char}, '}' ∈ cs → wordValue? (String.ofList cs) = none := fun h =>
    wordValue?_eq_none_of_mem (by rwa [String.toList_ofList]) (by decide)
  have hlast : '}' ∈ (defaultText (tokensOf front)).toList ++ (back ++ ['}']) := by simp
  rw [literal_of_wordValue?_eq_none (hword hlast), literal_of_wordValue?_eq_none (hword (by simp)),
    String.toList_ofList, String.toList_ofList, ← List.append_assoc, bare_concat_brace,
    List.append_assoc]
  constructor
  · intro h
    have h := String.ofList_injective (Atom.str.inj (Tree.atom.inj h))
    cases hquote : unquote? (front ++ '}' :: back) with
    | some inner =>
      rw [bare, hquote] at h
      exact absurd h (default_ne_of_quoted hquote)
    | none =>
      rw [bare, hquote, Option.getD_none] at h
      obtain ⟨hsame, hback⟩ := List.append_inj' h (by simp)
      rw [hsame] at htrim hcomma
      refine ⟨front, back.length + 1, ?_, fun hnil => hne ?_,
        fun c hc => ⟨hfront c hc, fun hc' => hcomma (hc' ▸ hc)⟩, .inl htrim⟩
      · rw [List.replicate_succ, ← eq_replicate_of_concat hback]
      · simpa [hnil] using hsame
  · rintro ⟨core, k, hcore, hnil, hchars, hends⟩
    have hk : k ≠ 0 := by
      rintro rfl
      rw [List.replicate_zero, List.append_nil] at hcore
      exact absurd (hchars '}' (hcore ▸ by simp)).1 (by decide)
    obtain ⟨k, rfl⟩ := Nat.exists_eq_add_one_of_ne_zero hk
    rw [List.replicate_succ] at hcore
    -- both texts have their first brace at the same place
    have hsame : front = core := by
      have htake := congrArg (List.takeWhile isBodyChar) hcore
      rwa [(takeWhile_append_stop hfront (by decide) back).1,
        (takeWhile_append_stop (fun c hc => (hchars c hc).1) (by decide) _).1] at htake
    subst hsame
    have hback := (List.cons.inj (List.append_cancel_left hcore)).2
    have htrim := hends.resolve_right fun h => hk h.1
    rw [defaultText_tokensOf_of_notMem fun hc => (hchars _ hc).2 rfl, htrim, if_neg hnil,
      String.toList_ofList, hback, ← List.replicate_succ', List.replicate_succ]
    have hbare : bare (front ++ '}' :: List.replicate k '}') =
        front ++ '}' :: List.replicate k '}' := by
      rw [← List.replicate_succ, List.replicate_succ', ← List.append_assoc, bare_concat_brace]
    rw [hbare]

end Template

end LayeredConfig
