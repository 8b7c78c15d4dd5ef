import LayeredConfig.Proofs.Template.Pasting
import LayeredConfig.Proofs.Template.Scanner

/-!
# What a text is typed as

A text that came out of a substitution is one of four words, a text in quotes, or stays
as it is.  The quotes are looked for with the pattern `^(['"])(.*)\1$`, whose middle
takes as much as it can and whose end also lies before a line break that ends the text.
So a line break behind the closing quote is lost with the quotes.

* `mem_ways_quotedPattern` — the ways to match the pattern.
* `unquote?_eq_some_iff_way` — a text loses its quotes just as the pattern says.
* `Typed` — the words, the quoted texts and all others.
* `coerce_eq_iff_typed` — the value of a text that differs from the one substituted into.
-/

namespace LayeredConfig.Template

open Pattern

/-! ## The pattern of a text in quotes -/

/-- The end of a text, or the place before a line break that ends it. -/
def endPattern : Pattern :=
  seq (absent (one (· != '\n'))) (absent (seq (one (· == '\n')) (one fun _ => true)))

/-- A text between two quotes `q` that ends with the second one.  What is between them is kept. -/
def quotedPattern (q : Char) : Pattern :=
  seq (one (· == q)) (seq (group (many (one fun _ => true))) (seq (one (· == q)) endPattern))

theorem ways_endPattern (cs : List Char) :
    endPattern.ways cs = if cs = [] ∨ cs = ['\n'] then [.idle cs] else [] := by
  cases cs with
  | nil => rfl
  | cons c cs =>
    by_cases hc : c = '\n'
    · cases cs <;> simp [endPattern, ways, hc, Way.idle, Way.andThen]
    · simp [endPattern, ways, hc]

/-- A pattern for any character, repeated, takes any part that a text starts with. -/
theorem mem_repeated_any {n : Nat} {cs : List Char} (hn : cs.length ≤ n) {w : Way} :
    w ∈ repeated (one fun _ => true).ways n cs ↔ w.groups = [] ∧ w.taken ++ w.rest = cs := by
  induction cs generalizing n w with
  | nil =>
    obtain ⟨taken, groups, rest⟩ := w
    cases n <;> simp [repeated, ways, Way.idle] <;> tauto
  | cons c cs ih =>
    obtain ⟨n, rfl⟩ := Nat.exists_eq_add_one_of_ne_zero (Nat.ne_of_gt (Nat.lt_of_lt_of_le
      (Nat.succ_pos cs.length) hn))
    have hstep : repeated (one fun _ => true).ways (n + 1) (c :: cs) =
        (repeated (one fun _ => true).ways n cs).map (Way.andThen ⟨[c], [], cs⟩) ++
          [.idle (c :: cs)] := by
      simp [repeated, ways]
    rw [hstep, List.mem_append, List.mem_map, List.mem_singleton]
    constructor
    · rintro (⟨v, hv, rfl⟩ | rfl)
      · obtain ⟨hgroups, hcs⟩ := (ih (Nat.le_of_succ_le_succ hn)).1 hv
        exact ⟨hgroups, congrArg (c :: ·) hcs⟩
      · exact ⟨rfl, rfl⟩
    · obtain ⟨taken, groups, rest⟩ := w
      rintro ⟨rfl, hcs⟩
      cases taken with
      | nil => exact .inr (congrArg Way.idle hcs)
      | cons d ds =>
        obtain ⟨rfl, htail⟩ := List.cons.inj hcs
        exact .inl ⟨⟨ds, [], rest⟩, (ih (Nat.le_of_succ_le_succ hn)).2 ⟨rfl, htail⟩, rfl⟩

/-- What follows the text between the quotes. -/
theorem mem_ways_closing {q : Char} {cs : List Char} {w : Way} :
    w ∈ (seq (one (· == q)) endPattern).ways cs ↔
      (w.rest = [] ∨ w.rest = ['\n']) ∧ w = ⟨[q], [], w.rest⟩ ∧ cs = q :: w.rest := by
  cases cs with
  | nil => simp [ways]
  | cons c cs =>
    rw [ways_seq_cons (takes_one _), ways_endPattern]
    by_cases hc : c = q
    · rw [if_pos (by simpa using hc), hc]
      split
      · rename_i hend
        rw [List.map_singleton, List.mem_singleton]
        constructor
        · rintro rfl
          exact ⟨hend, rfl, rfl⟩
        · rintro ⟨-, hw, hcs⟩
          rw [hw, (List.cons.inj hcs).2]
          rfl
      · rename_i hend
        simp only [List.map_nil, List.not_mem_nil, List.cons.injEq, true_and, false_iff]
        rintro ⟨hrest, -, rfl⟩
        exact hend hrest
    · simp [hc]

/-- The pattern matches a text from one quote to another one behind which at most a line break
follows, and keeps what is between them. -/
theorem mem_ways_quotedPattern {q : Char} {cs : List Char} {w : Way} :
    w ∈ (quotedPattern q).ways cs ↔ ∃ inner, (w.rest = [] ∨ w.rest = ['\n']) ∧
      w = ⟨q :: (inner ++ [q]), [inner], w.rest⟩ ∧ cs = q :: (inner ++ q :: w.rest) := by
  cases cs with
  | nil => simp [quotedPattern, ways]
  | cons c cs =>
    rw [quotedPattern, ways_seq_cons (takes_one _)]
    by_cases hc : c = q
    · rw [if_pos (by simpa using hc), hc]
      constructor
      · intro hmem
        obtain ⟨v, hv, rfl⟩ := List.mem_map.1 hmem
        obtain ⟨u, hu, hmem⟩ := List.mem_flatMap.1 hv
        obtain ⟨⟨inner, groups, rest⟩, hmany, rfl⟩ := List.mem_map.1 hu
        obtain ⟨⟨taken, groups', rest'⟩, hclose, rfl⟩ := List.mem_map.1 hmem
        obtain ⟨rfl, hcs⟩ := (mem_repeated_any (Nat.le_refl _)).1 hmany
        obtain ⟨hend, hway, hrest⟩ := mem_ways_closing.1 hclose
        cases hway
        exact ⟨inner, hend, rfl, by rw [← hcs]; exact congrArg (q :: inner ++ ·) hrest⟩
      · rintro ⟨inner, hend, hw, hcs⟩
        refine List.mem_map.2 ⟨⟨inner ++ [q], [inner], w.rest⟩, ?_, hw.symm⟩
        refine List.mem_flatMap.2 ⟨⟨inner, [inner], q :: w.rest⟩, ?_, ?_⟩
        · refine List.mem_map.2 ⟨⟨inner, [], q :: w.rest⟩, ?_, rfl⟩
          exact (mem_repeated_any (Nat.le_refl _)).2 ⟨rfl, (List.cons.inj hcs).2.symm⟩
        · exact List.mem_map.2 ⟨⟨[q], [], w.rest⟩, mem_ways_closing.2 ⟨hend, rfl, rfl⟩, rfl⟩
    · simp [hc]

/-- Every way to match the pattern keeps what the text is without its quotes. -/
theorem groups_of_mem_ways {q : Char} (hq : isQuote q = true) {cs : List Char} {w : Way}
    (hw : w ∈ (quotedPattern q).ways cs) : ∃ inner, w.groups = [inner] ∧ unquote? cs = some inner := by
  obtain ⟨inner, hend, hway, rfl⟩ := mem_ways_quotedPattern.1 hw
  refine ⟨inner, congrArg Way.groups hway, unquote?_eq_some_iff.2 ⟨q, hq, ?_⟩⟩
  rcases hend with hend | hend
  · exact .inl (by rw [hend])
  · exact .inr (by rw [hend])

/-- A text loses its quotes just as the pattern says, tried with either of them: what the first way
to match it keeps is taken. -/
theorem unquote?_eq_some_iff_way {cs inner : List Char} :
    unquote? cs = some inner ↔ ∃ q, isQuote q = true ∧
      ∃ w, ((quotedPattern q).ways cs).head? = some w ∧ w.groups = [inner] := by
  constructor
  · intro h
    obtain ⟨q, hq, hcs⟩ := unquote?_eq_some_iff.1 h
    have hne : (quotedPattern q).ways cs ≠ [] := by
      rcases hcs with rfl | rfl
      · exact List.ne_nil_of_mem (a := ⟨_, _, []⟩)
          (mem_ways_quotedPattern.2 ⟨inner, .inl rfl, rfl, rfl⟩)
      · exact List.ne_nil_of_mem (a := ⟨_, _, ['\n']⟩)
          (mem_ways_quotedPattern.2 ⟨inner, .inr rfl, rfl, rfl⟩)
    refine ⟨q, hq, _, List.head?_eq_some_head hne, ?_⟩
    obtain ⟨inner', hgroups, hinner⟩ := groups_of_mem_ways hq (List.head_mem hne)
    rw [hgroups, Option.some.inj (hinner.symm.trans h)]
  · rintro ⟨q, hq, w, hfirst, hgroups⟩
    obtain ⟨inner', hgroups', hinner⟩ := groups_of_mem_ways hq (List.mem_of_head? hfirst)
    rw [hinner, List.singleton_inj.1 (hgroups'.symm.trans hgroups)]

/-! ## Types of texts -/

variable {α β : Type}

/-- What a text stands for: four words for values, a text in quotes for the text between them, also
if a line break follows, and all others for themselves. -/
inductive Typed : String → Tree β → Prop
  | undefined : Typed "undefined" (.atom .undefined)
  | null : Typed "null" (.atom .null)
  | true : Typed "true" (.atom (.bool true))
  | false : Typed "false" (.atom (.bool false))
  | quoted {q : Char} (hq : isQuote q = true) (t : String) :
    Typed (q.toString ++ t ++ q.toString) (.str t)
  | quotedLine {q : Char} (hq : isQuote q = true) (t : String) :
    Typed (q.toString ++ t ++ q.toString ++ "\n") (.str t)
  | plain {s : String} (hword : s ∉ ["undefined", "null", "true", "false"])
    (hquoted : ∀ q t, isQuote q = true → s ≠ q.toString ++ t ++ q.toString ∧
      s ≠ q.toString ++ t ++ q.toString ++ "\n") : Typed s (.str s)

theorem wordValue?_eq_none_iff {s : String} :
    wordValue? s = none ↔ s ∉ ["undefined", "null", "true", "false"] := by
  rw [wordValue?]
  split_ifs <;> simp_all

theorem typed_of_wordValue? {s : String} {a : Atom} (h : wordValue? s = some a) :
    Typed s (.atom a : Tree β) := by
  unfold wordValue? at h
  split_ifs at h with hundefined hnull htrue hfalse <;> subst s <;> cases h
  · exact .undefined
  · exact .null
  · exact .true
  · exact .false

/-- What a text in quotes is, as a text. -/
theorem unquote?_toList_iff {s t : String} :
    unquote? s.toList = some t.toList ↔ ∃ q : Char, isQuote q = true ∧
      (s = q.toString ++ t ++ q.toString ∨ s = q.toString ++ t ++ q.toString ++ "\n") := by
  have hquoted (q : Char) : s = q.toString ++ t ++ q.toString ↔
      s.toList = q :: (t.toList ++ [q]) := by
    rw [← String.toList_inj]
    simp
  have hline (q : Char) : s = q.toString ++ t ++ q.toString ++ "\n" ↔
      s.toList = q :: (t.toList ++ [q, '\n']) := by
    rw [← String.toList_inj]
    simp
  simp only [unquote?_eq_some_iff, hquoted, hline]

theorem literal_of_unquote? {s t : String} (h : unquote? s.toList = some t.toList) :
    (literal s : Tree β) = .str t := by
  obtain ⟨q, hq, hfirst, -, -⟩ := count_of_unquote? h
  have hword := wordValue?_eq_none_of_isQuote hq (List.mem_of_head? hfirst)
  rw [literal_of_wordValue?_eq_none hword, bare, h, Option.getD_some, String.ofList_toList]

theorem Typed.literal_eq {s : String} {v : Tree β} (h : Typed s v) : literal s = v := by
  cases h with
  | undefined => rfl
  | null => rfl
  | true => rfl
  | false => rfl
  | quoted hq t => exact literal_of_unquote? (unquote?_toList_iff.2 ⟨_, hq, .inl rfl⟩)
  | quotedLine hq t => exact literal_of_unquote? (unquote?_toList_iff.2 ⟨_, hq, .inr rfl⟩)
  | plain hword hquoted =>
    have hnone : unquote? s.toList = none := by
      rw [Option.eq_none_iff_forall_ne_some]
      intro inner h
      obtain ⟨q, hq, hs⟩ := (unquote?_toList_iff (t := String.ofList inner)).1 (by simpa using h)
      exact hs.elim (hquoted q _ hq).1 (hquoted q _ hq).2
    rw [literal_of_wordValue?_eq_none (wordValue?_eq_none_iff.2 hword), bare, hnone,
      Option.getD_none, String.ofList_toList]

/-- Every text stands for something. -/
theorem exists_typed (s : String) : ∃ v : Tree β, Typed s v := by
  cases hword : wordValue? s with
  | some a => exact ⟨_, typed_of_wordValue? hword⟩
  | none =>
    by_cases hquoted : ∃ t : String, unquote? s.toList = some t.toList
    · obtain ⟨t, ht⟩ := hquoted
      obtain ⟨q, hq, rfl | rfl⟩ := unquote?_toList_iff.1 ht
      · exact ⟨_, .quoted hq t⟩
      · exact ⟨_, .quotedLine hq t⟩
    · refine ⟨_, .plain (wordValue?_eq_none_iff.1 hword) fun q t hq => ⟨?_, ?_⟩⟩
      · intro hs
        exact hquoted ⟨t, unquote?_toList_iff.2 ⟨q, hq, .inl hs⟩⟩
      · intro hs
        exact hquoted ⟨t, unquote?_toList_iff.2 ⟨q, hq, .inr hs⟩⟩

/-- A text that differs from the one substituted into is given its type. -/
theorem coerce_str_of_ne {given : Tree α} {s : String} (hne : given ≠ .str s) :
    coerce given (.str s : Tree β) = literal s := by
  cases given with
  | atom a =>
    cases a with
    | str t =>
      have hst : s ≠ t := by
        rintro rfl
        exact hne rfl
      exact if_neg hst
    | _ => rfl
  | _ => rfl

/-- The value of a text that differs from the one substituted into is what the text stands for. -/
theorem coerce_eq_iff_typed {given : Tree α} {s : String} (hne : given ≠ .str s) (v : Tree β) :
    coerce given (.str s) = v ↔ Typed s v := by
  rw [coerce_str_of_ne hne]
  constructor
  · rintro rfl
    obtain ⟨v, hv⟩ := exists_typed (β := β) s
    rwa [hv.literal_eq]
  · exact Typed.literal_eq

/-- The outer quotes are taken off, whatever stands between them. -/
theorem coerce_quotes_inside :
    coerce (.str "${self:a}" : Value) (.str "'\n' '" : Value) = .str "\n' " :=
  (coerce_eq_iff_typed (by simp) _).2 (.quoted (q := '\'') rfl "\n' ")

/-- A text that ends with a line break does not end with a quote, but loses both. -/
theorem coerce_line_break :
    (∀ q t, isQuote q = true → "'x'\n" ≠ q.toString ++ t ++ q.toString) ∧
      "'x'\n" ∉ ["undefined", "null", "true", "false"] ∧
      coerce (.str "${self:a}" : Value) (.str "'x'\n" : Value) = .str "x" := by
  refine ⟨fun q t hq h => ?_, by decide, rfl⟩
  have hlast := congrArg (·.toList.getLast?) h
  rw [String.toList_append, String.toList_append, Char.toString_eq_singleton,
    String.toList_singleton, List.getLast?_concat] at hlast
  cases hlast
  cases hq

end LayeredConfig.Template
