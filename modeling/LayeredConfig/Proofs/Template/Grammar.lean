import LayeredConfig.Template.Literal
import LayeredConfig.Template.Placeholder
import Mathlib.Data.List.Infix
import Mathlib.Data.List.TakeWhile

/-!
# The grammar of placeholders

The scanner and the grammar say the same: a text has a placeholder if and only
if the written form of one stands somewhere in it (`hasPlaceholder_iff`).  So no
part of a text without placeholders has one, and taking quotes off cannot make
one.

* `placeholderAt?_eq_some_iff` — what a text starts with.
* `wellFormed_of_mem_scan` — the parts of a placeholder that a scan finds.
* `hasPlaceholder_mono` — a placeholder of a part is one of the whole.
-/

namespace LayeredConfig.Template

/-! ## What a text starts with -/

/-- The parts of a placeholder hold no character that would end them. -/
structure Placeholder.WellFormed (p : Placeholder) : Prop where
  space : ∀ c ∈ p.space, isSpaceChar c = true
  body : ∀ c ∈ p.body, isBodyChar c = true

theorem Sigil.ofChar?_char (s : Sigil) : Sigil.ofChar? s.char = some s := by
  cases s <;> rfl

/-- The longest front that passes a test, when it is followed by a character that fails. -/
theorem takeWhile_append_stop {p : Char → Bool} {front : List Char} {c : Char}
    (hf : ∀ d ∈ front, p d = true) (hc : p c = false) (rest : List Char) :
    (front ++ c :: rest).takeWhile p = front ∧ (front ++ c :: rest).dropWhile p = c :: rest := by
  constructor
  · rw [List.takeWhile_append_of_pos hf, List.takeWhile_cons_of_neg (by simp [hc]), List.append_nil]
  · rw [List.dropWhile_append_of_pos hf, List.dropWhile_cons_of_neg (by simp [hc])]

theorem bodyAt?_append {body rest : List Char} (h : ∀ c ∈ body, isBodyChar c = true) :
    bodyAt? (body ++ '}' :: rest) = some body := by
  obtain ⟨ht, hd⟩ := takeWhile_append_stop (c := '}') h (by decide) rest
  simp only [bodyAt?, hd, ht]

/-- A text that goes on with an opening brace has no body in front. -/
theorem bodyAt?_eq_none_of_brace {body rest : List Char} (h : ∀ c ∈ body, isBodyChar c = true) :
    bodyAt? (body ++ '{' :: rest) = none := by
  obtain ⟨-, hd⟩ := takeWhile_append_stop (c := '{') h (by decide) rest
  simp [bodyAt?, hd]

theorem ofChar?_of_isSpaceChar {c : Char} (h : isSpaceChar c = true) : Sigil.ofChar? c = none := by
  simp only [isSpaceChar, Bool.and_eq_true, decide_eq_true_eq] at h
  simp [Sigil.ofChar?, h.1.2, h.2]

/-- What stands between a sigil with its brace and a colon is the namespace. -/
theorem placeholderAt?_sigil_append (s : Sigil) {space rest : List Char}
    (h : ∀ c ∈ space, isSpaceChar c = true) :
    placeholderAt? (s.char :: '{' :: (space ++ ':' :: rest)) =
      (bodyAt? rest).map fun body => ⟨s, space, body⟩ := by
  obtain ⟨ht, hd⟩ := takeWhile_append_stop (c := ':') h (by decide) rest
  simp only [placeholderAt?, Sigil.ofChar?_char, hd, ht]

theorem placeholderAt?_chars_append {p : Placeholder} (h : p.WellFormed) (rest : List Char) :
    placeholderAt? (p.chars ++ rest) = some p := by
  have hc : p.chars ++ rest =
      p.sigil.char :: '{' :: (p.space ++ ':' :: (p.body ++ '}' :: rest)) := by
    simp [Placeholder.chars]
  rw [hc, placeholderAt?_sigil_append p.sigil h.space, bodyAt?_append h.body]
  rfl

theorem wellFormed_of_placeholderAt? {cs : List Char} {p : Placeholder}
    (h : placeholderAt? cs = some p) : p.WellFormed := by
  unfold placeholderAt? at h
  split at h
  · split at h
    · obtain ⟨body, hb, rfl⟩ := Option.map_eq_some_iff.1 h
      refine ⟨fun c hc => List.mem_takeWhile_imp hc, fun c hc => ?_⟩
      unfold bodyAt? at hb
      split at hb
      · cases hb
        exact List.mem_takeWhile_imp hc
      · cases hb
    · cases h
  · cases h

/-- A text starts with a placeholder if and only if it starts with its written form. -/
theorem placeholderAt?_eq_some_iff {cs : List Char} {p : Placeholder} :
    placeholderAt? cs = some p ↔ p.WellFormed ∧ p.chars <+: cs := by
  constructor
  · intro h
    obtain ⟨rest, hr⟩ := placeholderAt?_eq h
    exact ⟨wellFormed_of_placeholderAt? h, rest, hr.symm⟩
  · rintro ⟨h, rest, rfl⟩
    exact placeholderAt?_chars_append h rest

/-- What is no sigil starts no placeholder. -/
theorem placeholderAt?_eq_none_of_char {c : Char} (h : Sigil.ofChar? c = none) (cs : List Char) :
    placeholderAt? (c :: cs) = none := by
  unfold placeholderAt?
  split
  · rename_i heq
    obtain ⟨rfl, -⟩ := List.cons.inj heq
    rw [h]
  · rfl

/-! ## What a scan finds -/

/-- Every placeholder that a scan finds stands in the text. -/
theorem exists_suffix_of_mem_scanFrom {cs : List Char} {p : Placeholder} {skip : Nat}
    (h : .hole p ∈ scanFrom skip cs) : ∃ b, b <:+ cs ∧ placeholderAt? b = some p := by
  induction cs generalizing skip with
  | nil => cases skip <;> simp [scanFrom] at h
  | cons c cs ih =>
    cases skip with
    | succ n =>
      obtain ⟨b, hb, hp⟩ := ih h
      exact ⟨b, hb.trans (List.suffix_cons c cs), hp⟩
    | zero =>
      simp only [scanFrom] at h
      split at h
      · rename_i q hq
        rcases List.mem_cons.1 h with heq | h
        · cases heq
          exact ⟨_, List.suffix_refl _, hq⟩
        · obtain ⟨b, hb, hp⟩ := ih h
          exact ⟨b, hb.trans (List.suffix_cons c cs), hp⟩
      · rcases List.mem_cons.1 h with heq | h
        · cases heq
        · obtain ⟨b, hb, hp⟩ := ih h
          exact ⟨b, hb.trans (List.suffix_cons c cs), hp⟩

theorem wellFormed_of_mem_scan {cs : List Char} {p : Placeholder} (h : .hole p ∈ scan cs) :
    p.WellFormed := by
  obtain ⟨b, -, hb⟩ := exists_suffix_of_mem_scanFrom h
  exact wellFormed_of_placeholderAt? hb

/-- The first placeholder that stands in a text is found, so a scan finds one if there is one. -/
theorem any_isHole_scanFrom {cs b : List Char} {p : Placeholder} (hb : b <:+ cs)
    (hp : placeholderAt? b = some p) : (scanFrom 0 cs).any Piece.isHole = true := by
  induction cs with
  | nil =>
    rw [List.suffix_nil.1 hb] at hp
    simp [placeholderAt?] at hp
  | cons c cs ih =>
    simp only [scanFrom]
    split
    · simp [Piece.isHole]
    · rename_i hnone
      rcases List.suffix_cons_iff.1 hb with rfl | hb
      · rw [hp] at hnone
        cases hnone
      · simp [ih hb]

/-- A text has a placeholder if and only if the written form of one stands somewhere in it. -/
theorem hasPlaceholder_iff {cs : List Char} :
    hasPlaceholder cs = true ↔ ∃ p : Placeholder, p.WellFormed ∧ p.chars <:+: cs := by
  constructor
  · intro h
    obtain ⟨piece, hmem, hhole⟩ := List.any_eq_true.1 h
    cases piece with
    | char c => cases hhole
    | hole p =>
      obtain ⟨b, hb, hp⟩ := exists_suffix_of_mem_scanFrom hmem
      obtain ⟨hwf, hpre⟩ := placeholderAt?_eq_some_iff.1 hp
      exact ⟨p, hwf, hpre.isInfix.trans hb.isInfix⟩
  · rintro ⟨p, hwf, a, b, rfl⟩
    have hb : p.chars ++ b <:+ a ++ p.chars ++ b := ⟨a, by simp⟩
    exact any_isHole_scanFrom hb (placeholderAt?_chars_append hwf b)

/-- A placeholder of a part is one of the whole. -/
theorem hasPlaceholder_mono {cs ds : List Char} (h : cs <:+: ds)
    (hc : hasPlaceholder cs = true) : hasPlaceholder ds = true := by
  obtain ⟨p, hwf, hp⟩ := hasPlaceholder_iff.1 hc
  exact hasPlaceholder_iff.2 ⟨p, hwf, hp.trans h⟩

theorem not_hasPlaceholder_mono {cs ds : List Char} (h : cs <:+: ds)
    (hd : hasPlaceholder ds = false) : hasPlaceholder cs = false := by
  rw [← Bool.not_eq_true] at hd ⊢
  exact fun hc => hd (hasPlaceholder_mono h hc)

/-- Without an opening brace there is no placeholder. -/
theorem not_hasPlaceholder_of_brace {cs : List Char} (h : '{' ∉ cs) :
    hasPlaceholder cs = false := by
  rw [← Bool.not_eq_true, hasPlaceholder_iff]
  rintro ⟨p, -, hp⟩
  exact h (hp.subset (by simp [Placeholder.chars]))

/-- A body has no opening brace. -/
theorem Placeholder.WellFormed.brace_notMem_body {p : Placeholder} (h : p.WellFormed) :
    '{' ∉ p.body := fun hc => by simpa [isBodyChar] using h.body _ hc

/-! ## Taking quotes off -/

theorem infix_of_beforeLast? {q : Char} {back cs : List Char} (h : beforeLast? q back = some cs) :
    cs <:+: back.reverse := by
  cases back with
  | nil => simp [beforeLast?] at h
  | cons c rest =>
    simp only [beforeLast?] at h
    split at h
    · cases h
      exact (List.reverse_prefix.2 (List.suffix_cons c rest)).isInfix
    · cases h

/-- What stands between quotes is a part of the text. -/
theorem infix_of_unquote? {cs ds : List Char} (h : unquote? cs = some ds) : ds <:+: cs := by
  cases cs with
  | nil => simp [unquote?] at h
  | cons q rest =>
    have hrest : rest <:+: q :: rest := (List.suffix_cons q rest).isInfix
    simp only [unquote?] at h
    split at h
    · split at h
      · rename_i back hback
        have hpre : back.reverse <+: rest := by
          refine ⟨['\n'], ?_⟩
          rw [← List.reverse_reverse rest, hback, List.reverse_cons]
        exact ((infix_of_beforeLast? h).trans hpre.isInfix).trans hrest
      · have := infix_of_beforeLast? h
        rw [List.reverse_reverse] at this
        exact this.trans hrest
    · cases h

end LayeredConfig.Template
