import LayeredConfig.Proofs.Template.Scanner
import LayeredConfig.Value.Atom

/-!
# What placeholders are told by

Placeholders are told by signs, braces and colons, and all other characters are plain.
A text without signs neither holds a placeholder nor starts one: numbers and dates are
written so.  Plain characters may be written in other plain ones.  And what a text ends
with may go on as a placeholder, if the text leaves it open.

* `Template.Unsigned` — a text without signs; `Template.unsigned_double` and others.
* `Template.hasPlaceholder_cons` — where the first character counts.
* `Template.Masks.hasPlaceholder` — plain characters in other forms.
* `Template.LeavesOpen` — a text ends inside of what may become a placeholder.
-/

namespace LayeredConfig.Template

/-! ## Texts without signs -/

/-- No character of the text is a sign that starts a placeholder. -/
def Unsigned (cs : List Char) : Prop :=
  ∀ c ∈ cs, Sigil.ofChar? c = none

instance : DecidablePred Unsigned := fun cs =>
  List.decidableBAll (fun c => Sigil.ofChar? c = none) cs

theorem Unsigned.mono {cs ds : List Char} (h : Unsigned ds) (hsub : cs ⊆ ds) : Unsigned cs :=
  fun c hc => h c (hsub hc)

theorem unsigned_append {s t : String} (hs : Unsigned s.toList) (ht : Unsigned t.toList) :
    Unsigned (s ++ t).toList := by
  rw [String.toList_append]
  exact List.forall_mem_append.2 ⟨hs, ht⟩

theorem unsigned_ofList {cs : List Char} (h : Unsigned cs) : Unsigned (String.ofList cs).toList := by
  rwa [String.toList_ofList]

theorem unsigned_ite {p : Prop} [Decidable p] {s t : String} (hs : Unsigned s.toList)
    (ht : Unsigned t.toList) : Unsigned (if p then s else t).toList := by
  split
  · exact hs
  · exact ht

theorem unsigned_nat (n : Nat) : Unsigned (toString n).toList := by
  intro c hc
  have hdigit : c.isDigit = true := by
    refine Nat.isDigit_of_mem_toDigits (b := 10) (n := n) (by decide) (by decide) ?_
    simpa using hc
  unfold Sigil.ofChar?
  split_ifs with hdollar hat
  · rw [hdollar] at hdigit
    cases hdigit
  · rw [hat] at hdigit
    cases hdigit
  · rfl

theorem unsigned_int (n : Int) : Unsigned (toString n).toList := by
  cases n with
  | ofNat n => exact unsigned_nat n
  | negSucc n =>
    have htext : (toString (Int.negSucc n)).toList = '-' :: (toString (n + 1)).toList := by
      simp [toString, Int.repr]
    rw [htext]
    exact List.forall_mem_cons.2 ⟨rfl, unsigned_nat (n + 1)⟩

theorem unsigned_zeros (n : Nat) : Unsigned (String.ofList (List.replicate n '0')).toList := by
  refine unsigned_ofList fun c hc => ?_
  rw [List.eq_of_mem_replicate hc]
  rfl

theorem unsigned_decimal (d : Double.Decimal) : Unsigned d.text.toList := by
  unfold Double.Decimal.text
  generalize Double.stripZeros 20 d.digits = stripped
  obtain ⟨n, extra⟩ := stripped
  have hall : Unsigned (String.ofList (toString n).toList).toList :=
    unsigned_ofList (unsigned_nat n)
  have htake (k : Nat) : Unsigned (String.ofList ((toString n).toList.take k)).toList :=
    unsigned_ofList ((unsigned_nat n).mono (List.take_subset _ _))
  have hdrop (k : Nat) : Unsigned (String.ofList ((toString n).toList.drop k)).toList :=
    unsigned_ofList ((unsigned_nat n).mono (List.drop_subset _ _))
  refine unsigned_ite (unsigned_ite ?_ (unsigned_ite ?_ ?_)) ?_
  · exact unsigned_append (unsigned_append (by decide) (unsigned_zeros _)) hall
  · exact unsigned_append (unsigned_append hall (unsigned_zeros _)) (by decide)
  · exact unsigned_append (unsigned_append (htake _) (by decide)) (hdrop _)
  · refine unsigned_append (unsigned_append (unsigned_append ?_ ?_) ?_) (unsigned_nat _)
    · exact unsigned_ite hall (unsigned_append (unsigned_append (htake 1) (by decide)) (hdrop 1))
    · exact unsigned_ite (by decide) (by decide)
    · exact unsigned_ite (by decide) (by decide)

theorem unsigned_double (x : Double) : Unsigned x.text.toList := by
  unfold Double.text
  have hsign : Unsigned (if x.isNegative = true then "-" else "").toList :=
    unsigned_ite (by decide) (by decide)
  refine unsigned_ite (by decide) (unsigned_ite ?_ (unsigned_ite ?_ ?_))
  · exact unsigned_append hsign (by decide)
  · exact unsigned_append hsign (by decide)
  · exact unsigned_append hsign (unsigned_decimal _)

theorem unsigned_padDigits (width n : Nat) : Unsigned (padDigits width n).toList :=
  unsigned_append (unsigned_zeros _) (unsigned_nat n)

theorem unsigned_date (d : Date) : Unsigned d.text.toList :=
  unsigned_append (unsigned_append (unsigned_append (unsigned_append (unsigned_padDigits 4 _)
    (by decide)) (unsigned_padDigits 2 _)) (by decide)) (unsigned_padDigits 2 _)

theorem unsigned_offset (o : Int) : Unsigned (DateTime.offsetText o).toList := by
  have hbase : Unsigned ((if o < 0 then "-" else "+") ++ padDigits 2 (o.natAbs / 3600) ++ ":" ++
      padDigits 2 (o.natAbs / 60 % 60)).toList :=
    unsigned_append (unsigned_append (unsigned_append (unsigned_ite (by decide) (by decide))
      (unsigned_padDigits 2 _)) (by decide)) (unsigned_padDigits 2 _)
  exact unsigned_ite hbase
    (unsigned_append (unsigned_append hbase (by decide)) (unsigned_padDigits 2 _))

theorem unsigned_datetime (t : DateTime) : Unsigned t.text.toList := by
  have htwo := unsigned_padDigits 2
  refine unsigned_append (unsigned_append (unsigned_append (unsigned_append (unsigned_append
    (unsigned_append (unsigned_append (unsigned_append (unsigned_date _) ?_) (htwo _)) ?_)
    (htwo _)) ?_) (htwo _)) ?_) ?_
  · decide
  · decide
  · decide
  · exact unsigned_ite (by decide) (unsigned_append (by decide) (unsigned_padDigits 6 _))
  · cases t.offset with
    | none => decide
    | some o => exact unsigned_offset o

/-! ## Scanning character by character -/

theorem hasPlaceholder_iff_suffix {cs : List Char} :
    hasPlaceholder cs = true ↔ ∃ b, b <:+ cs ∧ (placeholderAt? b).isSome = true := by
  constructor
  · intro h
    obtain ⟨piece, hmem, hhole⟩ := List.any_eq_true.1 h
    cases piece with
    | char c => cases hhole
    | hole p =>
      obtain ⟨b, hb, hp⟩ := exists_suffix_of_mem_scanFrom hmem
      exact ⟨b, hb, by rw [hp]; rfl⟩
  · rintro ⟨b, hb, hsome⟩
    obtain ⟨p, hp⟩ := Option.isSome_iff_exists.1 hsome
    exact any_isHole_scanFrom hb hp

/-- A placeholder starts with the first character or stands behind it. -/
theorem hasPlaceholder_cons (c : Char) (cs : List Char) :
    hasPlaceholder (c :: cs) = ((placeholderAt? (c :: cs)).isSome || hasPlaceholder cs) := by
  rw [Bool.eq_iff_iff, Bool.or_eq_true, hasPlaceholder_iff_suffix, hasPlaceholder_iff_suffix]
  constructor
  · rintro ⟨b, hb, hsome⟩
    rcases List.suffix_cons_iff.1 hb with rfl | hb
    · exact .inl hsome
    · exact .inr ⟨b, hb, hsome⟩
  · rintro (hsome | ⟨b, hb, hsome⟩)
    · exact ⟨_, List.suffix_refl _, hsome⟩
    · exact ⟨b, hb.trans (List.suffix_cons c cs), hsome⟩

/-- A text without signs in front does not matter. -/
theorem Unsigned.hasPlaceholder_append {ds : List Char} (h : Unsigned ds) (cs : List Char) :
    hasPlaceholder (ds ++ cs) = hasPlaceholder cs := by
  induction ds with
  | nil => rfl
  | cons d ds ih =>
    obtain ⟨hd, hds⟩ := List.forall_mem_cons.1 h
    rw [List.cons_append, hasPlaceholder_cons, placeholderAt?_eq_none_of_char hd, ih hds]
    rfl

theorem Unsigned.not_hasPlaceholder {cs : List Char} (h : Unsigned cs) :
    hasPlaceholder cs = false := by
  rw [← List.append_nil cs, h.hasPlaceholder_append]
  rfl

/-- The text goes on with a namespace, a colon and a body. -/
def isHeld (cs : List Char) : Bool :=
  match cs.dropWhile isSpaceChar with
  | ':' :: rest => (bodyAt? rest).isSome
  | _ => false

/-- A placeholder starts with a sign and an opening brace, behind which a namespace, a colon and a
body follow. -/
theorem isSome_placeholderAt? (c d : Char) (cs : List Char) :
    (placeholderAt? (c :: d :: cs)).isSome =
      ((Sigil.ofChar? c).isSome && decide (d = '{') && isHeld cs) := by
  by_cases hd : d = '{'
  · rw [hd, placeholderAt?, isHeld]
    generalize cs.dropWhile isSpaceChar = after
    cases Sigil.ofChar? c with
    | none => rfl
    | some sigil =>
      cases after with
      | nil => rfl
      | cons e rest => by_cases he : e = ':' <;> simp [he]
  · simp [placeholderAt?, hd]

/-! ## Characters in other forms -/

/-- Plain characters, which placeholders are not told by, are written in others of them, and all
others as they are. -/
structure Masks (f : Char → List Char) : Prop where
  plain (c : Char) : isSpaceChar c = true → f c ≠ [] ∧ ∀ d ∈ f c, isSpaceChar d = true
  same (c : Char) : isSpaceChar c = false → f c = [c]

theorem isBodyChar_of_isSpaceChar {c : Char} (h : isSpaceChar c = true) : isBodyChar c = true := by
  simp only [isSpaceChar, Bool.and_eq_true] at h
  simp [isBodyChar, of_decide_eq_true h.1.1.1.1, of_decide_eq_true h.1.1.1.2]

/-- Whether a body ends with a closing brace does not depend on plain characters. -/
theorem isSome_bodyAt?_append {ds : List Char} (h : ∀ d ∈ ds, isSpaceChar d = true)
    (cs : List Char) : (bodyAt? (ds ++ cs)).isSome = (bodyAt? cs).isSome := by
  induction ds with
  | nil => rfl
  | cons d ds ih =>
    obtain ⟨hd, hds⟩ := List.forall_mem_cons.1 h
    rw [List.cons_append, bodyAt?_cons, if_pos (isBodyChar_of_isSpaceChar hd), Option.isSome_map,
      ih hds]

theorem isHeld_append {ds : List Char} (h : ∀ d ∈ ds, isSpaceChar d = true) (cs : List Char) :
    isHeld (ds ++ cs) = isHeld cs := by
  rw [isHeld, List.dropWhile_append_of_pos h, isHeld]

namespace Masks

variable {f : Char → List Char}

theorem isSome_bodyAt? (hf : Masks f) (cs rest : List Char) :
    (bodyAt? (cs.flatMap f ++ rest)).isSome = (bodyAt? (cs ++ rest)).isSome := by
  induction cs with
  | nil => rfl
  | cons c cs ih =>
    rw [List.flatMap_cons, List.append_assoc, List.cons_append]
    cases hc : isSpaceChar c with
    | true =>
      rw [isSome_bodyAt?_append (hf.plain c hc).2, ih, bodyAt?_cons,
        if_pos (isBodyChar_of_isSpaceChar hc), Option.isSome_map]
    | false =>
      rw [hf.same c hc, List.singleton_append, bodyAt?_cons, bodyAt?_cons]
      split
      · rw [Option.isSome_map, Option.isSome_map, ih]
      · rfl

theorem isHeld (hf : Masks f) (cs rest : List Char) :
    isHeld (cs.flatMap f ++ rest) = Template.isHeld (cs ++ rest) := by
  induction cs with
  | nil => rfl
  | cons c cs ih =>
    rw [List.flatMap_cons, List.append_assoc, List.cons_append]
    cases hc : isSpaceChar c with
    | true =>
      have hfirst : Template.isHeld (c :: (cs ++ rest)) = Template.isHeld (cs ++ rest) :=
        isHeld_append (List.forall_mem_singleton.2 hc) (cs ++ rest)
      rw [isHeld_append (hf.plain c hc).2, ih, hfirst]
    | false =>
      have hne : ¬ isSpaceChar c = true := by simp [hc]
      rw [hf.same c hc, List.singleton_append, Template.isHeld, Template.isHeld,
        List.dropWhile_cons_of_neg hne, List.dropWhile_cons_of_neg hne]
      by_cases hcolon : c = ':'
      · rw [hcolon]
        exact hf.isSome_bodyAt? cs rest
      · simp [hcolon]

/-- Behind a sign, plain characters in other forms change nothing either. -/
theorem isSome_placeholderAt? (hf : Masks f) (c : Char) (cs rest : List Char) :
    (placeholderAt? (c :: (cs.flatMap f ++ rest))).isSome =
      (placeholderAt? (c :: (cs ++ rest))).isSome := by
  cases cs with
  | nil => rfl
  | cons d cs =>
    rw [List.flatMap_cons, List.append_assoc, List.cons_append, Template.isSome_placeholderAt?]
    cases hd : isSpaceChar d with
    | true =>
      obtain ⟨hne, hplain⟩ := hf.plain d hd
      obtain ⟨e, es, he⟩ := List.exists_cons_of_ne_nil hne
      have hbrace {x : Char} (hx : isSpaceChar x = true) : decide (x = '{') = false := by
        rw [decide_eq_false_iff_not]
        rintro rfl
        cases hx
      rw [he, List.cons_append, Template.isSome_placeholderAt?,
        hbrace (hplain e (he ▸ List.mem_cons_self)), hbrace hd]
      simp
    | false =>
      rw [hf.same d hd, List.singleton_append, Template.isSome_placeholderAt?, hf.isHeld]

/-- Plain characters may be written in other ones: a placeholder of the one text is one of the
other. -/
theorem hasPlaceholder (hf : Masks f) (cs rest : List Char) :
    hasPlaceholder (cs.flatMap f ++ rest) = Template.hasPlaceholder (cs ++ rest) := by
  induction cs with
  | nil => rfl
  | cons c cs ih =>
    rw [List.flatMap_cons, List.append_assoc, List.cons_append, hasPlaceholder_cons]
    cases hc : isSpaceChar c with
    | true =>
      have hunsigned : Unsigned (f c) := fun d hd => ofChar?_of_isSpaceChar ((hf.plain c hc).2 d hd)
      rw [hunsigned.hasPlaceholder_append, ih, placeholderAt?_eq_none_of_char
        (ofChar?_of_isSpaceChar hc)]
      rfl
    | false =>
      rw [hf.same c hc, List.singleton_append, hasPlaceholder_cons, hf.isSome_placeholderAt?, ih]

end Masks

/-! ## Open placeholders -/

/-- The text ends inside of what may become a placeholder: some end of it is a sign, an opening
brace and perhaps more, with which a placeholder goes on. -/
def LeavesOpen (cs : List Char) : Prop :=
  ∃ (p : Placeholder) (b : List Char), p.WellFormed ∧ b <:+ cs ∧ b <+: p.chars ∧ 1 < b.length ∧
    b ≠ p.chars

/-- A text without opening braces leaves nothing open. -/
theorem not_leavesOpen_of_brace {cs : List Char} (h : '{' ∉ cs) : ¬ LeavesOpen cs := by
  rintro ⟨p, b, -, hsuffix, ⟨more, hmore⟩, hlength, -⟩
  match b with
  | [] => cases hlength
  | [_] => exact absurd hlength (Nat.lt_irrefl 1)
  | c :: d :: b =>
    obtain rfl : d = '{' := (List.cons.inj (List.cons.inj hmore).2).1
    exact h (hsuffix.subset (List.mem_cons_of_mem c List.mem_cons_self))

/-- A placeholder that starts in a text in front of a quote ends in it, unless the text leaves it
open. -/
theorem hasPlaceholder_append_quote {cs rest : List Char}
    (h : hasPlaceholder (cs ++ '"' :: rest) = true) :
    hasPlaceholder cs = true ∨ LeavesOpen cs ∨ hasPlaceholder ('"' :: rest) = true := by
  obtain ⟨p, hwf, hinfix⟩ := hasPlaceholder_iff.1 h
  rcases List.infix_append_iff.1 hinfix with hinfix | hinfix | ⟨b, ds, hchars, hb, hds⟩
  · exact .inl (hasPlaceholder_iff.2 ⟨p, hwf, hinfix⟩)
  · exact .inr (.inr (hasPlaceholder_iff.2 ⟨p, hwf, hinfix⟩))
  · match b, ds with
    | b, [] =>
      rw [List.append_nil] at hchars
      exact .inl (hasPlaceholder_iff.2 ⟨p, hwf, hchars ▸ hb.isInfix⟩)
    | [], d :: ds => exact .inr (.inr (hasPlaceholder_iff.2 ⟨p, hwf, hchars ▸ hds.isInfix⟩))
    | [_], d :: ds =>
      -- the second character of a placeholder is no quote
      obtain rfl : d = '"' := by
        obtain ⟨more, hmore⟩ := hds
        exact (List.cons.inj hmore).1
      exact absurd (List.cons.inj (List.cons.inj hchars).2).1 (by decide)
    | c :: c' :: b, d :: ds =>
      refine .inr (.inl ⟨p, _, hwf, hb, ⟨d :: ds, hchars.symm⟩, ?_, ?_⟩)
      · exact Nat.succ_lt_succ (Nat.succ_pos _)
      · rw [hchars]
        simp

end LayeredConfig.Template
