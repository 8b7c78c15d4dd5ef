import LayeredConfig.Proofs.Json.Writing
import LayeredConfig.Proofs.Template.Masked

/-!
# Placeholders in JSON texts

Whether a tree has a placeholder can be looked for in its JSON text.  The escapes of a
text in quotes leave alone what placeholders are told by, and the marks, words and
numbers between two texts hold no sign that could start one.  So each placeholder of the
JSON text starts in a text of the tree, and ends there too, unless that text leaves it
open: then the marks that follow may close it.

* `Json.masks_escapeChar` — escapes do not matter for placeholders.
* `Json.texts` — the texts in a tree.
* `Json.hasPlaceholder_of_texts` — where the placeholders of a JSON text come from.
-/

namespace LayeredConfig.Json

open Template

variable {α : Type}

/-! ## Texts in quotes -/

theorem isSpaceChar_of_mem_hexDigits {width n : Nat} {c : Char} (h : c ∈ Text.hexDigits width n) :
    isSpaceChar c = true := by
  induction width generalizing n with
  | zero => cases h
  | succ width ih =>
    have hdigit : ∀ m < 16, isSpaceChar (Text.hexDigit m) = true := by decide
    rcases List.mem_append.1 h with h | h
    · exact ih h
    · rw [List.mem_singleton.1 h]
      exact hdigit _ (Nat.mod_lt n (by decide))

theorem isSpaceChar_of_mem_unitEscape {n : Nat} {c : Char} (h : c ∈ unitEscape n) :
    isSpaceChar c = true := by
  rcases List.mem_cons.1 h with rfl | h
  · rfl
  · rcases List.mem_cons.1 h with rfl | h
    · rfl
    · exact isSpaceChar_of_mem_hexDigits h

/-- Escapes are made of plain characters, and no character that placeholders are told by is
escaped. -/
theorem masks_escapeChar : Masks escapeChar where
  plain c hc := by
    have hpair {d : Char} (hd : isSpaceChar d = true) :
        ['\\', d] ≠ [] ∧ ∀ e ∈ ['\\', d], isSpaceChar e = true := by
      refine ⟨List.cons_ne_nil _ _, List.forall_mem_cons.2 ⟨rfl, ?_⟩⟩
      exact List.forall_mem_singleton.2 hd
    unfold escapeChar
    split_ifs
    · exact hpair hc
    · exact hpair rfl
    · exact hpair rfl
    · exact hpair rfl
    · exact hpair rfl
    · exact hpair rfl
    · exact ⟨List.cons_ne_nil _ _, List.forall_mem_singleton.2 hc⟩
    · exact ⟨List.cons_ne_nil _ _, fun d hd => isSpaceChar_of_mem_unitEscape hd⟩
    · refine ⟨List.cons_ne_nil _ _, fun d hd => ?_⟩
      rcases List.mem_append.1 hd with hd | hd
      · exact isSpaceChar_of_mem_unitEscape hd
      · exact isSpaceChar_of_mem_unitEscape hd
  same c hc := by
    have hcases : c = '{' ∨ c = '}' ∨ c = ':' ∨ c = '$' ∨ c = '@' := by
      simp only [isSpaceChar] at hc
      simp at hc
      tauto
    rcases hcases with rfl | rfl | rfl | rfl | rfl <;> rfl

/-- The quotes and escapes of a text do not matter for placeholders. -/
theorem hasPlaceholder_quote (cs rest : List Char) :
    hasPlaceholder (quote cs ++ rest) = hasPlaceholder (cs ++ '"' :: rest) := by
  have hquote : quote cs ++ rest = ['"'] ++ (cs.flatMap escapeChar ++ '"' :: rest) := by
    simp [quote]
  have hunsigned : Unsigned ['"'] := by decide
  rw [hquote, hunsigned.hasPlaceholder_append, masks_escapeChar.hasPlaceholder]

/-! ## The texts of a tree -/

/-- The texts of a scalar: itself, or the text form of what JSON does not know. -/
def atomTexts : Atom → List String
  | .null => []
  | .bool _ => []
  | .int _ => []
  | .float _ => []
  | a => [a.text]

mutual

/-- The texts in a tree: those of its values and of its keys, at any depth. -/
def texts : Tree α → List String
  | .atom a => atomTexts a
  | .list _ items => itemTexts items
  | .tuple items => itemTexts items
  | .map _ es => entryTexts es
  | .set members => [setText members]

/-- The texts in items. -/
def itemTexts : List (Tree α) → List String
  | [] => []
  | x :: xs => texts x ++ itemTexts xs

/-- The texts in entries. -/
def entryTexts : List (Key × Tree α) → List String
  | [] => []
  | (k, v) :: es => keyName k :: (texts v ++ entryTexts es)

end

/-- The text of a part that stands in quotes. -/
def Token.text? : Token → Option String
  | text cs => some (String.ofList cs)
  | mark _ => none

@[simp] theorem filterMap_text (cs : List Char) (ts : List Token) :
    (Token.text cs :: ts).filterMap Token.text? =
      String.ofList cs :: ts.filterMap Token.text? := rfl

@[simp] theorem filterMap_mark (cs : List Char) (ts : List Token) :
    (Token.mark cs :: ts).filterMap Token.text? = ts.filterMap Token.text? := rfl

/-- What stands between the texts has no signs. -/
def UnsignedMarks (ts : List Token) : Prop :=
  ∀ cs, Token.mark cs ∈ ts → Unsigned cs

@[simp] theorem unsignedMarks_append {ts us : List Token} :
    UnsignedMarks (ts ++ us) ↔ UnsignedMarks ts ∧ UnsignedMarks us := by
  simp only [UnsignedMarks, List.mem_append, or_imp, forall_and]

@[simp] theorem unsignedMarks_mark {cs : List Char} {ts : List Token} :
    UnsignedMarks (.mark cs :: ts) ↔ Unsigned cs ∧ UnsignedMarks ts := by
  simp [UnsignedMarks, or_imp, forall_and]

@[simp] theorem unsignedMarks_text {cs : List Char} {ts : List Token} :
    UnsignedMarks (.text cs :: ts) ↔ UnsignedMarks ts := by
  simp [UnsignedMarks]

@[simp] theorem unsignedMarks_nil : UnsignedMarks [] := by
  simp [UnsignedMarks]

theorem unsignedMarks_atom (a : Atom) : UnsignedMarks [atomToken a] := by
  cases a with
  | null => exact unsignedMarks_mark.2 ⟨by decide, unsignedMarks_nil⟩
  | bool b =>
    refine unsignedMarks_mark.2 ⟨?_, unsignedMarks_nil⟩
    exact unsigned_ite (s := "true") (t := "false") (by decide) (by decide)
  | int n => exact unsignedMarks_mark.2 ⟨unsigned_int n, unsignedMarks_nil⟩
  | float x =>
    refine unsignedMarks_mark.2 ⟨?_, unsignedMarks_nil⟩
    exact unsigned_ite (by decide)
      (unsigned_ite (unsigned_ite (by decide) (by decide)) (unsigned_double x))
  | _ => exact unsignedMarks_text.2 unsignedMarks_nil

theorem unsigned_marks : Unsigned ['['] ∧ Unsigned [']'] ∧ Unsigned ['{'] ∧ Unsigned ['}'] ∧
    Unsigned [',', ' '] ∧ Unsigned [':', ' '] := by
  decide

mutual

theorem unsignedMarks_tokens : (t : Tree α) → UnsignedMarks (tokens t)
  | .atom a => unsignedMarks_atom a
  | .list _ items => by simp [tokens, unsigned_marks, unsignedMarks_itemTokens items]
  | .tuple items => by simp [tokens, unsigned_marks, unsignedMarks_itemTokens items]
  | .map _ es => by simp [tokens, unsigned_marks, unsignedMarks_entryTokens es]
  | .set members => by simp [tokens]

theorem unsignedMarks_itemTokens : (items : List (Tree α)) → UnsignedMarks (itemTokens items)
  | [] => unsignedMarks_nil
  | [x] => unsignedMarks_tokens x
  | x :: y :: ys => by
    rw [itemTokens_cons]
    simp [unsigned_marks, unsignedMarks_tokens x, unsignedMarks_itemTokens (y :: ys)]

theorem unsignedMarks_entryTokens :
    (es : List (Key × Tree α)) → UnsignedMarks (entryTokens es)
  | [] => unsignedMarks_nil
  | [(k, v)] => by simp [entryTokens, unsigned_marks, unsignedMarks_tokens v]
  | (k, v) :: e :: es => by
    rw [entryTokens_cons]
    simp [unsigned_marks, unsignedMarks_tokens v, unsignedMarks_entryTokens (e :: es)]

end

theorem filterMap_atomToken (a : Atom) : [atomToken a].filterMap Token.text? = atomTexts a := by
  cases a <;> simp [atomToken, atomTexts]

mutual

/-- The parts in quotes are the texts of the tree, from left to right. -/
theorem filterMap_tokens : (t : Tree α) → (tokens t).filterMap Token.text? = texts t
  | .atom a => filterMap_atomToken a
  | .list _ items => by simp [tokens, texts, filterMap_itemTokens items]
  | .tuple items => by simp [tokens, texts, filterMap_itemTokens items]
  | .map _ es => by simp [tokens, texts, filterMap_entryTokens es]
  | .set members => by simp [tokens, texts]

theorem filterMap_itemTokens :
    (items : List (Tree α)) → (itemTokens items).filterMap Token.text? = itemTexts items
  | [] => rfl
  | [x] => by simp [itemTokens, itemTexts, filterMap_tokens x]
  | x :: y :: ys => by
    have ih := filterMap_itemTokens (y :: ys)
    rw [itemTokens_cons, itemTexts]
    simp [filterMap_tokens x, ih]

theorem filterMap_entryTokens :
    (es : List (Key × Tree α)) → (entryTokens es).filterMap Token.text? = entryTexts es
  | [] => rfl
  | [(k, v)] => by simp [entryTokens, entryTexts, filterMap_tokens v]
  | (k, v) :: e :: es => by
    have ih := filterMap_entryTokens (e :: es)
    rw [entryTokens_cons, entryTexts]
    simp [filterMap_tokens v, ih]

end

/-! ## Placeholders of the whole -/

/-- A placeholder of a part in quotes is one of the whole. -/
theorem hasPlaceholder_written_of_mem {ts : List Token} {cs : List Char}
    (hmem : .text cs ∈ ts) (h : hasPlaceholder cs = true) : hasPlaceholder (written ts) = true := by
  obtain ⟨before, after, rfl⟩ := List.append_of_mem hmem
  have hwhole : written (before ++ .text cs :: after) =
      written before ++ (quote cs ++ written after) := by
    simp [written, Token.chars]
  rw [hwhole]
  refine hasPlaceholder_mono (List.suffix_append _ _).isInfix ?_
  rw [hasPlaceholder_quote]
  exact hasPlaceholder_mono (List.prefix_append _ _).isInfix h

/-- If nothing is left open, a placeholder of the whole is one of a part in quotes. -/
theorem exists_text_of_hasPlaceholder {ts : List Token} (hmarks : UnsignedMarks ts)
    (hclosed : ∀ cs, .text cs ∈ ts → ¬ LeavesOpen cs) (h : hasPlaceholder (written ts) = true) :
    ∃ cs, .text cs ∈ ts ∧ hasPlaceholder cs = true := by
  induction ts with
  | nil => cases h
  | cons part ts ih =>
    have hlater (cs : List Char) (hmem : .text cs ∈ ts) := hclosed cs (List.mem_cons_of_mem part hmem)
    rw [written, List.flatMap_cons] at h
    cases part with
    | mark cs =>
      obtain ⟨hunsigned, hmarks⟩ := unsignedMarks_mark.1 hmarks
      rw [Token.chars, hunsigned.hasPlaceholder_append] at h
      obtain ⟨ds, hmem, hds⟩ := ih hmarks hlater h
      exact ⟨ds, List.mem_cons_of_mem _ hmem, hds⟩
    | text cs =>
      rw [Token.chars, hasPlaceholder_quote] at h
      rcases hasPlaceholder_append_quote h with hcs | hopen | hrest
      · exact ⟨cs, List.mem_cons_self, hcs⟩
      · exact absurd hopen (hclosed cs List.mem_cons_self)
      · have hquote : Unsigned ['"'] := by decide
        have hwritten := hquote.hasPlaceholder_append (written ts)
        rw [List.singleton_append, written, hrest] at hwritten
        obtain ⟨ds, hmem, hds⟩ := ih (unsignedMarks_text.1 hmarks) hlater hwritten.symm
        exact ⟨ds, List.mem_cons_of_mem _ hmem, hds⟩

theorem mem_texts_iff {t : Tree α} {s : String} : s ∈ texts t ↔ .text s.toList ∈ tokens t := by
  rw [← filterMap_tokens, List.mem_filterMap]
  constructor
  · rintro ⟨part, hmem, hpart⟩
    cases part with
    | text cs =>
      obtain rfl : String.ofList cs = s := Option.some.inj hpart
      rwa [String.toList_ofList]
    | mark cs => cases hpart
  · intro hmem
    exact ⟨_, hmem, by simp [Token.text?]⟩

/-- The JSON text of a tree has a placeholder if one of its texts has one, and only then if none of
them leaves one open. -/
theorem hasPlaceholder_of_texts {t : Tree α} {cs : List Char} (h : chars? t = .ok cs) :
    (∀ s ∈ texts t, hasPlaceholder s.toList = true → hasPlaceholder cs = true) ∧
      ((∀ s ∈ texts t, ¬ LeavesOpen s.toList) → hasPlaceholder cs = true →
        ∃ s ∈ texts t, hasPlaceholder s.toList = true) := by
  obtain rfl : written (tokens t) = cs := by
    rw [chars?_eq] at h
    cases hfaults : check (faults t) <;> rw [hfaults] at h <;> cases h
    rfl
  constructor
  · intro s hs
    exact hasPlaceholder_written_of_mem (mem_texts_iff.1 hs)
  · intro hclosed hcs
    have hparts (ds : List Char) (hmem : .text ds ∈ tokens t) : ¬ LeavesOpen ds := by
      have hds := hclosed (String.ofList ds) (mem_texts_iff.2 (by rwa [String.toList_ofList]))
      rwa [String.toList_ofList] at hds
    obtain ⟨ds, hmem, hds⟩ := exists_text_of_hasPlaceholder (unsignedMarks_tokens t) hparts hcs
    refine ⟨String.ofList ds, mem_texts_iff.2 ?_, ?_⟩
    · rwa [String.toList_ofList]
    · rwa [String.toList_ofList]

end LayeredConfig.Json
