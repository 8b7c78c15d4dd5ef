import LayeredConfig.Text.Utf8
import Mathlib.Data.List.TakeWhile
import Mathlib.Data.UInt

/-!
# What is UTF-8

Bytes are read as a text exactly if they are what some text is written as, and then they
give that text.  A sequence of bytes stands for a character if its first byte tells its
length and the others fit; such sequences are the ones that characters are written as.
It does not matter whether a file is read at once or in blocks: a block ends with the
front part of a sequence at most, which is put in front of the next one.

* `Text.Utf8.exists_encodeChar`, `Text.Utf8.encodeChar_of_fits` — sequences and characters.
* `Text.Utf8.decode_eq_ok_iff` — reading at once undoes writing.
* `Text.Utf8.decodeInBlocks_eq_iff` — and so does reading in blocks.
-/

namespace LayeredConfig.Text.Utf8

/-! ## Sequences -/

theorem isTail_iff {b : UInt8} : isTail b = true ↔ 128 ≤ b.toNat ∧ b.toNat < 192 := by
  simp [isTail]

theorem secondFits_iff {first second : UInt8} : secondFits first second = true ↔
    128 ≤ second.toNat ∧ second.toNat < 192 ∧ (first.toNat = 0xe0 → 0xa0 ≤ second.toNat) ∧
      (first.toNat = 0xed → second.toNat < 0xa0) ∧ (first.toNat = 0xf0 → 0x90 ≤ second.toNat) ∧
        (first.toNat = 0xf4 → second.toNat < 0x90) := by
  rw [secondFits, Bool.and_eq_true, isTail_iff]
  split
  case h_5 h0 h1 h2 h3 =>
    constructor
    · rintro ⟨⟨hle, hlt⟩, -⟩
      exact ⟨hle, hlt, fun h => absurd h h0, fun h => absurd h h1, fun h => absurd h h2,
        fun h => absurd h h3⟩
    · rintro ⟨hle, hlt, -⟩
      exact ⟨⟨hle, hlt⟩, rfl⟩
  all_goals
    rw [decide_eq_true_iff]
    omega

theorem sequenceLength?_eq_some_iff {b : UInt8} {n : Nat} : sequenceLength? b = some n ↔
    b.toNat < 0x80 ∧ n = 1 ∨ 0xc2 ≤ b.toNat ∧ b.toNat < 0xe0 ∧ n = 2 ∨
      0xe0 ≤ b.toNat ∧ b.toNat < 0xf0 ∧ n = 3 ∨ 0xf0 ≤ b.toNat ∧ b.toNat < 0xf5 ∧ n = 4 := by
  unfold sequenceLength?
  dsimp only
  split_ifs
  all_goals simp only [Option.some.injEq, false_iff]
  all_goals omega

/-- The bytes may follow a first one. -/
def fits (first : UInt8) : List UInt8 → Bool
  | [] => true
  | b :: bs => secondFits first b && bs.all isTail

/-- The sequence of a character: its first byte tells its length, the others fit, and they write the
code of the character. -/
theorem exists_encodeChar (c : Char) : ∃ first tail, encodeChar c = first :: tail ∧
    sequenceLength? first = some (tail.length + 1) ∧ fits first tail = true ∧
      sequenceValue first tail = c.toNat := by
  have hvalid : c.toNat < 0xd800 ∨ 0xdfff < c.toNat ∧ c.toNat < 0x110000 := c.valid
  unfold encodeChar
  generalize c.toNat = n at hvalid
  dsimp only
  split_ifs
  all_goals
    refine ⟨_, _, rfl, ?_, ?_, ?_⟩
    · simp only [sequenceLength?_eq_some_iff, UInt8.toNat_ofNat', List.length_cons,
        List.length_nil, and_true]
      omega
    · simp only [fits, List.all, Bool.and_eq_true, secondFits_iff, isTail_iff, UInt8.toNat_ofNat',
        Nat.pow_eq, and_true] <;> omega
    · simp only [sequenceValue, List.length, List.foldl, UInt8.toNat_ofNat', Nat.pow_eq]
      omega

theorem toNat_ofNat_of_isValidChar {n : Nat} (h : n.isValidChar) : (Char.ofNat n).toNat = n := by
  rw [Char.ofNat, dif_pos h]
  rfl

/-- Bytes of which the first tells the length, and the others fit, are the sequence of a
character. -/
theorem encodeChar_of_fits {first : UInt8} {tail : List UInt8}
    (hlength : sequenceLength? first = some (tail.length + 1)) (hfits : fits first tail = true) :
    encodeChar (Char.ofNat (sequenceValue first tail)) = first :: tail := by
  rw [sequenceLength?_eq_some_iff] at hlength
  refine List.map_injective_iff.2 (fun _ _ => UInt8.toNat_inj.1) ?_
  match tail with
  | [] =>
    simp only [sequenceValue, List.length, List.foldl] at hlength ⊢
    rw [encodeChar, toNat_ofNat_of_isValidChar (by left; omega)]
    dsimp only
    rw [if_pos (by omega)]
    simp only [List.map, UInt8.toNat_ofNat', List.cons.injEq, and_true]
    omega
  | [a] =>
    simp only [sequenceValue, List.length, List.foldl, fits, secondFits_iff, List.all,
      Bool.and_true] at hlength hfits ⊢
    rw [encodeChar, toNat_ofNat_of_isValidChar (by left; omega)]
    dsimp only
    rw [if_neg (by omega), if_pos (by omega)]
    simp only [List.map, UInt8.toNat_ofNat', List.cons.injEq, and_true, Nat.pow_eq]
    omega
  | [a, b] =>
    simp only [sequenceValue, List.length, List.foldl, fits, secondFits_iff, isTail_iff, List.all,
      Bool.and_true, Bool.and_eq_true] at hlength hfits ⊢
    rw [encodeChar, toNat_ofNat_of_isValidChar (by unfold Nat.isValidChar; omega)]
    dsimp only
    rw [if_neg (by omega), if_neg (by omega), if_pos (by omega)]
    simp only [List.map, UInt8.toNat_ofNat', List.cons.injEq, and_true, Nat.pow_eq]
    omega
  | [a, b, c] =>
    simp only [sequenceValue, List.length, List.foldl, fits, secondFits_iff, isTail_iff, List.all,
      Bool.and_true, Bool.and_eq_true] at hlength hfits ⊢
    rw [encodeChar, toNat_ofNat_of_isValidChar (by unfold Nat.isValidChar; omega)]
    dsimp only
    rw [if_neg (by omega), if_neg (by omega), if_neg (by omega)]
    simp only [List.map, UInt8.toNat_ofNat', List.cons.injEq, and_true, Nat.pow_eq]
    omega
  | a :: b :: c :: d :: more => simp at hlength

theorem encodeChar_ne_nil (c : Char) : encodeChar c ≠ [] := by
  obtain ⟨first, tail, h, -⟩ := exists_encodeChar c
  simp [h]

/-! ## One step -/

/-- As many bytes fit as are wanted, or as are there. -/
theorem fitting_append {first : UInt8} {count : Nat} {front : List UInt8} (rest : List UInt8)
    (hfits : fits first front = true) (hlength : front.length ≤ count)
    (hrest : rest = [] ∨ front.length = count) :
    fitting first count (front ++ rest) = front.length := by
  cases front with
  | nil =>
    rcases hrest with rfl | rfl
    · cases count <;> rfl
    · rfl
  | cons b front =>
    obtain ⟨hsecond, htail⟩ := Bool.and_eq_true_iff.1 hfits
    cases count with
    | zero => cases hlength
    | succ count =>
      have hfront : (front ++ rest).take count = front := by
        rcases hrest with rfl | hlength'
        · rw [List.append_nil, List.take_of_length_le (Nat.le_of_succ_le_succ hlength)]
        · exact List.take_left' (Nat.succ.inj hlength')
      rw [List.cons_append, fitting, if_pos hsecond, hfront,
        List.takeWhile_eq_self_iff.2 (List.all_eq_true.1 htail), List.length_cons, Nat.add_comm]

theorem fits_take_of_fitting {first : UInt8} {count : Nat} {bytes : List UInt8}
    (h : fitting first count bytes = count) :
    (bytes.take count).length = count ∧ fits first (bytes.take count) = true := by
  cases count with
  | zero => exact ⟨rfl, rfl⟩
  | succ count =>
    cases bytes with
    | nil => cases h
    | cons b rest =>
      rw [fitting] at h
      split at h
      · rename_i hsecond
        have hwhole : (rest.take count).takeWhile isTail = rest.take count := by
          refine (List.takeWhile_prefix isTail).eq_of_length ?_
          have hle := (List.takeWhile_prefix (l := rest.take count) isTail).length_le
          have htake := List.length_take_le count rest
          omega
        rw [hwhole] at h
        rw [List.take_succ_cons]
        constructor
        · rw [List.length_cons]
          omega
        · rw [fits, hsecond, ← hwhole]
          exact List.all_takeWhile
      · cases h

/-- A character is read where its sequence stands. -/
theorem step_encodeChar {c : Char} {first : UInt8} {tail : List UInt8}
    (h : encodeChar c = first :: tail) (rest : List UInt8) :
    step first (tail ++ rest) = .char c (tail.length + 1) := by
  obtain ⟨first', tail', hchar, hlength, hfits, hvalue⟩ := exists_encodeChar c
  obtain ⟨rfl, rfl⟩ := List.cons.inj (hchar.symm.trans h)
  have hgood := fitting_append rest hfits le_rfl (.inr rfl)
  simp only [step, hlength, Nat.add_sub_cancel, hgood, if_true, List.take_left', hvalue,
    Char.ofNat_toNat]

/-- The front part of a sequence is cut off at the end. -/
theorem step_front {c : Char} {first : UInt8} {front back : List UInt8}
    (h : encodeChar c = first :: (front ++ back)) (hback : back ≠ []) :
    step first front = .fault .truncated (front.length + 1) := by
  obtain ⟨first', tail, hchar, hlength, hfits, -⟩ := exists_encodeChar c
  obtain ⟨rfl, rfl⟩ := List.cons.inj (hchar.symm.trans h)
  have hfront : fits first' front = true := by
    cases front with
    | nil => rfl
    | cons b front =>
      rw [List.cons_append, fits, List.all_append] at hfits
      rw [fits]
      simp only [Bool.and_eq_true] at hfits ⊢
      exact ⟨hfits.1, hfits.2.1⟩
  have hpos : 0 < back.length := List.length_pos_iff.2 hback
  have hle : front.length ≤ (front ++ back).length := by
    rw [List.length_append]
    omega
  have hgood := fitting_append [] hfront hle (.inl rfl)
  rw [List.append_nil] at hgood
  have hne : front.length ≠ (front ++ back).length := by
    rw [List.length_append]
    omega
  simp only [step, hlength, Nat.add_sub_cancel, hgood, if_neg hne, if_true]

/-- What is read is a character whose sequence stands there. -/
theorem exists_of_step_char {first : UInt8} {rest : List UInt8} {c : Char} {n : Nat}
    (h : step first rest = .char c n) : ∃ tail rest', rest = tail ++ rest' ∧ n = tail.length + 1 ∧
      encodeChar c = first :: tail := by
  unfold step at h
  split at h
  · cases h
  · rename_i n' hlength
    dsimp only at h
    split at h
    · rename_i hgood
      obtain ⟨hcount, hfits⟩ := fits_take_of_fitting hgood
      rw [hgood] at h
      have hpos : 0 < n' := by
        rcases sequenceLength?_eq_some_iff.1 hlength with h | h | h | h <;> omega
      cases h
      refine ⟨rest.take (n - 1), rest.drop (n - 1), (List.take_append_drop _ _).symm, by omega, ?_⟩
      refine encodeChar_of_fits ?_ hfits
      rw [hcount, hlength, Nat.sub_add_cancel hpos]
    · split at h <;> cases h

theorem eq_of_step_truncated {first : UInt8} {rest : List UInt8} {n : Nat}
    (h : step first rest = .fault .truncated n) : n = rest.length + 1 := by
  unfold step at h
  split at h
  · cases h
  · dsimp only at h
    split at h
    · cases h
    · split at h
      · rename_i hgood
        cases h
        rw [hgood]
      · cases h

/-! ## Texts -/

/-- The bytes are the front part of a sequence, which goes on after them. -/
def Partial (bytes : List UInt8) : Prop :=
  ∃ c back, back ≠ [] ∧ encodeChar c = bytes ++ back

theorem partial_nil : Partial [] :=
  ⟨'a', _, encodeChar_ne_nil 'a', rfl⟩

theorem encode_cons (c : Char) (cs : List Char) : encode (c :: cs) = encodeChar c ++ encode cs :=
  List.flatMap_cons

theorem encode_append (cs ds : List Char) : encode (cs ++ ds) = encode cs ++ encode ds :=
  List.flatMap_append

theorem decodeFrom_skip (position : Nat) (front rest : List UInt8) :
    decodeFrom position front.length (front ++ rest) =
      decodeFrom (position + front.length) 0 rest := by
  induction front generalizing position with
  | nil => rfl
  | cons b front ih =>
    rw [List.length_cons, List.cons_append, decodeFrom, ih]
    congr 1
    omega

theorem decodeFrom_encodeChar (position : Nat) (c : Char) (rest : List UInt8) :
    decodeFrom position 0 (encodeChar c ++ rest) =
      (decodeFrom (position + (encodeChar c).length) 0 rest).map fun r => (c :: r.1, r.2) := by
  obtain ⟨first, tail, h, -⟩ := exists_encodeChar c
  rw [h, List.cons_append, decodeFrom, step_encodeChar h]
  dsimp only
  rw [Nat.add_sub_cancel, decodeFrom_skip, List.length_cons,
    show position + 1 + tail.length = position + (tail.length + 1) by omega]
  cases decodeFrom (position + (tail.length + 1)) 0 rest <;> rfl

/-- What a text is written as is read as that text, and the front part of a further sequence is cut
off. -/
theorem decodeFrom_encode (position : Nat) (cs : List Char) {rest : List UInt8}
    (hrest : Partial rest) : decodeFrom position 0 (encode cs ++ rest) = .ok (cs, rest.length) := by
  induction cs generalizing position with
  | nil =>
    cases rest with
    | nil => rfl
    | cons first front =>
      obtain ⟨c, back, hback, h⟩ := hrest
      show decodeFrom position 0 (first :: front) = _
      rw [decodeFrom, step_front h hback]
      rfl
  | cons c cs ih =>
    rw [encode_cons, List.append_assoc, decodeFrom_encodeChar, ih]
    rfl

/-- What is read as a text is what the text is written as, but for what is cut off. -/
theorem exists_of_decodeFrom {position cut : Nat} {cs : List Char} {bytes : List UInt8}
    (h : decodeFrom position 0 bytes = .ok (cs, cut)) :
    ∃ rest, bytes = encode cs ++ rest ∧ rest.length = cut := by
  induction cs generalizing position bytes with
  | nil =>
    cases bytes with
    | nil =>
      cases h
      exact ⟨[], rfl, rfl⟩
    | cons first rest =>
      rw [decodeFrom] at h
      split at h
      · rename_i n hstep
        cases h
        exact ⟨first :: rest, rfl, (eq_of_step_truncated hstep).symm⟩
      · cases h
      · split at h <;> cases h
  | cons c cs ih =>
    cases bytes with
    | nil => cases h
    | cons first rest =>
      rw [decodeFrom] at h
      split at h
      · cases h
      · cases h
      · rename_i c' n hstep
        obtain ⟨tail, rest', rfl, rfl, hchar⟩ := exists_of_step_char hstep
        rw [Nat.add_sub_cancel, decodeFrom_skip] at h
        split at h
        · rename_i cs' cut' hlater
          cases h
          obtain ⟨rest, rfl, hcut⟩ := ih hlater
          exact ⟨rest, by rw [encode_cons, hchar]; simp, hcut⟩
        · cases h

/-- Bytes are read as a text just if it is written as them. -/
theorem decode_eq_ok_iff {bytes : List UInt8} {cs : List Char} :
    decode bytes = .ok cs ↔ bytes = encode cs := by
  constructor
  · intro h
    unfold decode at h
    split at h
    · cases h
    · rename_i cs' hread
      cases h
      obtain ⟨rest, rfl, hrest⟩ := exists_of_decodeFrom hread
      rw [List.length_eq_zero_iff.1 hrest, List.append_nil]
    · cases h
  · rintro rfl
    have hread := decodeFrom_encode 0 cs partial_nil
    rw [List.append_nil] at hread
    rw [decode, hread]
    rfl

/-! ## Blocks -/

/-- A text is not the front part of a single sequence. -/
theorem eq_nil_of_partial_encode {cs : List Char} (h : Partial (encode cs)) : cs = [] := by
  have hread := decodeFrom_encode 0 cs partial_nil
  have hcut := decodeFrom_encode 0 [] h
  rw [List.append_nil] at hread
  exact (Prod.mk.inj (Except.ok.inj (hread.symm.trans hcut))).1

/-- Wherever what a text is written as is split, the first part ends with the front part of a
sequence at most. -/
theorem exists_take_encode (cs : List Char) (n : Nat) : ∃ front back rest, cs = front ++ back ∧
    (encode cs).take n = encode front ++ rest ∧ Partial rest ∧
      rest ++ (encode cs).drop n = encode back := by
  induction cs generalizing n with
  | nil => exact ⟨[], [], [], rfl, by simp [encode], partial_nil, by simp [encode]⟩
  | cons c cs ih =>
    rw [encode_cons, List.take_append, List.drop_append]
    by_cases hn : n < (encodeChar c).length
    · have hzero : n - (encodeChar c).length = 0 := by omega
      refine ⟨[], c :: cs, (encodeChar c).take n, rfl, ?_, ⟨c, (encodeChar c).drop n, ?_, ?_⟩, ?_⟩
      · rw [hzero, List.take_zero, List.append_nil]
        rfl
      · rw [Ne, List.drop_eq_nil_iff]
        omega
      · exact (List.take_append_drop _ _).symm
      · rw [hzero, List.drop_zero, ← List.append_assoc, List.take_append_drop, encode_cons]
    · obtain ⟨front, back, rest, rfl, htake, hrest, hdrop⟩ := ih (n - (encodeChar c).length)
      refine ⟨c :: front, back, rest, rfl, ?_, hrest, ?_⟩
      · rw [htake, List.take_of_length_le (by omega), encode_cons, List.append_assoc]
      · rw [List.drop_of_length_le (by omega), List.nil_append, hdrop]

/-- Blocks are read as the text that they are written as, with what the block before has cut off. -/
theorem decodeBlocks_encode {fuel : Nat} {pending bytes : List UInt8} {cs : List Char}
    (hpending : Partial pending) (h : pending ++ bytes = encode cs)
    (hfuel : bytes.length ≤ fuel * blockSize) : decodeBlocks fuel pending bytes = (cs, none) := by
  have hend : bytes = [] → cs = [] ∧ pending = [] := by
    rintro rfl
    rw [List.append_nil] at h
    rw [h] at hpending
    obtain rfl := eq_nil_of_partial_encode hpending
    exact ⟨rfl, h⟩
  -- the invariant is that the bytes that wait are the front part of a single sequence
  induction fuel generalizing pending bytes cs with
  | zero =>
    obtain ⟨rfl, rfl⟩ := hend (List.length_eq_zero_iff.1 (by omega))
    rw [decodeBlocks]
    rfl
  | succ fuel ih =>
    rw [decodeBlocks]
    cases hbytes : bytes.isEmpty with
    | true =>
      obtain ⟨rfl, rfl⟩ := hend (List.isEmpty_iff.1 hbytes)
      rw [if_pos rfl, decodeBlocks]
      rfl
    | false =>
      obtain ⟨front, back, rest, rfl, htake, hrest, hdrop⟩ :=
        exists_take_encode cs (pending.length + blockSize)
      rw [← h, List.take_append, List.take_of_length_le (by omega), Nat.add_sub_cancel_left]
        at htake
      rw [← h, List.drop_append, List.drop_of_length_le (by omega), List.nil_append,
        Nat.add_sub_cancel_left] at hdrop
      have hblock : (encode front ++ rest).drop ((encode front ++ rest).length - rest.length) =
          rest := by
        rw [List.length_append, Nat.add_sub_cancel, List.drop_left']
        rfl
      have hlater : decodeBlocks fuel rest (bytes.drop blockSize) = (back, none) := by
        refine ih hrest hdrop ?_ fun hnil => ?_
        · rw [List.length_drop]
          rw [Nat.succ_mul] at hfuel
          omega
        · rw [hnil, List.append_nil] at hdrop
          rw [hdrop] at hrest
          obtain rfl := eq_nil_of_partial_encode hrest
          exact ⟨rfl, hdrop⟩
      rw [if_neg Bool.false_ne_true]
      simp only [htake, decodeFrom_encode 0 front hrest, hblock, hlater]

/-- A text ends where nothing waits any more. -/
theorem eq_nil_of_decodeBlocks_zero {pending bytes : List UInt8} {cs : List Char}
    (h : decodeBlocks 0 pending bytes = (cs, none)) : pending = [] ∧ cs = [] := by
  rw [decodeBlocks] at h
  obtain ⟨rfl, hpending⟩ := Prod.mk.inj h
  refine ⟨?_, rfl⟩
  by_contra hne
  rw [if_neg (mt List.isEmpty_iff.1 hne)] at hpending
  cases hpending

theorem eq_encode_of_decodeBlocks {fuel : Nat} {pending bytes : List UInt8} {cs : List Char}
    (hfuel : bytes.length ≤ fuel * blockSize) (h : decodeBlocks fuel pending bytes = (cs, none)) :
    pending ++ bytes = encode cs := by
  induction fuel generalizing pending bytes cs with
  | zero =>
    obtain rfl : bytes = [] := List.length_eq_zero_iff.1 (by omega)
    obtain ⟨rfl, rfl⟩ := eq_nil_of_decodeBlocks_zero h
    rfl
  | succ fuel ih =>
    rw [decodeBlocks] at h
    split at h
    · rename_i hbytes
      obtain ⟨rfl, rfl⟩ := eq_nil_of_decodeBlocks_zero h
      rw [List.isEmpty_iff.1 hbytes]
      rfl
    · dsimp only at h
      split at h
      · cases h
      · rename_i front cut hread
        obtain ⟨rest, hblock, rfl⟩ := exists_of_decodeFrom hread
        rw [hblock, List.length_append, Nat.add_sub_cancel, List.drop_left' rfl] at h
        rcases hlater : decodeBlocks fuel rest (bytes.drop blockSize) with ⟨back, fault⟩
        rw [hlater] at h
        cases h
        have hfuel' : (bytes.drop blockSize).length ≤ fuel * blockSize := by
          rw [List.length_drop]
          rw [Nat.succ_mul] at hfuel
          omega
        have hback := ih hfuel' hlater
        rw [encode_append, ← hback, ← List.append_assoc, ← hblock, List.append_assoc,
          List.take_append_drop]

/-- Bytes are read in blocks to their end just if a text is written as them, and then as that text. -/
theorem decodeInBlocks_eq_iff {bytes : List UInt8} {cs : List Char} :
    decodeInBlocks bytes = (cs, none) ↔ bytes = encode cs := by
  have hfuel : bytes.length ≤ (bytes.length / blockSize + 1) * blockSize := by
    have hmod := Nat.mod_lt bytes.length (show 0 < blockSize by decide)
    have hdiv := Nat.div_add_mod' bytes.length blockSize
    rw [Nat.succ_mul]
    omega
  exact ⟨eq_encode_of_decodeBlocks hfuel, fun h => decodeBlocks_encode partial_nil h hfuel⟩

end LayeredConfig.Text.Utf8
