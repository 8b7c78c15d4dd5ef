import LayeredConfig.Proofs.Template.Grammar

/-!
# Nested placeholders

A text with nested placeholders is written from a row of fragments: literal pieces
and placeholders whose bodies are rows again.  One scan of the text finds exactly
the placeholders that hold no other one, at whatever depth they stand, and
replacing them in the text is replacing them in the fragments.

* `scan_charsAll` — what a scan of the written fragments finds.
* `charsAll_fillAll` — replacing placeholders in the text and in the fragments.
* `WellFormedAll.fillAll` — fragments stay well-formed when plain text is filled in.
-/

namespace LayeredConfig.Template

/-- The character starts, opens or closes no placeholder. -/
def isPlainChar (c : Char) : Bool :=
  decide (c ≠ '$') && decide (c ≠ '@') && decide (c ≠ '{') && decide (c ≠ '}')

/-- The text says something, and none of its characters starts, opens or closes a placeholder. -/
def Plain (cs : List Char) : Prop :=
  cs ≠ [] ∧ ∀ c ∈ cs, isPlainChar c = true

theorem plain_iff {cs : List Char} :
    (!cs.isEmpty && cs.all isPlainChar) = true ↔ Plain cs := by
  rw [Bool.and_eq_true, Bool.not_eq_true', List.isEmpty_eq_false_iff, List.all_eq_true]
  rfl

instance (cs : List Char) : Decidable (Plain cs) :=
  decidable_of_iff _ plain_iff

/-- A fragment of a text with nested placeholders. -/
inductive Fragment where
  /-- A piece that stands for itself. -/
  | literal (cs : List Char)
  /-- A placeholder whose body has fragments again. -/
  | hole (sigil : Sigil) (space : List Char) (body : List Fragment)

namespace Fragment

/-- The fragment is a placeholder. -/
def isHole : Fragment → Bool
  | literal _ => false
  | hole _ _ _ => true

mutual

/-- The fragment as it is written. -/
def chars : Fragment → List Char
  | literal cs => cs
  | hole sigil space body => sigil.char :: '{' :: (space ++ ':' :: (charsAll body ++ ['}']))

/-- Parts as they are written one after the other. -/
def charsAll : List Fragment → List Char
  | [] => []
  | p :: ps => chars p ++ charsAll ps

end

mutual

/-- Literal pieces are plain, and a namespace holds no character that would end it. -/
def WellFormed : Fragment → Prop
  | literal cs => Plain cs
  | hole _ space body => (∀ c ∈ space, isSpaceChar c = true) ∧ WellFormedAll body

/-- `WellFormed` for every fragment. -/
def WellFormedAll : List Fragment → Prop
  | [] => True
  | p :: ps => WellFormed p ∧ WellFormedAll ps

end

mutual

/-- The pieces of the written fragment: of nested placeholders, the innermost are whole. -/
def pieces : Fragment → List Piece
  | literal cs => cs.map .char
  | hole sigil space body =>
    if body.any isHole then
      .char sigil.char :: .char '{' ::
        (space.map .char ++ .char ':' :: (piecesAll body ++ [.char '}']))
    else [.hole ⟨sigil, space, charsAll body⟩]

/-- The pieces of written fragments. -/
def piecesAll : List Fragment → List Piece
  | [] => []
  | p :: ps => pieces p ++ piecesAll ps

end

mutual

/-- The fragment with the innermost placeholders replaced by their texts. -/
def fill (texts : Placeholder → List Char) : Fragment → Fragment
  | literal cs => literal cs
  | hole sigil space body =>
    if body.any isHole then hole sigil space (fillAll texts body)
    else literal (texts ⟨sigil, space, charsAll body⟩)

/-- `fill` on every fragment. -/
def fillAll (texts : Placeholder → List Char) : List Fragment → List Fragment
  | [] => []
  | p :: ps => fill texts p :: fillAll texts ps

end

end Fragment

/-- The characters of a piece with its placeholder replaced by its text. -/
def Piece.filled (texts : Placeholder → List Char) : Piece → List Char
  | char c => [c]
  | hole p => texts p

open Fragment

/-! ## Plain text -/

theorem ofChar?_of_isPlainChar {c : Char} (h : isPlainChar c = true) : Sigil.ofChar? c = none := by
  simp only [isPlainChar, Bool.and_eq_true, decide_eq_true_eq] at h
  simp [Sigil.ofChar?, h.1.1.1, h.1.1.2]

theorem isBodyChar_of_isPlainChar {c : Char} (h : isPlainChar c = true) : isBodyChar c = true := by
  simp only [isPlainChar, Bool.and_eq_true, decide_eq_true_eq] at h
  simp [isBodyChar, h.1.2, h.2]

/-- Parts without a placeholder are written with characters that may stand in a body. -/
theorem isBodyChar_of_mem_charsAll {ps : List Fragment} (hps : WellFormedAll ps)
    (hnone : ps.any isHole = false) : ∀ c ∈ charsAll ps, isBodyChar c = true := by
  induction ps with
  | nil => intro c hc; cases hc
  | cons p ps ih =>
    cases p with
    | hole sigil space body => simp [isHole] at hnone
    | literal cs =>
      intro c hc
      rcases List.mem_append.1 hc with hc | hc
      · exact isBodyChar_of_isPlainChar (hps.1.2 c hc)
      · exact ih hps.2 (by simpa [isHole] using hnone) c hc

/-- Parts with a placeholder are written with an opening brace, and no brace stands before it. -/
theorem exists_brace_of_any_isHole {ps : List Fragment} (hps : WellFormedAll ps)
    (hany : ps.any isHole = true) :
    ∃ front back, charsAll ps = front ++ '{' :: back ∧ ∀ c ∈ front, isBodyChar c = true := by
  induction ps with
  | nil => cases hany
  | cons p ps ih =>
    cases p with
    | hole sigil space body =>
      refine ⟨[sigil.char], space ++ ':' :: (charsAll body ++ ['}']) ++ charsAll ps, rfl, ?_⟩
      intro c hc
      rw [List.mem_singleton.1 hc]
      cases sigil <;> decide
    | literal cs =>
      obtain ⟨front, back, hchars, hfront⟩ := ih hps.2 (by simpa [isHole] using hany)
      refine ⟨cs ++ front, back, by simp [charsAll, chars, hchars], ?_⟩
      intro c hc
      rcases List.mem_append.1 hc with hc | hc
      · exact isBodyChar_of_isPlainChar (hps.1.2 c hc)
      · exact hfront c hc

/-! ## One scan of the written fragments -/

/-- What is skipped does not matter to the rest of a scan. -/
theorem scanFrom_eq_drop (skip : Nat) (cs : List Char) :
    scanFrom skip cs = scanFrom 0 (cs.drop skip) := by
  induction cs generalizing skip with
  | nil => cases skip <;> rfl
  | cons c cs ih =>
    cases skip with
    | zero => rfl
    | succ n => exact ih n

/-- A scan passes over characters that start no placeholder. -/
theorem scanFrom_append_of_ofChar? {cs : List Char} (h : ∀ c ∈ cs, Sigil.ofChar? c = none)
    (rest : List Char) : scanFrom 0 (cs ++ rest) = cs.map .char ++ scanFrom 0 rest := by
  induction cs with
  | nil => rfl
  | cons c cs ih =>
    have hc : placeholderAt? (c :: (cs ++ rest)) = none :=
      placeholderAt?_eq_none_of_char (h c List.mem_cons_self) _
    rw [List.cons_append, scanFrom, hc]
    simp only [List.map_cons, List.cons_append]
    rw [ih fun d hd => h d (List.mem_cons_of_mem _ hd)]

/-- A scan finds a placeholder that holds no other one. -/
theorem scanFrom_chars_append {p : Placeholder} (h : p.WellFormed) (rest : List Char) :
    scanFrom 0 (p.chars ++ rest) = .hole p :: scanFrom 0 rest := by
  have hp : placeholderAt?
      (p.sigil.char :: ('{' :: (p.space ++ ':' :: (p.body ++ ['}'])) ++ rest)) = some p :=
    placeholderAt?_chars_append h rest
  rw [Placeholder.chars, List.cons_append, scanFrom, hp]
  simp only
  rw [scanFrom_eq_drop]
  have hlen : p.chars.length - 1 = ('{' :: (p.space ++ ':' :: (p.body ++ ['}']))).length := by
    simp [Placeholder.chars]
  rw [hlen, List.drop_left]

/-- A text that is one placeholder, which holds no other one. -/
theorem scan_chars {p : Placeholder} (h : p.WellFormed) : scan p.chars = [.hole p] := by
  have hscan := scanFrom_chars_append h []
  rwa [List.append_nil] at hscan

/-- A scan passes over the sigil of a placeholder that holds another one. -/
theorem placeholderAt?_eq_none_of_nested (sigil : Sigil) {space : List Char} {body : List Fragment}
    (hspace : ∀ c ∈ space, isSpaceChar c = true) (hbody : WellFormedAll body)
    (hany : body.any isHole = true) (rest : List Char) :
    placeholderAt? (sigil.char :: '{' :: (space ++ ':' :: (charsAll body ++ rest))) = none := by
  obtain ⟨front, back, hchars, hfront⟩ := exists_brace_of_any_isHole hbody hany
  rw [placeholderAt?_sigil_append sigil hspace, hchars, List.append_assoc, List.cons_append,
    bodyAt?_eq_none_of_brace hfront]
  rfl

mutual

theorem scanFrom_chars : (p : Fragment) → p.WellFormed → (rest : List Char) →
    scanFrom 0 (p.chars ++ rest) = p.pieces ++ scanFrom 0 rest
  | .literal cs, h, rest =>
    scanFrom_append_of_ofChar? (fun c hc => ofChar?_of_isPlainChar (h.2 c hc)) rest
  | .hole sigil space body, h, rest => by
    obtain ⟨hspace, hbody⟩ := h
    by_cases hany : body.any isHole = true
    -- the first brace behind the colon opens another placeholder, so this one is passed over
    · have hnone := placeholderAt?_eq_none_of_nested sigil hspace hbody hany ('}' :: rest)
      have hopen : ∀ c ∈ '{' :: (space ++ [':']), Sigil.ofChar? c = none := by
        intro c hc
        rcases List.mem_cons.1 hc with rfl | hc
        · rfl
        · rcases List.mem_append.1 hc with hc | hc
          · exact ofChar?_of_isSpaceChar (hspace c hc)
          · rw [List.mem_singleton.1 hc]
            rfl
      have hclose : ∀ c ∈ ['}'], Sigil.ofChar? c = none := by
        intro c hc
        rw [List.mem_singleton.1 hc]
        rfl
      calc scanFrom 0 ((Fragment.hole sigil space body).chars ++ rest)
          = scanFrom 0 (sigil.char :: '{' :: (space ++ ':' :: (charsAll body ++ '}' :: rest))) := by
            simp [chars]
        _ = .char sigil.char ::
              scanFrom 0 (('{' :: (space ++ [':'])) ++ (charsAll body ++ (['}'] ++ rest))) := by
            rw [scanFrom, hnone]
            simp
        _ = (Fragment.hole sigil space body).pieces ++ scanFrom 0 rest := by
            rw [scanFrom_append_of_ofChar? hopen, scanFrom_charsAll body hbody,
              scanFrom_append_of_ofChar? hclose, pieces, if_pos hany]
            simp
    · rw [Bool.not_eq_true] at hany
      have hp : (⟨sigil, space, charsAll body⟩ : Placeholder).WellFormed :=
        ⟨hspace, isBodyChar_of_mem_charsAll hbody hany⟩
      rw [pieces, hany]
      exact scanFrom_chars_append hp rest

theorem scanFrom_charsAll : (ps : List Fragment) → WellFormedAll ps → (rest : List Char) →
    scanFrom 0 (charsAll ps ++ rest) = piecesAll ps ++ scanFrom 0 rest
  | [], _, _ => rfl
  | p :: ps, h, rest => by
    rw [charsAll, List.append_assoc, scanFrom_chars p h.1, scanFrom_charsAll ps h.2, piecesAll,
      List.append_assoc]

end

/-- A scan of the written fragments finds the placeholders that hold no other one. -/
theorem scan_charsAll {ps : List Fragment} (h : WellFormedAll ps) :
    scan (charsAll ps) = piecesAll ps := by
  have hscan := scanFrom_charsAll ps h []
  rw [List.append_nil] at hscan
  rw [scan, hscan, scanFrom, List.append_nil]

/-! ## Placeholders among the pieces -/

mutual

theorem any_isHole_pieces : (p : Fragment) → p.pieces.any Piece.isHole = p.isHole
  | .literal cs => by
    rw [pieces, isHole, List.any_map, List.any_eq_false]
    intro c _
    exact Bool.false_ne_true
  | .hole sigil space body => by
    by_cases hany : body.any isHole = true
    · have hbody := any_isHole_piecesAll body
      rw [hany] at hbody
      simp [pieces, hany, hbody, isHole]
    · rw [Bool.not_eq_true] at hany
      rw [pieces, hany]
      rfl

/-- Among the pieces of fragments is a placeholder if and only if one of the fragments is one. -/
theorem any_isHole_piecesAll : (ps : List Fragment) →
    (piecesAll ps).any Piece.isHole = ps.any isHole
  | [] => rfl
  | p :: ps => by
    rw [piecesAll, List.any_append, any_isHole_pieces p, any_isHole_piecesAll ps, List.any_cons]

end

/-- A text has a placeholder if and only if one of its fragments is one. -/
theorem hasPlaceholder_charsAll {ps : List Fragment} (h : WellFormedAll ps) :
    hasPlaceholder (charsAll ps) = ps.any isHole := by
  rw [hasPlaceholder, scan_charsAll h, any_isHole_piecesAll]

/-- The text that fragments are written as. -/
def written (ps : List Fragment) : String :=
  String.ofList (charsAll ps)

theorem scan_written {ps : List Fragment} (h : WellFormedAll ps) :
    scan (written ps).toList = piecesAll ps := by
  rw [written, String.toList_ofList, scan_charsAll h]

theorem hasPlaceholder_written {ps : List Fragment} (h : WellFormedAll ps) :
    hasPlaceholder (written ps).toList = ps.any isHole := by
  rw [written, String.toList_ofList, hasPlaceholder_charsAll h]

/-- Well-formed fragments have pieces. -/
theorem pieces_ne_nil {p : Fragment} (h : p.WellFormed) : p.pieces ≠ [] := by
  cases p with
  | literal cs =>
    intro hnil
    exact h.1 (List.map_eq_nil_iff.1 hnil)
  | hole sigil space body =>
    rw [pieces]
    split <;> simp

/-- Written fragments are exactly one placeholder only if they are one that holds no other. -/
theorem eq_of_piecesAll_eq_singleton {ps : List Fragment} (h : WellFormedAll ps) {p : Placeholder}
    (hp : piecesAll ps = [.hole p]) :
    ∃ body, ps = [.hole p.sigil p.space body] ∧ body.any isHole = false ∧
      p.body = charsAll body := by
  cases ps with
  | nil => cases hp
  | cons q qs =>
    cases qs with
    | cons q' qs =>
      have hlen := congrArg List.length hp
      have hq := List.length_pos_iff.2 (pieces_ne_nil h.1)
      have hq' := List.length_pos_iff.2 (pieces_ne_nil h.2.1)
      simp only [piecesAll, List.length_append, List.length_singleton] at hlen
      omega
    | nil =>
      rw [piecesAll, piecesAll, List.append_nil] at hp
      cases q with
      | literal cs =>
        obtain ⟨c, cs', rfl⟩ := List.exists_cons_of_ne_nil h.1.1
        simp [pieces] at hp
      | hole sigil space body =>
        rw [pieces] at hp
        split at hp
        · simp at hp
        · rename_i hnone
          cases hp
          exact ⟨body, rfl, by simpa using hnone, rfl⟩

/-! ## Filling in -/

theorem flatMap_filled_char (texts : Placeholder → List Char) (cs : List Char) :
    (cs.map Piece.char).flatMap (Piece.filled texts) = cs := by
  induction cs with
  | nil => rfl
  | cons c cs ih => rw [List.map_cons, List.flatMap_cons, ih]; rfl

mutual

theorem chars_fill (texts : Placeholder → List Char) : (p : Fragment) →
    (p.fill texts).chars = p.pieces.flatMap (Piece.filled texts)
  | .literal cs => (flatMap_filled_char texts cs).symm
  | .hole sigil space body => by
    by_cases hany : body.any isHole = true
    · simp [fill, pieces, hany, chars, charsAll_fillAll texts body, flatMap_filled_char,
        Piece.filled]
    · rw [Bool.not_eq_true] at hany
      rw [fill, pieces, hany]
      simp [chars, Piece.filled]

/-- Replacing the innermost placeholders in the fragments replaces them in the text. -/
theorem charsAll_fillAll (texts : Placeholder → List Char) : (ps : List Fragment) →
    charsAll (fillAll texts ps) = (piecesAll ps).flatMap (Piece.filled texts)
  | [] => rfl
  | p :: ps => by
    rw [fillAll, charsAll, piecesAll, List.flatMap_append, chars_fill texts p,
      charsAll_fillAll texts ps]

end

/-- The innermost placeholders of a body are among those of the placeholder. -/
theorem mem_pieces_of_mem_body {sigil : Sigil} {space : List Char} {body : List Fragment}
    (hany : body.any isHole = true) {q : Piece} (hq : q ∈ piecesAll body) :
    q ∈ (Fragment.hole sigil space body).pieces := by
  rw [pieces, if_pos hany]
  simp [hq]

mutual

theorem WellFormed.fill {texts : Placeholder → List Char} : (p : Fragment) → p.WellFormed →
    (∀ q, .hole q ∈ p.pieces → Plain (texts q)) → (p.fill texts).WellFormed
  | .literal _, h, _ => h
  | .hole sigil space body, h, htexts => by
    by_cases hany : body.any isHole = true
    · rw [Fragment.fill, if_pos hany]
      exact ⟨h.1, WellFormedAll.fillAll body h.2 fun q hq =>
        htexts q (mem_pieces_of_mem_body hany hq)⟩
    · rw [Bool.not_eq_true] at hany
      rw [Fragment.fill, hany]
      exact htexts _ (by rw [pieces, hany]; exact List.mem_singleton_self _)

/-- Parts stay well-formed when plain texts are filled in. -/
theorem WellFormedAll.fillAll {texts : Placeholder → List Char} : (ps : List Fragment) →
    WellFormedAll ps → (∀ q, .hole q ∈ piecesAll ps → Plain (texts q)) →
    WellFormedAll (fillAll texts ps)
  | [], _, _ => trivial
  | p :: ps, h, htexts =>
    ⟨WellFormed.fill p h.1 fun q hq => htexts q (List.mem_append_left _ hq),
      WellFormedAll.fillAll ps h.2 fun q hq => htexts q (List.mem_append_right _ hq)⟩

end

end LayeredConfig.Template
