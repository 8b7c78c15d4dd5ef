import LayeredConfig.Proofs.Text.Readers
import LayeredConfig.Yaml.Scalar
import LayeredConfig.Yaml.Token.Scan

/-!
# Why a YAML text is not scanned

A YAML text that is not read has a problem at some place, or it breaks off, or it
writes a value that cannot be built.  Two values of the last kind are found in the
middle of scanning: an escape by a number that no character has, and a number of a
version that has too many digits.  Every step of scanning leaves an end of the text in
front of it, so both stand in the text.

* `Unbuildable` — a value of the text cannot be built.
* `Cursor.Within`, `Reads` — readers that leave an end of the text.
* `Scan.reads_advance` — the next token is read that way.
* `standsIn_of_scan` — so are all tokens.
-/

namespace LayeredConfig.Yaml

/-! ## What stops the reading -/

/-- A token of the text writes the scalar, or it is the one that is not written. -/
def WritesText (ex : Excerpt) (text : String) : Prop :=
  text = "" ∨ ∃ t ∈ (Token.scan ex).1, ∃ plain, t.kind = .scalar plain text

/-- A token of the text writes the end of the tag. -/
def WritesTag (ex : Excerpt) (tag : String) : Prop :=
  ∃ t ∈ (Token.scan ex).1, ∃ (w : WrittenTag) (front : String),
    t.kind = .tag w ∧ tag = front ++ w.suffix

/-- The text writes a scalar of a kind: by the form of the scalar, or by a tag. -/
def WritesScalar (ex : Excerpt) (kind : Scalar.Kind) (text : String) : Prop :=
  WritesText ex text ∧ (Scalar.Kind.ofTag? (Tag.ofPlain text) = some kind ∨
    ∃ tag, WritesTag ex tag ∧ Scalar.Kind.ofTag? tag = some kind)

/-- A value of the text cannot be built. -/
inductive Unbuildable (ex : Excerpt) : ValueFault → Prop where
  /-- An escape in quotes writes a number that no character has. -/
  | escape {x : Char} {digits : List Char} {e : ValueFault} (stands : '\\' :: x :: digits <:+: ex.chars)
    (length : Quoted.codeLength? x = some digits.length)
    (fault : Quoted.characterOf (Quoted.hexNumber digits) = .error (.value e)) : Unbuildable ex e
  /-- A number of a version has more digits than may be read. -/
  | version {e : NumeralError} (stands : e.TooLongIn ex.chars) : Unbuildable ex (.numeral e)
  /-- A scalar has no value of its kind. -/
  | scalar {kind : Scalar.Kind} {text : String} {m : Mark} {e : ValueFault}
    (stands : WritesScalar ex kind text) (fault : Scalar.read kind text m = .error (.value e)) :
    Unbuildable ex e

/-- The reading stops for a problem, where the text breaks off, or for a value of the text that cannot
be built. -/
def Stop.StandsIn (ex : Excerpt) : Stop → Prop
  | .problem _ _ => True
  | .cut c => ex.cut = some c
  | .value e => Unbuildable ex e

/-! ## Cursors -/

/-- An end of the text is left. -/
def Cursor.Within (ex : Excerpt) (c : Cursor) : Prop :=
  c.rest <:+ ex.chars

/-- A reader leaves an end of the text, and stops only for what stands in it. -/
def Reads {α : Type} (ex : Excerpt) (cursor : α → Cursor) : Except Stop α → Prop :=
  Ends (Stop.StandsIn ex) fun a => (cursor a).Within ex

variable {ex : Excerpt}

namespace Cursor

variable {c : Cursor}

theorem rest_of_peek {x : Char} (h : c.peek = x) (hx : x ≠ endChar) :
    c.rest = x :: c.next.rest := by
  obtain ⟨_ | ⟨y, rest⟩, m⟩ := c
  · exact absurd h.symm hx
  · cases h
    rfl

theorem append_spanFrom (test : Char → Bool) (m : Mark) (cs : List Char) :
    (spanFrom test m cs).1 ++ (spanFrom test m cs).2.rest = cs := by
  induction cs generalizing m with
  | nil => rfl
  | cons x cs ih =>
    rw [spanFrom]
    split
    · exact congrArg (x :: ·) (ih (m.after x))
    · rfl

theorem all_spanFrom (test : Char → Bool) (m : Mark) (cs : List Char) :
    ∀ x ∈ (spanFrom test m cs).1, test x = true := by
  induction cs generalizing m with
  | nil => simp [spanFrom]
  | cons x cs ih =>
    rw [spanFrom]
    split
    · rename_i hx
      exact List.forall_mem_cons.2 ⟨hx, ih (m.after x)⟩
    · simp

namespace Within

theorem next (h : c.Within ex) : c.next.Within ex := by
  obtain ⟨_ | ⟨x, rest⟩, m⟩ := c
  · exact h
  · exact (List.suffix_cons x rest).trans h

theorem advance (h : c.Within ex) (n : Nat) : (c.advance n).Within ex := by
  induction n generalizing c with
  | zero => exact h
  | succ n ih => exact ih h.next

theorem span (h : c.Within ex) (test : Char → Bool) : (c.span test).2.Within ex :=
  List.IsSuffix.trans ⟨_, append_spanFrom test c.mark c.rest⟩ h

theorem skip (h : c.Within ex) (test : Char → Bool) : (c.skip test).Within ex :=
  h.span test

theorem skipSpaces (h : c.Within ex) : c.skipSpaces.Within ex :=
  h.skip _

theorem skipRemark (h : c.Within ex) : c.skipRemark.Within ex := by
  unfold Cursor.skipRemark
  split
  · exact h.skip _
  · exact h

theorem of_readBreak (h : c.Within ex) {x : Char} {c' : Cursor} (hc : c.readBreak = some (x, c')) :
    c'.Within ex := by
  unfold readBreak at hc
  dsimp only at hc
  split at hc
  · cases hc
  · cases hc
    exact h.next

end Within

end Cursor

/-! ## Texts in quotes -/

section Quoted

variable {c : Cursor}

theorem reads_quotedBreaks (fuel : Nat) (h : c.Within ex) :
    Reads ex (·.2) (Quoted.readBreaks fuel c) := by
  induction fuel generalizing c with
  | zero => exact h
  | succ fuel ih =>
    rw [Quoted.readBreaks]
    split
    · trivial
    · dsimp only
      split
      · exact h.skip _
      · rename_i hbreak
        exact (ih ((h.skip _).of_readBreak hbreak)).map fun _ hr => hr

theorem exists_of_characterOf {code : Nat} {e : Stop} (h : Quoted.characterOf code = .error e) :
    ∃ fault, e = .value fault := by
  unfold Quoted.characterOf at h
  repeat' split at h
  all_goals cases h
  all_goals exact ⟨_, rfl⟩

/-- The letter of an escape by number and the digits after it stand in the text. -/
theorem infix_of_codeLength {n : Nat} (h : '\\' :: c.rest <:+ ex.chars)
    (hlength : Quoted.codeLength? c.peek = some n) :
    '\\' :: c.peek :: c.next.rest.take n <:+: ex.chars := by
  have hpeek : c.peek ≠ endChar := by
    intro hend
    rw [hend] at hlength
    cases hlength
  rw [Cursor.rest_of_peek rfl hpeek] at h
  have hfront : '\\' :: c.peek :: c.next.rest.take n <+: '\\' :: c.peek :: c.next.rest :=
    (List.prefix_cons_inj _).2 ((List.prefix_cons_inj _).2 (List.take_prefix n _))
  exact hfront.isInfix.trans h.isInfix

theorem reads_readEscape (h : '\\' :: c.rest <:+ ex.chars) : Reads ex (·.2) (Quoted.readEscape c) := by
  have hc : c.Within ex := (List.suffix_cons _ _).trans h
  unfold Quoted.readEscape
  split
  · exact hc.next
  · rename_i n _ hlength
    dsimp only
    split
    · trivial
    · rename_i hdigits
      rcases hchar : Quoted.characterOf (Quoted.hexNumber (c.next.rest.take n)) with e | x
      · obtain ⟨fault, rfl⟩ := exists_of_characterOf hchar
        have htake : n = (c.next.rest.take n).length := by
          have hle := List.length_take_le n c.next.rest
          omega
        exact .escape (infix_of_codeLength h hlength) (htake ▸ hlength) hchar
      · exact hc.next.advance n
  · split
    · rename_i hbreak
      exact reads_quotedBreaks _ (hc.of_readBreak hbreak)
    · trivial

theorem reads_readWord (double : Bool) (fuel : Nat) (h : c.Within ex) :
    Reads ex (·.2) (Quoted.readWord double fuel c) := by
  induction fuel generalizing c with
  | zero => exact h
  | succ fuel ih =>
    rw [Quoted.readWord]
    -- the word has to be a variable, or every split goes through the span again
    have hspan := h.span Quoted.isOrdinary
    revert hspan
    generalize c.span Quoted.isOrdinary = word
    intro hspan
    dsimp only
    split
    · exact (ih (hspan.advance 2)).map fun _ hr => hr
    · split
      · exact (ih hspan.next).map fun _ hr => hr
      · split
        · rename_i hback
          have hescape : '\\' :: word.2.next.rest <:+ ex.chars := by
            rw [← Cursor.rest_of_peek (by simp_all) (by decide)]
            exact hspan
          have hread := reads_readEscape hescape
          split
          · rename_i hfront
            exact (ih (hread.of_eq_ok hfront)).map fun _ hr => hr
          · rename_i hfault
            exact hread.of_eq_error hfault
        · exact hspan

theorem reads_readSpaces (h : c.Within ex) : Reads ex (·.2) (Quoted.readSpaces c) := by
  unfold Quoted.readSpaces
  have hspan := h.span fun x => decide (x = ' ') || decide (x = '\t')
  dsimp only
  split
  · trivial
  · split
    · exact hspan
    · rename_i hbreak
      refine (reads_quotedBreaks _ (hspan.of_readBreak hbreak)).map fun r hr => ?_
      dsimp only
      split
      · exact hr
      · split
        · exact hr
        · exact hr

theorem reads_readRest (quote : Char) (fuel : Nat) (h : c.Within ex) :
    Reads ex (·.2) (Quoted.readRest quote fuel c) := by
  induction fuel generalizing c with
  | zero => trivial
  | succ fuel ih =>
    rw [Quoted.readRest]
    split
    · exact h.next
    · refine (reads_readSpaces h).bind fun blanks hblanks => ?_
      refine (reads_readWord _ _ hblanks).bind fun word hword => ?_
      exact (ih hword).bind fun more hmore => hmore

theorem reads_readQuoted (h : c.Within ex) : Reads ex (·.2) (Quoted.read c) := by
  refine (reads_readWord _ _ h.next).bind fun word hword => ?_
  exact (reads_readRest _ _ hword).bind fun more hmore => hmore

end Quoted

/-! ## Names -/

section Name

variable {c : Cursor}

theorem reads_readAnchorName (h : c.Within ex) : Reads ex (·.2) (Name.readAnchor c) := by
  unfold Name.readAnchor
  exact .ite trivial (h.next.span _)

theorem reads_readBytes (fuel : Nat) (h : c.Within ex) :
    Reads ex (·.2) (Name.readBytes fuel c) := by
  induction fuel generalizing c with
  | zero => exact h
  | succ fuel ih =>
    rw [Name.readBytes]
    split
    · exact h
    · dsimp only
      split
      · exact (ih (h.next.advance 2)).map fun _ hr => hr
      · trivial

theorem reads_readEscapes (h : c.Within ex) : Reads ex (·.2) (Name.readEscapes c) := by
  refine (reads_readBytes _ h).bind fun r hr => ?_
  dsimp only
  split
  · exact hr
  · trivial

theorem reads_readUriParts (fuel : Nat) (h : c.Within ex) :
    Reads ex (·.2) (Name.readUriParts fuel c) := by
  induction fuel generalizing c with
  | zero => exact h
  | succ fuel ih =>
    rw [Name.readUriParts]
    have hspan := h.span fun x => Name.isUriChar x && decide (x ≠ '%')
    dsimp only
    split
    · refine (reads_readEscapes hspan).bind fun r hr => ?_
      exact (ih hr).bind fun more hmore => hmore
    · exact hspan

theorem reads_readUri (h : c.Within ex) : Reads ex (·.2) (Name.readUri c) := by
  exact (reads_readUriParts _ h).bind fun r hr => .ite trivial hr

theorem reads_readHandle (h : c.Within ex) : Reads ex (·.2) (Name.readHandle c) := by
  unfold Name.readHandle
  exact .ite trivial (.ite h.next (.ite trivial (h.next.span _).next))

theorem reads_readTagName (h : c.Within ex) : Reads ex (·.2) (Name.readTag c) := by
  have hend : ∀ r : WrittenTag × Cursor, r.2.Within ex → Reads ex (·.2)
      (if isSpaceOrEnd r.2.peek then pure (r.1, r.2) else throw (.problem .badTag r.2.mark)) :=
    fun _ hr => .ite hr trivial
  unfold Name.readTag
  dsimp only
  split
  · refine (reads_readUri (h.advance 2)).bind fun r hr => ?_
    dsimp only
    split
    · trivial
    · exact hend (⟨none, r.1⟩, _) hr.next
  · split
    · exact hend (⟨none, "!"⟩, _) h.next
    · split
      · exact (reads_readHandle h).bind fun handle hhandle => (reads_readUri hhandle).bind
          fun suffix hsuffix => hend (⟨some handle.1, suffix.1⟩, suffix.2) hsuffix
      · exact (reads_readUri h.next).bind
          fun suffix hsuffix => hend (⟨some "!", suffix.1⟩, suffix.2) hsuffix

theorem reads_readVersionNumber (h : c.Within ex) : Reads ex (·.2) (Name.readVersionNumber c) := by
  unfold Name.readVersionNumber
  dsimp only
  split
  · trivial
  · split
    · rename_i hlong
      refine .version ⟨_, ?_, Cursor.all_spanFrom _ _ _, hlong, rfl⟩
      have hfront : (c.span Char.isDigit).1 <+: c.rest :=
        ⟨_, Cursor.append_spanFrom _ c.mark c.rest⟩
      exact hfront.isInfix.trans h.isInfix
    · exact h.span _

theorem reads_readVersion (h : c.Within ex) : Reads ex (·.2) (Name.readVersion c) := by
  refine (reads_readVersionNumber h.skipSpaces).bind fun major hmajor => ?_
  exact .ite trivial ((reads_readVersionNumber hmajor.next).bind fun _ hminor => .ite hminor trivial)

theorem reads_readHandleDirective (h : c.Within ex) :
    Reads ex (·.2) (Name.readHandleDirective c) := by
  refine (reads_readHandle h.skipSpaces).bind fun handle hhandle => ?_
  exact .ite trivial ((reads_readUri hhandle.skipSpaces).bind fun _ hr => .ite hr trivial)

theorem reads_readDirectiveName (h : c.Within ex) : Reads ex (·.2.2) (Name.readDirective c) := by
  have hname := h.next.span Name.isNameChar
  unfold Name.readDirective
  dsimp only
  split
  · trivial
  · split
    case' h_1 => refine (reads_readVersion hname).bind fun d hd => .ite trivial ?_
    case' h_2 => refine (reads_readHandleDirective hname).bind fun d hd => .ite trivial ?_
    case' h_3 =>
      have hd := hname.skip fun x => !isBreak x
      refine .ite trivial ?_
    -- whatever the directive is, its line ends in the same way
    all_goals
      split
      · rename_i hbreak
        exact hd.skipSpaces.skipRemark.of_readBreak hbreak
      · exact hd.skipSpaces.skipRemark

end Name

/-! ## Blocks and plain texts -/

section Block

variable {c : Cursor}

theorem reads_readDepth (h : c.Within ex) : Reads ex (·.2) (Block.readDepth c) := by
  unfold Block.readDepth
  exact .ite trivial (.ite h.next h)

theorem reads_readSigns (h : c.Within ex) : Reads ex (·.2.2) (Block.readSigns c) := by
  have hend : ∀ r : Block.Chomping × Option Nat × Cursor, r.2.2.Within ex → Reads ex (·.2.2)
      (if isSpaceOrEnd r.2.2.peek then pure (r.1, r.2.1, r.2.2)
        else throw (.problem .badBlockHead r.2.2.mark)) :=
    fun _ hr => .ite hr trivial
  unfold Block.readSigns
  dsimp only
  split
  · exact (reads_readDepth h.next).bind fun r hr => hend (_, r.1, r.2) hr
  · refine (reads_readDepth h).bind fun r hr => ?_
    dsimp only
    split
    · exact hend (_, r.1, _) hr.next
    · exact hend (_, r.1, _) hr

theorem reads_skipHead (h : c.Within ex) : Reads ex id (Block.skipHead c) := by
  unfold Block.skipHead
  dsimp only
  split
  · trivial
  · split
    · rename_i hbreak
      exact h.skipSpaces.skipRemark.of_readBreak hbreak
    · exact h.skipSpaces.skipRemark

theorem within_readLeading (fuel depth : Nat) (h : c.Within ex) :
    (Block.readLeading fuel depth c).2.2.Within ex := by
  induction fuel generalizing depth c with
  | zero => exact h
  | succ fuel ih =>
    rw [Block.readLeading]
    dsimp only
    split
    · exact h.skipSpaces
    · rename_i hbreak
      exact ih _ (h.skipSpaces.of_readBreak hbreak)

theorem within_skipIndent (depth fuel : Nat) (h : c.Within ex) :
    (Block.skipIndent depth fuel c).Within ex := by
  induction fuel generalizing c with
  | zero => exact h
  | succ fuel ih =>
    rw [Block.skipIndent]
    split
    · exact ih h.next
    · exact h

theorem within_blockBreaks (depth fuel : Nat) (h : c.Within ex) :
    (Block.readBreaks depth fuel c).2.Within ex := by
  induction fuel generalizing c with
  | zero => exact h
  | succ fuel ih =>
    rw [Block.readBreaks]
    dsimp only
    split
    · exact within_skipIndent _ _ h
    · rename_i hbreak
      exact ih ((within_skipIndent _ _ h).of_readBreak hbreak)

theorem within_readLines (folded : Bool) (depth fuel : Nat) (breaks : List Char)
    (h : c.Within ex) : (Block.readLines folded depth fuel breaks c).2.2.2.Within ex := by
  induction fuel generalizing breaks c with
  | zero => exact h
  | succ fuel ih =>
    rw [Block.readLines]
    split
    · exact h
    · have hline := h.span fun x => !isBreak x
      rcases hbreak : (c.span fun x => !isBreak x).2.readBreak with _ | ⟨x, c'⟩
      · have hnext := within_blockBreaks depth ((c.span fun x => !isBreak x).2.rest.length + 1) hline
        simp only [hbreak]
        split
        · exact ih _ hnext
        · exact hnext
      · have hnext := within_blockBreaks depth (c'.rest.length + 1) (hline.of_readBreak hbreak)
        simp only [hbreak]
        split
        · exact ih _ hnext
        · exact hnext

theorem reads_readBlockText (folded : Bool) (indent : Int) (h : c.Within ex) :
    Reads ex (·.2) (Block.read folded indent c) := by
  refine (reads_readSigns h.next).bind fun signs hsigns => ?_
  refine (reads_skipHead hsigns).bind fun c' hc' => ?_
  obtain ⟨chomping, depth?, c''⟩ := signs
  dsimp only
  cases depth? with
  | none =>
    have hleading := within_readLeading (c'.rest.length + 1) 0 hc'
    cases chomping <;> exact within_readLines folded _ _ _ hleading
  | some n =>
    have hbreaks := within_blockBreaks ((max (indent + 1) 1).toNat + n - 1) (c'.rest.length + 1) hc'
    cases chomping <;> exact within_readLines folded _ _ _ hbreaks

end Block

section Plain

variable {c : Cursor}

theorem within_plainBreaks (fuel : Nat) (h : c.Within ex) :
    (Plain.readBreaks fuel c).2.Within ex := by
  induction fuel generalizing c with
  | zero => exact h
  | succ fuel ih =>
    rw [Plain.readBreaks]
    dsimp only
    split
    · exact h.skipSpaces
    · rename_i hbreak
      split
      · exact h.skipSpaces.of_readBreak hbreak
      · exact ih (h.skipSpaces.of_readBreak hbreak)

theorem within_readGap (h : c.Within ex) : (Plain.readGap c).after.Within ex := by
  have hspan := h.span (· = ' ')
  unfold Plain.readGap
  dsimp only
  split
  · exact hspan
  · rename_i x c' hbreak
    have hafter := hspan.of_readBreak hbreak
    split
    · exact hafter
    · have hbreaks := within_plainBreaks (c'.rest.length + 1) hafter
      split
      · rename_i hnone
        rw [hnone] at hbreaks
        exact hbreaks
      · rename_i hsome
        rw [hsome] at hbreaks
        exact hbreaks

theorem within_readFrom (inFlow : Bool) (indent : Int) (fuel : Nat) {gap : Plain.Gap}
    {r : Plain.Reading} (hgap : gap.after.Within ex) (hr : r.after.Within ex) :
    (Plain.readFrom inFlow indent fuel gap r).after.Within ex := by
  induction fuel generalizing gap r with
  | zero => exact hr
  | succ fuel ih =>
    rw [Plain.readFrom]
    dsimp only
    generalize (if gap.after.peek = '#' then [] else Plain.wordOf inFlow gap.after.rest) = word
    have hnext := within_readGap (hgap.advance word.length)
    split
    · exact hgap
    · split
      · exact hnext
      · exact ih hnext hnext

theorem within_readPlain (inFlow : Bool) (indent : Int) (h : c.Within ex) :
    (Plain.read inFlow indent c).after.Within ex :=
  within_readFrom inFlow indent _ h h

end Plain

/-! ## Tokens -/

namespace Scan

variable {s : Scan}

/-- The state stands at an end of the text. -/
def Within (ex : Excerpt) (s : Scan) : Prop :=
  s.cursor.Within ex

theorem cursor_unwind (column : Int) (s : Scan) : (s.unwind column).cursor = s.cursor := by
  have hgo : ∀ (outer : List Int) (s : Scan), (unwind.go column outer s).cursor = s.cursor := by
    intro outer
    induction outer with
    | nil => exact fun _ => rfl
    | cons o os ih =>
      intro s
      rw [unwind.go]
      split
      · exact ih _
      · rfl
  unfold unwind
  split
  · rfl
  · exact hgo _ s

theorem within_unwind (column : Int) (h : s.cursor.Within ex) :
    (s.unwind column).cursor.Within ex := by
  rw [cursor_unwind]
  exact h

theorem cursor_of_nest {column : Nat} {t : Scan} {b : Bool} (h : s.nest column = (t, b)) :
    t.cursor = s.cursor := by
  unfold nest at h
  split at h <;> cases h <;> rfl

theorem within_nestHere? (kind : TokenKind) (h : s.cursor.Within ex) :
    (if s.inFlow then s else s.nestHere kind).cursor.Within ex := by
  split
  · exact h
  · unfold nestHere
    split
    all_goals
      rename_i hnest
      rw [← cursor_of_nest hnest] at h
      exact h

theorem reads_dropStale (h : s.cursor.Within ex) : Reads ex (·.cursor) s.dropStale := by
  unfold dropStale
  exact .ite trivial h

theorem reads_dropKey (h : s.cursor.Within ex) : Reads ex (·.cursor) s.dropKey := by
  unfold dropKey
  split
  · exact h
  · exact .ite trivial h

theorem reads_noteKey (h : s.cursor.Within ex) : Reads ex (·.cursor) s.noteKey := by
  unfold noteKey
  exact .ite h ((reads_dropKey h).bind fun t ht => ht)

theorem within_skipToToken (h : s.cursor.Within ex) : s.skipToToken.cursor.Within ex := by
  have hgo : ∀ (fuel : Nat) (s : Scan), s.cursor.Within ex →
      (skipToToken.go fuel s).cursor.Within ex := by
    intro fuel
    induction fuel with
    | zero =>
      intro s hs
      unfold skipToToken.go
      exact hs
    | succ fuel ih =>
      intro s hs
      unfold skipToToken.go
      dsimp only
      split
      · exact hs.skipSpaces.skipRemark
      · rename_i hbreak
        exact ih _ (hs.skipSpaces.skipRemark.of_readBreak hbreak)
  unfold skipToToken
  dsimp only
  split
  · exact hgo _ _ h.next
  · exact hgo _ _ h

theorem reads_readEnd (h : s.cursor.Within ex) : Reads ex (·.cursor) s.readEnd :=
  (reads_dropKey (within_unwind (-1) h)).bind fun _ ht => ht

theorem reads_readDirective (h : s.cursor.Within ex) : Reads ex (·.cursor) s.readDirective :=
  (reads_dropKey (within_unwind (-1) h)).bind fun _ ht =>
    (reads_readDirectiveName ht).bind fun _ hr => hr

theorem reads_readSeparator (kind : TokenKind) (h : s.cursor.Within ex) :
    Reads ex (·.cursor) (s.readSeparator kind) :=
  (reads_dropKey (within_unwind (-1) h)).bind fun _ ht => ht.advance 3

theorem reads_readOpening (kind : TokenKind) (h : s.cursor.Within ex) :
    Reads ex (·.cursor) (s.readOpening kind) :=
  (reads_noteKey h).bind fun _ ht => ht.advance 1

theorem reads_readClosing (kind : TokenKind) (h : s.cursor.Within ex) :
    Reads ex (·.cursor) (s.readClosing kind) :=
  (reads_dropKey h).bind fun _ ht => ht.advance 1

theorem reads_readComma (h : s.cursor.Within ex) : Reads ex (·.cursor) s.readComma :=
  (reads_dropKey h).bind fun _ ht => ht.advance 1

theorem reads_readEntry (h : s.cursor.Within ex) : Reads ex (·.cursor) s.readEntry := by
  unfold readEntry
  exact .ite trivial ((reads_dropKey (within_nestHere? _ h)).bind fun _ ht => ht.advance 1)

theorem reads_readKey (h : s.cursor.Within ex) : Reads ex (·.cursor) s.readKey := by
  unfold readKey
  exact .ite trivial ((reads_dropKey (within_nestHere? _ h)).bind fun _ ht => ht.advance 1)

theorem reads_readValue (h : s.cursor.Within ex) : Reads ex (·.cursor) s.readValue := by
  unfold readValue
  dsimp only
  split
  · refine ends_pure (Cursor.Within.advance ?_ 1)
    split
    · exact h
    · split
      all_goals
        rename_i t hnest
        have ht : t.cursor.Within ex := by
          rw [cursor_of_nest hnest]
          exact h
        exact ht
  · split
    · trivial
    · have hnest := within_nestHere? .blockMappingStart h
      refine Ends.bind (reads_dropKey ?_) fun _ ht => ht.advance 1
      exact hnest

theorem reads_readAnchor (kind : String → TokenKind) (h : s.cursor.Within ex) :
    Reads ex (·.cursor) (s.readAnchor kind) :=
  (reads_noteKey h).bind fun _ ht => (reads_readAnchorName ht).bind fun _ hr => hr

theorem reads_readTag (h : s.cursor.Within ex) : Reads ex (·.cursor) s.readTag :=
  (reads_noteKey h).bind fun _ ht => (reads_readTagName ht).bind fun _ hr => hr

theorem reads_readBlock (folded : Bool) (h : s.cursor.Within ex) :
    Reads ex (·.cursor) (s.readBlock folded) :=
  (reads_dropKey (s := { s with keyAllowed := true }) h).bind fun _ ht =>
    (reads_readBlockText folded _ ht).bind fun _ hr => hr

theorem reads_readQuoted (h : s.cursor.Within ex) : Reads ex (·.cursor) s.readQuoted :=
  (reads_noteKey h).bind fun _ ht => (Yaml.reads_readQuoted ht).bind fun _ hr => hr

theorem reads_readPlain (h : s.cursor.Within ex) : Reads ex (·.cursor) s.readPlain :=
  (reads_noteKey h).bind fun _ ht => within_readPlain _ _ ht

theorem reads_readToken (h : s.cursor.Within ex) : Reads ex (·.cursor) s.readToken := by
  unfold readToken
  refine .ite (reads_readEnd h) ?_
  refine .ite (reads_readDirective h) ?_
  refine .ite (reads_readSeparator _ h) ?_
  refine .ite (reads_readSeparator _ h) ?_
  refine .ite (reads_readOpening _ h) ?_
  refine .ite (reads_readOpening _ h) ?_
  refine .ite (reads_readClosing _ h) ?_
  refine .ite (reads_readClosing _ h) ?_
  refine .ite (reads_readComma h) ?_
  refine .ite (reads_readEntry h) ?_
  refine .ite (reads_readKey h) ?_
  refine .ite (reads_readValue h) ?_
  refine .ite (reads_readAnchor _ h) ?_
  refine .ite (reads_readAnchor _ h) ?_
  refine .ite (reads_readTag h) ?_
  refine .ite (reads_readBlock _ h) ?_
  refine .ite (reads_readBlock _ h) ?_
  refine .ite (reads_readQuoted h) ?_
  exact .ite (reads_readPlain h) trivial

theorem reads_step (h : s.cursor.Within ex) : Reads ex (·.cursor) s.step :=
  (reads_dropStale (within_skipToToken h)).bind fun _ ht => reads_readToken (within_unwind _ ht)

theorem reads_advance (h : s.cursor.Within ex) : Reads ex (·.cursor) (s.advance ex.cut) := by
  have hstep := reads_step h
  unfold advance
  split
  · exact hstep
  · rename_i c hc
    split
    · rename_i hok
      exact .ite hc (hstep.of_eq_ok hok)
    · change Stop.StandsIn ex (if _ then _ else _)
      split
      · trivial
      · exact hc
    · rename_i herror
      exact hstep.of_eq_error herror

theorem reads_settle (fuel : Nat) (h : s.cursor.Within ex) :
    Reads ex (·.cursor) (s.settle ex.cut fuel) := by
  induction fuel generalizing s with
  | zero => exact ends_pure h
  | succ fuel ih =>
    change Ends _ _ (if s.done then .ok s else _)
    refine .ite h (.ite ?_ ?_)
    · have hread := reads_advance h
      split
      · rename_i hok
        exact ih (hread.of_eq_ok hok)
      · rename_i herror
        exact hread.of_eq_error herror
    · refine (reads_dropStale h).bind fun t ht => .ite ?_ ht
      exact (reads_advance ht).bind fun u hu => ih hu

/-- What stops the reading of tokens stands in the text. -/
theorem standsIn_of_tokensFrom {limit fuel : Nat} {tokens : List Token} {e : Stop}
    (h : s.cursor.Within ex) (hscan : s.tokensFrom ex.cut limit fuel = (tokens, some e)) :
    e.StandsIn ex := by
  induction fuel generalizing s tokens with
  | zero => cases hscan
  | succ fuel ih =>
    rw [tokensFrom] at hscan
    have hread := reads_settle limit h
    split at hscan
    · rename_i herror
      cases hscan
      exact hread.of_eq_error herror
    · rename_i t hok
      have ht := hread.of_eq_ok hok
      split at hscan
      · cases hscan
      · rename_i held _
        rcases hrest : tokensFrom ex.cut limit fuel { t with held := held, given := t.given + 1 }
          with ⟨ts, e'⟩
        rw [hrest] at hscan
        cases hscan
        exact ih (s := { t with held := held, given := t.given + 1 }) ht hrest

end Scan

theorem standsIn_of_scan {tokens : List Token} {e : Stop} (h : Token.scan ex = (tokens, some e)) :
    e.StandsIn ex :=
  Scan.standsIn_of_tokensFrom (s := .start ex.chars) List.suffix_rfl h

end LayeredConfig.Yaml
