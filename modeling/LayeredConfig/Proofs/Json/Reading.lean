import LayeredConfig.Json.Reader
import LayeredConfig.Proofs.Text.Readers

/-!
# Why a JSON text is not read

A JSON text that is not read has a fault, with one exception: a whole number in it has
more digits than may be read.  Every reader leaves an end of the text in front of it, so
the digits stand in the text.

* `Json.Reads` — what a reader may leave and why it may stop.
* `Json.reads_readValue` — values are read that way.
* `Json.ends_read` — so are whole texts.
-/

namespace LayeredConfig.Json

/-! ## Readers -/

/-- A reader stops for a fault, or for a number in the text that is too long. -/
def Stop.StandsIn (cs : List Char) : Stop → Prop
  | .fault _ _ => True
  | .tooLong e => e.TooLongIn cs

/-- What is left is an end of the text. -/
def Reads {α : Type} (cs : List Char) : Except Stop (α × List Char) → Prop :=
  Ends (Stop.StandsIn cs) fun r => r.2 <:+ cs

theorem skip_suffix (cs : List Char) : skip cs <:+ cs :=
  List.dropWhile_suffix _

variable {whole cs : List Char}

/-- What stands after blanks and one more character is an end of the text. -/
theorem suffix_of_skip {c : Char} {rest : List Char} (h : cs <:+ whole)
    (hskip : skip cs = c :: rest) : rest <:+ whole :=
  (List.suffix_cons c rest).trans (hskip ▸ (skip_suffix cs).trans h)

/-! ## Texts and numbers -/

theorem standsIn_of_readUnitEscape {e : Stop} (h : readUnitEscape cs = .error e) :
    e.StandsIn whole := by
  unfold readUnitEscape at h
  repeat' split at h
  all_goals cases h
  all_goals trivial

theorem reads_readText (start : List Char) (n : Nat) (h : cs <:+ whole) :
    Reads whole (readText start n cs) := by
  fun_induction readText start n cs with
  | case1 | case4 | case8 | case9 => trivial
  | case2 n c cs ih => exact ih ((List.suffix_cons _ _).trans h)
  | case3 cs => exact (List.suffix_cons _ _).trans h
  | case5 more e he => exact standsIn_of_readUnitEscape he
  | case6 more d n he hne ih | case7 c more d hne he _ ih | case10 c more _ _ _ ih =>
    exact (ih ((List.suffix_cons _ _).trans h)).map fun _ hr => hr

theorem prefix_wholePart (cs : List Char) : wholePart cs <+: cs := by
  unfold wholePart
  split
  · exact ⟨_, rfl⟩
  · exact List.takeWhile_prefix _

theorem isDigit_of_mem_wholePart {d : Char} (h : d ∈ wholePart cs) : d.isDigit = true := by
  unfold wholePart at h
  split at h
  · obtain rfl := List.mem_singleton.1 h
    rfl
  · exact List.mem_takeWhile_imp h

theorem reads_readNumber (h : cs <:+ whole) : Reads whole (readNumber cs) := by
  unfold readNumber
  split
  rename_i negative body hsigned
  have hbody : body <:+ whole := by
    split at hsigned <;> cases hsigned
    · exact (List.suffix_cons _ _).trans h
    · exact h
  have hrest : ∀ i j k : Nat, ((body.drop i).drop j).drop k <:+ whole := fun i j k =>
    (((List.drop_suffix _ _).trans (List.drop_suffix _ _)).trans (List.drop_suffix _ _)).trans hbody
  dsimp only
  split
  · trivial
  · split
    · split
      · rename_i hlong
        refine ⟨wholePart body, ?_, fun d => isDigit_of_mem_wholePart, hlong, rfl⟩
        exact (prefix_wholePart body).isInfix.trans hbody.isInfix
      · exact hrest _ _ _
    · exact hrest _ _ _

theorem suffix_of_readWord? {hit : Value × List Char} (h : cs <:+ whole)
    (hword : readWord? cs = some hit) : hit.2 <:+ whole := by
  obtain ⟨w, -, hw⟩ := Option.map_eq_some_iff.1 hword
  cases hw
  exact (List.drop_suffix _ _).trans h

/-! ## Values -/

/-- Values, items and entries are read so that an end of the text is left, and stop for a number that
is too long only if its digits stand in the text. -/
theorem reads_readValue (whole : List Char) (fuel : Nat) :
    (∀ cs, cs <:+ whole → Reads whole (readValue fuel cs)) ∧
    (∀ cs, cs <:+ whole → Reads whole (readItems fuel cs)) ∧
    ∀ cs, cs <:+ whole → Reads whole (readEntries fuel cs) := by
  induction fuel with
  | zero => exact ⟨fun _ _ => trivial, fun _ _ => trivial, fun _ _ => trivial⟩
  | succ fuel ih =>
    obtain ⟨hvalue, hitems, hentries⟩ := ih
    refine ⟨fun cs h => ?_, fun cs h => ?_, fun cs h => ?_⟩
    · unfold readValue
      split
      · exact (reads_readText _ _ ((List.suffix_cons _ _).trans h)).map fun _ hr => hr
      · have hrest := (List.suffix_cons _ _).trans h
        split
        · rename_i hskip
          exact suffix_of_skip hrest hskip
        · exact (hentries _ ((skip_suffix _).trans hrest)).map fun _ hr => hr
      · have hrest := (List.suffix_cons _ _).trans h
        split
        · rename_i hskip
          exact suffix_of_skip hrest hskip
        · exact (hitems _ ((skip_suffix _).trans hrest)).map fun _ hr => hr
      · split
        · rename_i hword
          exact suffix_of_readWord? h hword
        · exact reads_readNumber h
    · unfold readItems
      refine (hvalue cs h).bind fun r hr => ?_
      dsimp only
      split
      · rename_i hskip
        exact suffix_of_skip hr hskip
      · rename_i hskip
        have hmore := (skip_suffix _).trans (suffix_of_skip hr hskip)
        exact (hitems _ hmore).bind fun xs hxs => hxs
      · trivial
    · unfold readEntries
      split
      · refine (reads_readText _ _ ((List.suffix_cons _ _).trans h)).bind fun key hkey => ?_
        dsimp only
        split
        · rename_i hskip
          have hmore := (skip_suffix _).trans (suffix_of_skip hkey hskip)
          refine (hvalue _ hmore).bind fun v hv => ?_
          split
          · rename_i hskip
            exact suffix_of_skip hv hskip
          · rename_i hskip
            have hmore := (skip_suffix _).trans (suffix_of_skip hv hskip)
            exact (hentries _ hmore).bind fun es hes => hes
          · trivial
        · trivial
      · trivial

/-- A whole text that is not read has a fault, or a number stands in it that is too long. -/
theorem ends_read (cs : List Char) : Ends (Stop.StandsIn cs) (fun _ => True) (read cs) := by
  unfold read
  refine .ite trivial (((reads_readValue cs _).1 _ (skip_suffix cs)).bind fun r _ => ?_)
  dsimp only
  split <;> trivial

end LayeredConfig.Json
