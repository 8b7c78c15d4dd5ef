import LayeredConfig.Proofs.Template.Nested
import LayeredConfig.Resolve.Pass

/-!
# Nested placeholders from the inside out

What a text with nested placeholders means, by recursion over its fragments: the body
of a placeholder is completed first, with the text form of every placeholder in
it, and then the placeholder is evaluated.  A row that is exactly one placeholder
has its value; any other row is a text.

* `value` — the meaning of a row of fragments.
* `EmbedsAll` — every text that goes into another one is plain.
* `value_fillAll` — the innermost placeholders may be evaluated ahead.
-/

namespace LayeredConfig.Template

variable {φ : Type} (ev : Placeholder → Except (ResolveError φ) Value)

/-- The text form of a placeholder that holds no other one. -/
def embedded (p : Placeholder) : Except (ResolveError φ) (List Char) := do
  let v ← ev p
  return (← ResolveError.ofExcept .unwritable (text v)).toList

variable {ev} in
theorem embedded_of_ok {p : Placeholder} {v : Value} {s : String} (hv : ev p = .ok v)
    (hs : text v = .ok s) : embedded ev p = .ok s.toList := by
  simp only [embedded, hv, bind, Except.bind, hs, ResolveError.ofExcept, pure, Except.pure]

mutual

/-- The text form of a fragment. -/
def fragmentText : Fragment → Except (ResolveError φ) (List Char)
  | .literal cs => pure cs
  | .hole sigil space body => do
    let completed ← fragmentsText body
    embedded ev ⟨sigil, space, completed⟩

/-- The text form of fragments one after the other. -/
def fragmentsText : List Fragment → Except (ResolveError φ) (List Char)
  | [] => pure []
  | p :: ps => do
    let first ← fragmentText p
    let rest ← fragmentsText ps
    return first ++ rest

end

/-- The value of a row of fragments. -/
def value : List Fragment → Except (ResolveError φ) Value
  | [.hole sigil space body] => do
    let completed ← fragmentsText ev body
    ev ⟨sigil, space, completed⟩
  | ps => do return .str (String.ofList (← fragmentsText ev ps))

mutual

/-- The text form of every placeholder of the fragment is plain. -/
def EmbedsFragment : Fragment → Prop
  | .literal _ => True
  | .hole sigil space body =>
    EmbedsFragments body ∧ ∀ cs, fragmentText ev (.hole sigil space body) = .ok cs → Plain cs

/-- `EmbedsFragment` for every fragment. -/
def EmbedsFragments : List Fragment → Prop
  | [] => True
  | p :: ps => EmbedsFragment p ∧ EmbedsFragments ps

end

/-- The text form of every placeholder is plain that becomes part of a text: of all placeholders
but the one that is all of the row. -/
def EmbedsAll : List Fragment → Prop
  | [.hole _ _ body] => EmbedsFragments ev body
  | ps => EmbedsFragments ev ps

open Fragment

variable {ev}

/-- A row that is no placeholder alone is a text. -/
theorem value_of_ne {ps : List Fragment} (h : ∀ sigil space body, ps ≠ [.hole sigil space body]) :
    value ev ps = (do return .str (String.ofList (← fragmentsText ev ps))) := by
  unfold value
  split
  · exact absurd rfl (h _ _ _)
  · rfl

theorem embedsAll_of_ne {ps : List Fragment}
    (h : ∀ sigil space body, ps ≠ [.hole sigil space body]) :
    EmbedsAll ev ps = EmbedsFragments ev ps := by
  unfold EmbedsAll
  split
  · exact absurd rfl (h _ _ _)
  · rfl

/-! ## Parts without placeholders -/

/-- Literal pieces are their own text form. -/
theorem fragmentsText_of_not_isHole {ps : List Fragment} (h : ps.any isHole = false) :
    fragmentsText ev ps = .ok (charsAll ps) := by
  induction ps with
  | nil => rfl
  | cons p ps ih =>
    cases p with
    | hole sigil space body => simp [isHole] at h
    | literal cs =>
      rw [fragmentsText, ih (by simpa [isHole] using h)]
      rfl

theorem value_of_not_isHole {ps : List Fragment} (h : ps.any isHole = false) :
    value ev ps = .ok (.str (String.ofList (charsAll ps))) := by
  have hrow : ∀ sigil space body, ps ≠ [.hole sigil space body] := by
    rintro sigil space body rfl
    simp [isHole] at h
  rw [value_of_ne hrow, fragmentsText_of_not_isHole h]
  rfl

/-- A placeholder that holds no other one has the text form of its value. -/
theorem fragmentText_innermost (sigil : Sigil) (space : List Char) {body : List Fragment}
    (h : body.any isHole = false) :
    fragmentText ev (.hole sigil space body) = embedded ev ⟨sigil, space, charsAll body⟩ := by
  rw [fragmentText, fragmentsText_of_not_isHole h]
  rfl

/-- A row that is exactly one placeholder, which holds no other one, has its value. -/
theorem value_innermost (sigil : Sigil) (space : List Char) {body : List Fragment}
    (h : body.any isHole = false) :
    value ev [.hole sigil space body] = ev ⟨sigil, space, charsAll body⟩ := by
  rw [value, fragmentsText_of_not_isHole h]
  rfl

/-! ## Placeholders evaluated ahead -/

section Ahead

variable {texts : Placeholder → List Char}

mutual

theorem fragmentText_fill : (p : Fragment) →
    (∀ q, .hole q ∈ p.pieces → embedded ev q = .ok (texts q)) →
    fragmentText ev (p.fill texts) = fragmentText ev p
  | .literal _, _ => rfl
  | .hole sigil space body, h => by
    by_cases hany : body.any isHole = true
    · rw [fill, if_pos hany, fragmentText, fragmentText,
        fragmentsText_fillAll body fun q hq => h q (mem_pieces_of_mem_body hany hq)]
    · rw [Bool.not_eq_true] at hany
      have hq : embedded ev ⟨sigil, space, charsAll body⟩ =
          .ok (texts ⟨sigil, space, charsAll body⟩) :=
        h _ (by rw [pieces, hany]; exact List.mem_singleton_self _)
      rw [fragmentText_innermost sigil space hany, hq, fill, hany]
      rfl

/-- The text form of fragments stays when innermost placeholders are replaced by theirs. -/
theorem fragmentsText_fillAll : (ps : List Fragment) →
    (∀ q, .hole q ∈ piecesAll ps → embedded ev q = .ok (texts q)) →
    fragmentsText ev (fillAll texts ps) = fragmentsText ev ps
  | [], _ => rfl
  | p :: ps, h => by
    rw [fillAll, fragmentsText, fragmentsText,
      fragmentText_fill p fun q hq => h q (List.mem_append_left _ hq),
      fragmentsText_fillAll ps fun q hq => h q (List.mem_append_right _ hq)]

end

mutual

theorem EmbedsFragment.fill : (p : Fragment) →
    (∀ q, .hole q ∈ p.pieces → embedded ev q = .ok (texts q)) → EmbedsFragment ev p →
    EmbedsFragment ev (p.fill texts)
  | .literal _, _, _ => trivial
  | .hole sigil space body, h, hp => by
    by_cases hany : body.any isHole = true
    · have htext := fragmentText_fill (.hole sigil space body) h
      rw [Fragment.fill, if_pos hany] at htext ⊢
      have hbody := EmbedsFragments.fillAll body
        (fun q hq => h q (mem_pieces_of_mem_body hany hq)) hp.1
      refine ⟨hbody, ?_⟩
      rw [htext]
      exact hp.2
    · rw [Bool.not_eq_true] at hany
      rw [Fragment.fill, hany]
      trivial

/-- What goes into a text stays plain when innermost placeholders are replaced. -/
theorem EmbedsFragments.fillAll : (ps : List Fragment) →
    (∀ q, .hole q ∈ piecesAll ps → embedded ev q = .ok (texts q)) → EmbedsFragments ev ps →
    EmbedsFragments ev (fillAll texts ps)
  | [], _, _ => trivial
  | p :: ps, h, hp =>
    ⟨EmbedsFragment.fill p (fun q hq => h q (List.mem_append_left _ hq)) hp.1,
      EmbedsFragments.fillAll ps (fun q hq => h q (List.mem_append_right _ hq)) hp.2⟩

end

mutual

theorem EmbedsFragment.plain : (p : Fragment) → EmbedsFragment ev p → {q : Placeholder} →
    .hole q ∈ p.pieces → {cs : List Char} → embedded ev q = .ok cs → Plain cs
  | .literal cs, _, q, hq, _, _ => by
    obtain ⟨c, -, hc⟩ := List.mem_map.1 hq
    cases hc
  | .hole sigil space body, hp, q, hq, cs, hcs => by
    by_cases hany : body.any isHole = true
    · rw [pieces, if_pos hany] at hq
      have hbody : .hole q ∈ piecesAll body := by simpa using hq
      exact EmbedsFragments.plain body hp.1 hbody hcs
    · rw [Bool.not_eq_true] at hany
      rw [pieces, hany] at hq
      cases List.mem_singleton.1 hq
      exact hp.2 cs ((fragmentText_innermost sigil space hany).trans hcs)

/-- The innermost placeholders of fragments have plain text forms. -/
theorem EmbedsFragments.plain : (ps : List Fragment) → EmbedsFragments ev ps → {q : Placeholder} →
    .hole q ∈ piecesAll ps → {cs : List Char} → embedded ev q = .ok cs → Plain cs
  | [], _, _, hq, _, _ => by cases hq
  | p :: ps, hp, q, hq, cs, hcs => by
    rcases List.mem_append.1 hq with hq | hq
    · exact EmbedsFragment.plain p hp.1 hq hcs
    · exact EmbedsFragments.plain ps hp.2 hq hcs

end

/-! ## Rows of fragments -/

/-- Only a placeholder that holds another one is a placeholder after the innermost ones are
replaced. -/
theorem fillAll_ne {ps : List Fragment} (h : ∀ sigil space body, ps ≠ [.hole sigil space body])
    (sigil : Sigil) (space : List Char) (body : List Fragment) :
    fillAll texts ps ≠ [.hole sigil space body] := by
  intro hfill
  match ps with
  | [] => cases hfill
  | [.literal cs] => cases hfill
  | [.hole sigil' space' body'] => exact h sigil' space' body' rfl
  | p :: q :: ps => simp [fillAll] at hfill

/-- A row whose text is not exactly one placeholder is a placeholder that holds another one, or no
placeholder alone. -/
theorem nested_or_ne {ps : List Fragment} (hne : ∀ p, piecesAll ps ≠ [.hole p]) :
    (∃ sigil space body, ps = [.hole sigil space body] ∧ body.any isHole = true) ∨
      ∀ sigil space body, ps ≠ [.hole sigil space body] := by
  by_cases h : ∃ sigil space body, ps = [.hole sigil space body]
  · obtain ⟨sigil, space, body, rfl⟩ := h
    refine Or.inl ⟨sigil, space, body, rfl, ?_⟩
    by_contra hany
    refine hne ⟨sigil, space, charsAll body⟩ ?_
    rw [piecesAll, piecesAll, List.append_nil, pieces, if_neg hany]
  · exact Or.inr fun sigil space body hps => h ⟨sigil, space, body, hps⟩

/-- The value of a row does not change when its innermost placeholders are evaluated ahead. -/
theorem value_fillAll {ps : List Fragment} (hne : ∀ p, piecesAll ps ≠ [.hole p])
    (h : ∀ q, .hole q ∈ piecesAll ps → embedded ev q = .ok (texts q)) :
    value ev (fillAll texts ps) = value ev ps := by
  rcases nested_or_ne hne with ⟨sigil, space, body, rfl, hany⟩ | hps
  · have hbody := fragmentsText_fillAll body fun q hq =>
      h q (List.mem_append_left [] (mem_pieces_of_mem_body hany hq))
    rw [fillAll, fillAll, fill, if_pos hany, value, value, hbody]
  · rw [value_of_ne hps, value_of_ne (fillAll_ne hps), fragmentsText_fillAll ps h]

theorem EmbedsAll.fillAll {ps : List Fragment} (hne : ∀ p, piecesAll ps ≠ [.hole p])
    (h : ∀ q, .hole q ∈ piecesAll ps → embedded ev q = .ok (texts q)) (hps : EmbedsAll ev ps) :
    EmbedsAll ev (fillAll texts ps) := by
  rcases nested_or_ne hne with ⟨sigil, space, body, rfl, hany⟩ | hrow
  · rw [Fragment.fillAll, Fragment.fillAll, Fragment.fill, if_pos hany]
    exact EmbedsFragments.fillAll body
      (fun q hq => h q (List.mem_append_left [] (mem_pieces_of_mem_body hany hq))) hps
  · rw [embedsAll_of_ne hrow] at hps
    rw [embedsAll_of_ne (fillAll_ne hrow)]
    exact EmbedsFragments.fillAll ps h hps

theorem EmbedsAll.plain {ps : List Fragment} (hne : ∀ p, piecesAll ps ≠ [.hole p])
    (hps : EmbedsAll ev ps) {q : Placeholder} (hq : .hole q ∈ piecesAll ps) {cs : List Char}
    (hcs : embedded ev q = .ok cs) : Plain cs := by
  rcases nested_or_ne hne with ⟨sigil, space, body, rfl, hany⟩ | hrow
  · rw [piecesAll, piecesAll, List.append_nil, pieces, if_pos hany] at hq
    have hbody : .hole q ∈ piecesAll body := by simpa using hq
    exact EmbedsFragments.plain body hps hbody hcs
  · rw [embedsAll_of_ne hrow] at hps
    exact EmbedsFragments.plain ps hps hq hcs

end Ahead

end LayeredConfig.Template
