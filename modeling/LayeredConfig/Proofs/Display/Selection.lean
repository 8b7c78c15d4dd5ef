import LayeredConfig.Display.View
import LayeredConfig.Proofs.Json.Placeholders
import LayeredConfig.Proofs.Path.Legible

/-!
# Which leaves are shown

Of a tree, either all leaves are shown or those that are unresolved.  A leaf is looked at
in its text form, and that of a list is its JSON text, in which the marks of JSON stand
between its texts.  If none of these leaves a placeholder open, the leaves that are shown
are just the unresolved ones; an open one may be closed by the marks that follow.

* `View.Unresolved` — undefined, or some text has a placeholder.
* `View.Closed` — no text of a container leaves a placeholder open.
* `View.isUnresolved_eq` — a leaf can be looked at if nothing in it is without a text form.
* `View.select_unresolved` — the leaves that are shown.
-/

namespace LayeredConfig.View

open Template

/-! ## Unresolved leaves -/

/-- The value is undefined, or some text of it has a placeholder: a text itself, a text that stands
anywhere in a container, or the text form of what is neither. -/
def Unresolved : Value → Prop
  | .atom .undefined => True
  | .atom (.str s) => hasPlaceholder s.toList = true
  | .atom (.bytes bs) => hasPlaceholder (Text.quotedBytes bs).toList = true
  | .atom (.fn f) => hasPlaceholder (Atom.fn f).text.toList = true
  | .atom _ => False
  | .list _ items => ∃ s ∈ Json.itemTexts items, hasPlaceholder s.toList = true
  | .tuple items => ∃ s ∈ Json.itemTexts items, hasPlaceholder s.toList = true
  | .map _ es => ∃ s ∈ Json.entryTexts es, hasPlaceholder s.toList = true
  | .set members => hasPlaceholder (Json.setText members).toList = true

/-- No text of a container leaves a placeholder open. -/
def Closed : Value → Prop
  | .list _ items => ∀ s ∈ Json.itemTexts items, ¬ LeavesOpen s.toList
  | .tuple items => ∀ s ∈ Json.itemTexts items, ¬ LeavesOpen s.toList
  | .map _ es => ∀ s ∈ Json.entryTexts es, ¬ LeavesOpen s.toList
  | _ => True

/-- Nothing in the value is without a text form. -/
def Writable (v : Value) : Prop :=
  Json.faults v = []

/-- The answer to whether a value is unresolved is right, but for what is left open. -/
structure Answers (v : Value) (answer : Bool) : Prop where
  eq_ok : isUnresolved v = .ok answer
  of_unresolved : Unresolved v → answer = true
  unresolved : Closed v → answer = true → Unresolved v

/-- What a container is told by is its JSON text. -/
theorem answers_of_json {v : Value} (hw : Writable v)
    (heq : isUnresolved v = (Json.text? v).map fun s => hasPlaceholder s.toList)
    (hun : Unresolved v ↔ ∃ s ∈ Json.texts v, hasPlaceholder s.toList = true)
    (hclosed : Closed v → ∀ s ∈ Json.texts v, ¬ LeavesOpen s.toList) :
    ∃ answer, Answers v answer := by
  obtain ⟨cs, hcs⟩ := Json.exists_chars_iff.2 hw
  obtain ⟨hof, honly⟩ := Json.hasPlaceholder_of_texts hcs
  refine ⟨hasPlaceholder cs, ?_, ?_, ?_⟩
  · rw [heq, Json.text?, hcs]
    simp [Except.map]
  · intro h
    obtain ⟨s, hs, hplaceholder⟩ := hun.1 h
    exact hof s hs hplaceholder
  · intro h hanswer
    exact hun.2 (honly (hclosed h) hanswer)

theorem isWritable_of_writable {a : Atom} (hw : Writable (.atom a)) : a.isWritable = true := by
  rw [Writable, Json.faults, Json.atomFaults] at hw
  split at hw
  · assumption
  · cases hw

theorem answers_atom {a : Atom} (hw : Writable (.atom a)) : ∃ answer, Answers (.atom a) answer := by
  have hunsigned {s : String} (heq : isUnresolved (.atom a) = .ok (hasPlaceholder s.toList))
      (hs : Unsigned s.toList) (hun : ¬ Unresolved (.atom a)) :
      ∃ answer, Answers (.atom a) answer := by
    rw [hs.not_hasPlaceholder] at heq
    exact ⟨false, heq, fun h => absurd h hun, nofun⟩
  cases a with
  | undefined => exact ⟨true, rfl, fun _ => rfl, fun _ _ => trivial⟩
  | str s => exact ⟨_, rfl, id, fun _ => id⟩
  | bytes bs => exact ⟨_, rfl, id, fun _ => id⟩
  | fn f => exact ⟨_, rfl, id, fun _ => id⟩
  | null => exact hunsigned (s := "null") rfl (by decide) id
  | bool b => exact hunsigned rfl (unsigned_ite (by decide) (by decide)) id
  | int n =>
    refine hunsigned (s := toString n) ?_ (unsigned_int n) id
    have htext : (Atom.int n).text? = .ok (toString n) := if_pos (isWritable_of_writable hw)
    rw [isUnresolved, Template.text, htext]
    · rfl
    all_goals exact nofun
  | float x => exact hunsigned rfl (unsigned_double x) id
  | date d => exact hunsigned rfl (unsigned_date d) id
  | datetime t => exact hunsigned rfl (unsigned_datetime t) id
  | missing => exact hunsigned (s := "MISSING") rfl (by decide) id

theorem answers_set {members : List Key} (hw : Writable (.set members)) :
    ∃ answer, Answers (.set members) answer := by
  have htext : Json.setText? members = .ok (Json.setText members) := by
    have hfaults : Json.setFaults members = [] := hw
    rw [Json.setText?_eq, hfaults]
    rfl
  refine ⟨hasPlaceholder (Json.setText members).toList, ?_, id, fun _ => id⟩
  rw [isUnresolved, Template.text, htext]
  · rfl
  · exact nofun

/-- A value with a text form can be asked. -/
theorem exists_answers {v : Value} (hw : Writable v) : ∃ answer, Answers v answer := by
  cases v with
  | atom a => exact answers_atom hw
  | set members => exact answers_set hw
  | list t items => exact answers_of_json hw rfl Iff.rfl id
  | tuple items => exact answers_of_json hw rfl Iff.rfl id
  | map t es => exact answers_of_json hw rfl Iff.rfl id

/-- The answer is that the value is unresolved. -/
def keeps (v : Value) : Bool :=
  match isUnresolved v with
  | .ok answer => answer
  | .error _ => false

theorem Answers.keeps_eq {v : Value} {answer : Bool} (h : Answers v answer) : keeps v = answer := by
  rw [keeps, h.eq_ok]

/-- The first fault keeps a value from having a text form. -/
theorem text_eq_error {v : Value} {e : Unwritable} {es : List Unwritable}
    (h : Json.faults v = e :: es) : Template.text v = .error e := by
  have hjson : Json.text? v = .error e := by
    rw [Json.text?, Json.chars?_eq, h]
    rfl
  cases v with
  | atom a =>
    rw [Json.faults, Json.atomFaults] at h
    split at h
    · cases h
    · rename_i hno
      cases a with
      | int n =>
        cases h
        exact if_neg hno
      | _ => exact absurd rfl hno
  | set members =>
    have hfaults : Json.setFaults members = e :: es := h
    rw [Template.text, Json.setText?_eq, hfaults]
    rfl
  | list t items => exact hjson
  | tuple items => exact hjson
  | map t es => exact hjson

/-- The first fault is the error, and without faults there is an answer. -/
theorem isUnresolved_eq (v : Value) :
    isUnresolved v = (Json.check (Json.faults v)).map fun _ => keeps v := by
  cases hfaults : Json.faults v with
  | nil =>
    obtain ⟨answer, hanswer⟩ := exists_answers hfaults
    rw [hanswer.keeps_eq, hanswer.eq_ok]
    rfl
  | cons e es =>
    rw [isUnresolved, text_eq_error hfaults]
    · rfl
    · rintro rfl
      cases hfaults

/-! ## Leaves that are shown -/

/-- The leaves of entries in the order in which they are shown. -/
def ordered (o : ViewOptions) (es : List (Key × Value)) : Flat Unit :=
  if o.sorted then sortLeaves (Tree.flattenEntries "" es) else Tree.flattenEntries "" es

/-- No leaf is lost when they are put in order. -/
theorem perm_ordered (o : ViewOptions) (es : List (Key × Value)) :
    (ordered o es).Perm (Tree.flattenEntries "" es) := by
  unfold ordered
  split
  · exact List.mergeSort_perm _ _
  · exact List.Perm.refl _

theorem select_map (o : ViewOptions) (es : List (Key × Value)) :
    select o (.map () es) =
      if Tree.areLegible es then
        if o.debug then (unresolvedLeaves (ordered o es)).mapError .unwritable
        else .ok (ordered o es)
      else .error (.flatten (.key .tooLarge)) := by
  unfold select
  rcases Tree.flatten_map_cases () es "" with ⟨hes, hflat⟩ | ⟨hes, hflat⟩ <;> rw [hflat, hes] <;> rfl

/-- What in some leaves has no text form, from left to right. -/
def faultsOf (leaves : Flat Unit) : List Unwritable :=
  leaves.flatMap fun leaf => Json.faults leaf.2

/-- The unresolved leaves are found, unless something in some leaf has no text form. -/
theorem unresolvedLeaves_eq (leaves : Flat Unit) :
    unresolvedLeaves leaves =
      (Json.check (faultsOf leaves)).map fun _ => leaves.filter fun leaf => keeps leaf.2 := by
  induction leaves with
  | nil => rfl
  | cons leaf leaves ih =>
    have hfaults : faultsOf (leaf :: leaves) = Json.faults leaf.2 ++ faultsOf leaves := rfl
    rw [unresolvedLeaves, isUnresolved_eq, ih, hfaults, Json.check_append, List.filter_cons]
    cases Json.check (Json.faults leaf.2) <;> cases Json.check (faultsOf leaves) <;>
      cases keeps leaf.2 <;> rfl

/-- What keeps a mapping from being shown. -/
inductive Obstacle (debug : Bool) (es : List (Key × Value)) : ViewError → Prop
  /-- A key that a chain of mappings leads to has too many digits to be written into a path. -/
  | key : Tree.areLegible es = false → Obstacle debug es (.flatten (.key .tooLarge))
  /-- With debugging, something in a leaf has no text form. -/
  | leaf {leaf : String × Value} {e : Unwritable} : debug = true →
    leaf ∈ Tree.flattenEntries "" es → e ∈ Json.faults leaf.2 → Obstacle debug es (.unwritable e)

theorem mem_faultsOf_ordered {o : ViewOptions} {es : List (Key × Value)} {e : Unwritable} :
    e ∈ faultsOf (ordered o es) ↔ ∃ leaf ∈ Tree.flattenEntries "" es, e ∈ Json.faults leaf.2 := by
  simp only [faultsOf, List.mem_flatMap, (perm_ordered o es).mem_iff]

/-- The leaves of a mapping are selected if nothing keeps it from being shown. -/
theorem select_of_forall_not_obstacle {o : ViewOptions} {es : List (Key × Value)}
    (h : ∀ e, ¬ Obstacle o.debug es e) :
    select o (.map () es) =
      .ok (if o.debug then (ordered o es).filter fun leaf => keeps leaf.2 else ordered o es) := by
  have hes : Tree.areLegible es = true := by
    rw [← Bool.not_eq_false]
    exact fun hno => h _ (.key hno)
  rw [select_map, if_pos hes]
  cases hdebug : o.debug with
  | false => rfl
  | true =>
    have hfaults : faultsOf (ordered o es) = [] := by
      refine List.eq_nil_iff_forall_not_mem.2 fun e he => ?_
      obtain ⟨leaf, hmem, he⟩ := mem_faultsOf_ordered.1 he
      exact h _ (.leaf hdebug hmem he)
    rw [if_pos rfl, if_pos rfl, unresolvedLeaves_eq, hfaults]
    rfl

/-- The leaves of a mapping can be selected if and only if nothing keeps it from being shown. -/
theorem exists_select_iff {o : ViewOptions} {es : List (Key × Value)} :
    (∃ shown, select o (.map () es) = .ok shown) ↔ ∀ e, ¬ Obstacle o.debug es e := by
  refine ⟨?_, fun h => ⟨_, select_of_forall_not_obstacle h⟩⟩
  rintro ⟨shown, hshown⟩ e he
  rw [select_map] at hshown
  cases he with
  | key hes =>
    rw [if_neg (by simp [hes])] at hshown
    cases hshown
  | @leaf leaf u hdebug hmem hu =>
    split_ifs at hshown
    rw [unresolvedLeaves_eq] at hshown
    have hfault : u ∈ faultsOf (ordered o es) := mem_faultsOf_ordered.2 ⟨leaf, hmem, hu⟩
    cases hfaults : faultsOf (ordered o es) with
    | nil =>
      rw [hfaults] at hfault
      cases hfault
    | cons first rest =>
      rw [hfaults] at hshown
      cases hshown

/-- Without debugging all leaves are shown.  With it, a leaf that can be asked is shown if it is
unresolved, and only then if no text of it leaves a placeholder open. -/
theorem select_unresolved (o : ViewOptions) {es : List (Key × Value)}
    (hes : Tree.areLegible es = true)
    (hw : o.debug = true → ∀ leaf ∈ Tree.flattenEntries "" es, Writable leaf.2) :
    ∃ shown, select o (.map () es) = .ok shown ∧ shown.Sublist (ordered o es) ∧
      (o.debug = false → shown = ordered o es) ∧
      (o.debug = true → ∀ leaf ∈ Tree.flattenEntries "" es,
        (Unresolved leaf.2 → leaf ∈ shown) ∧
          (Closed leaf.2 → leaf ∈ shown → Unresolved leaf.2)) := by
  have hnone : ∀ e, ¬ Obstacle o.debug es e := by
    rintro _ (hno | ⟨hdebug, hmem, he⟩)
    · rw [hes] at hno
      cases hno
    · rw [hw hdebug _ hmem] at he
      cases he
  rw [select_of_forall_not_obstacle hnone]
  cases hdebug : o.debug with
  | false => exact ⟨_, rfl, List.Sublist.refl _, fun _ => rfl, nofun⟩
  | true =>
    refine ⟨_, rfl, List.filter_sublist, nofun, fun _ leaf hmem => ?_⟩
    obtain ⟨answer, hanswer⟩ := exists_answers (hw hdebug leaf hmem)
    rw [if_pos rfl, List.mem_filter, hanswer.keeps_eq]
    exact ⟨fun h => ⟨(perm_ordered o es).mem_iff.2 hmem, hanswer.of_unresolved h⟩,
      fun hclosed h => hanswer.unresolved hclosed h.2⟩

/-- A placeholder may stand anywhere in a list, and the marks of JSON make none of themselves. -/
theorem select_unresolved_nested :
    let held : Value := .list () [.atom (.int 1), .map () [(.str "${a:b}", .list () [])]]
    let marks : Value := .list () [.str "$\"", .str ":\u00e9"]
    ∃ shown, select ⟨false, false, true⟩
        (.map () [(.str "l", held), (.str "q", marks), (.str "n", .atom (.int 5))]) = .ok shown ∧
      ("l", held) ∈ shown ∧ ("q", marks) ∉ shown ∧ ("n", .atom (.int 5)) ∉ shown := by
  intro held marks
  have hleaves : Tree.flattenEntries "" [(.str "l", held), (.str "q", marks),
      (.str "n", .atom (.int 5))] = [("l", held), ("q", marks), ("n", .atom (.int 5))] := rfl
  have hw : ∀ leaf ∈ [("l", held), ("q", marks), ("n", .atom (.int 5))], Writable leaf.2 := by
    simp only [List.forall_mem_cons, Writable]
    decide
  obtain ⟨shown, hshown, -, -, hdebug⟩ :=
    select_unresolved ⟨false, false, true⟩ rfl fun _ leaf hmem => hw leaf (hleaves ▸ hmem)
  rw [hleaves] at hdebug
  refine ⟨shown, hshown, ?_, fun hmem => ?_, fun hmem => ?_⟩
  · exact (hdebug rfl _ List.mem_cons_self).1 ⟨"${a:b}", List.mem_cons_self, by decide⟩
  · have hbrace : ∀ s ∈ ["$\"", ":\u00e9"], '{' ∉ s.toList := by decide
    obtain ⟨s, hs, hplaceholder⟩ := (hdebug rfl _ (List.mem_cons_of_mem _ List.mem_cons_self)).2
      (fun s hs => not_leavesOpen_of_brace (hbrace s hs)) hmem
    rw [not_hasPlaceholder_of_brace (hbrace s hs)] at hplaceholder
    cases hplaceholder
  · exact (hdebug rfl ("n", .atom (.int 5)) (by simp)).2 trivial hmem

/-- A set is shown for the placeholder in it, though it is no scalar and no list. -/
theorem select_set :
    ∃ v : Value, (∀ a, v ≠ .atom a) ∧ (∀ items, v ≠ .list () items) ∧
      select ⟨false, false, true⟩ (.map () [(.str "s", v)]) = .ok [("s", v)] :=
  ⟨.set [.str "${a:b}"], nofun, nofun, rfl⟩

-- a placeholder of the JSON text that no text of the list has: one text leaves it open
example : select ⟨false, false, true⟩ (.map () [(.str "l", .list () [.str "$\x7ba", .str ":b\x7d"])]) =
    .ok [("l", .list () [.str "$\x7ba", .str ":b\x7d"])] :=
  rfl

end LayeredConfig.View
