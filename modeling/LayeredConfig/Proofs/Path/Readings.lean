import LayeredConfig.Proofs.Path.Hidden
import Mathlib.Data.List.TakeWhile

/-!
# How a path is read

A segment leads from a mapping to the value of a key, and from a row to the item at a
position.  A path leads to what its segments lead to, one after the other, or else it
meets a segment that names nothing.  There are two more ways to end.  A segment of
digits that writes no position, since some digits have no value and no numeral may be
too long, is refused by every row.  And a mapping in which a segment is no key refuses
it if a key that cannot be written comes before any that is written like it.

* `Path.index?_eq_error_iff` — the segments that are refused, and how.
* `Tree.names_iff` — a segment names the child that is looked up.
* `Tree.get_outcomes` — what a path leads to, where it ends early, and where it is refused.
* `Tree.get_refuses_superscript` — the look-up of a path that is refused.
-/

namespace LayeredConfig

/-! ## Positions -/

namespace Path

/-- The segment is made of digits, whether or not they have values. -/
def IsDigits (segment : String) : Prop :=
  segment ≠ "" ∧ ∀ c ∈ segment.toList, Text.isDigit c = true

/-- The digits with values with which a segment begins. -/
def numeral (segment : String) : List Char :=
  segment.toList.takeWhile fun c => (Text.digitValue? c).isSome

/-- The segment writes a position: digits that all have values, and not too many of them. -/
structure Position (segment : String) (i : Nat) : Prop where
  nonempty : segment ≠ ""
  valued : ∀ c ∈ segment.toList, (Text.digitValue? c).isSome = true
  short : segment.toList.length ≤ NumeralError.maxDigits
  value : Text.digitsValue (segment.toList.filterMap Text.digitValue?) = i

/-- The segment is made of digits and writes no position, for the reason given. -/
inductive Refused (segment : String) : NumeralError → Prop where
  /-- The numeral is too long. -/
  | tooLong (h : IsDigits segment) (hlong : NumeralError.maxDigits < (numeral segment).length) :
      Refused segment (.tooLong (numeral segment).length)
  /-- One of the digits has no value. -/
  | notNumeral (h : IsDigits segment)
      (hshort : (numeral segment).length ≤ NumeralError.maxDigits)
      (hdigit : ∃ c ∈ segment.toList, Text.digitValue? c = none) :
      Refused segment (.notNumeral 10 segment)

variable {s : String} {i : Nat} {e : NumeralError}

theorem Refused.isDigits (h : Refused s e) : IsDigits s := by
  cases h with
  | tooLong h => exact h
  | notNumeral h => exact h

theorem Position.isDigits (h : Position s i) : IsDigits s :=
  ⟨h.nonempty, fun c hc => by rw [Text.isDigit, h.valued c hc, Bool.true_or]⟩

theorem numeral_of_valued (h : ∀ c ∈ s.toList, (Text.digitValue? c).isSome = true) :
    numeral s = s.toList :=
  List.takeWhile_eq_self_iff.2 h

/-- A digit without value ends the numeral. -/
theorem length_numeral_lt_iff :
    (numeral s).length < s.toList.length ↔ ∃ c ∈ s.toList, Text.digitValue? c = none := by
  constructor
  · intro hlt
    by_contra hall
    push Not at hall
    rw [numeral_of_valued fun c hc => Option.isSome_iff_ne_none.2 (hall c hc)] at hlt
    exact lt_irrefl _ hlt
  · rintro ⟨c, hc, hnone⟩
    have hne : numeral s ≠ s.toList := by
      intro heq
      have hsome := List.takeWhile_eq_self_iff.1 heq c hc
      rw [hnone] at hsome
      cases hsome
    have hfront : numeral s <+: s.toList := List.takeWhile_prefix _
    exact lt_of_le_of_ne hfront.length_le fun hlen => hne (hfront.eq_of_length hlen)

theorem index?_of_not_isDigits (h : ¬ IsDigits s) : index? s = .ok none := by
  have hcond : (s.toList.isEmpty || !s.toList.all Text.isDigit) = true := by
    by_contra hnot
    refine h ⟨fun hempty => hnot (by rw [hempty]; rfl), fun c hc => ?_⟩
    simp only [Bool.or_eq_true, Bool.not_eq_true', not_or, Bool.not_eq_false] at hnot
    exact List.all_eq_true.1 hnot.2 c hc
  rw [index?]
  exact if_pos hcond

/-- A segment of digits is read as a numeral. -/
theorem index?_of_isDigits (h : IsDigits s) :
    index? s =
      if NumeralError.maxDigits < (numeral s).length then .error (.tooLong (numeral s).length)
      else if (numeral s).length < s.toList.length then .error (.notNumeral 10 s)
      else .ok (some (Text.digitsValue ((numeral s).filterMap Text.digitValue?))) := by
  have hcond : ¬ (s.toList.isEmpty || !s.toList.all Text.isDigit) = true := by
    have hne : s.toList ≠ [] := mt String.toList_eq_nil_iff.1 h.1
    have hall : s.toList.all Text.isDigit = true := List.all_eq_true.2 h.2
    simp [hne, hall]
  rw [index?]
  exact if_neg hcond

/-- A segment is no position since it is not made of digits, or it writes one, or it is refused. -/
theorem index?_cases (s : String) :
    (¬ IsDigits s ∧ index? s = .ok none) ∨ (∃ i, Position s i ∧ index? s = .ok (some i)) ∨
      ∃ e, Refused s e ∧ index? s = .error e := by
  by_cases hdigits : IsDigits s
  · right
    rw [index?_of_isDigits hdigits]
    split
    · rename_i hlong
      exact Or.inr ⟨_, .tooLong hdigits hlong, rfl⟩
    · rename_i hshort
      split
      · rename_i hlt
        exact Or.inr ⟨_, .notNumeral hdigits (not_lt.1 hshort) (length_numeral_lt_iff.1 hlt), rfl⟩
      · rename_i hle
        have hvalued : ∀ c ∈ s.toList, (Text.digitValue? c).isSome = true := by
          intro c hc
          rw [Option.isSome_iff_ne_none]
          exact fun hnone => hle (length_numeral_lt_iff.2 ⟨c, hc, hnone⟩)
        rw [numeral_of_valued hvalued] at hshort ⊢
        exact Or.inl ⟨_, ⟨hdigits.1, hvalued, not_lt.1 hshort, rfl⟩, rfl⟩
  · exact Or.inl ⟨hdigits, index?_of_not_isDigits hdigits⟩

theorem index?_of_position (h : Position s i) : index? s = .ok (some i) := by
  rw [index?_of_isDigits h.isDigits, numeral_of_valued h.valued, if_neg (not_lt.2 h.short),
    if_neg (lt_irrefl _), h.value]

theorem index?_of_refused (h : Refused s e) : index? s = .error e := by
  rw [index?_of_isDigits h.isDigits]
  cases h with
  | tooLong _ hlong => exact if_pos hlong
  | notNumeral _ hshort hdigit =>
    rw [if_neg (not_lt.2 hshort), if_pos (length_numeral_lt_iff.2 hdigit)]

theorem index?_eq_some_iff : index? s = .ok (some i) ↔ Position s i := by
  refine ⟨fun h => ?_, index?_of_position⟩
  rcases index?_cases s with ⟨-, hnone⟩ | ⟨j, hj, hsome⟩ | ⟨e, -, herror⟩
  · rw [hnone] at h
    cases h
  · rw [hsome] at h
    cases h
    exact hj
  · rw [herror] at h
    cases h

/-- The segments that are refused, and how. -/
theorem index?_eq_error_iff : index? s = .error e ↔ Refused s e := by
  refine ⟨fun h => ?_, index?_of_refused⟩
  rcases index?_cases s with ⟨-, hnone⟩ | ⟨j, -, hsome⟩ | ⟨e', he, herror⟩
  · rw [hnone] at h
    cases h
  · rw [hsome] at h
    cases h
  · rw [herror] at h
    cases h
    exact he

end Path

/-! ## First entries -/

section Places

variable {β : Type}

theorem find?_of_findPlace? {k : Key} {es : List (Key × β)} {i : Nat} {v : β}
    (h : findPlace? (fun k' => k.same k') es = some (i, v)) : Entries.find? k es = some v := by
  induction es generalizing i with
  | nil => cases h
  | cons e es ih =>
    obtain ⟨k', w⟩ := e
    rw [findPlace?] at h
    rw [Entries.find?]
    split at h
    · rename_i hk
      cases h
      exact if_pos hk
    · rename_i hk
      obtain ⟨⟨j, u⟩, hj, heq⟩ := Option.map_eq_some_iff.1 h
      cases heq
      rw [if_neg hk]
      exact ih hj

end Places

namespace Tree

variable {α : Type}

/-! ## Keys written one by one -/

section Written

variable {s : String} {es : List (Key × Tree α)}

/-- All keys of the entries are written otherwise than the segment. -/
def Otherwise (s : String) (es : List (Key × Tree α)) : Prop :=
  ∀ e ∈ es, e.1.isWritable = true ∧ e.1.text ≠ s

/-- Keys that are written otherwise are passed over. -/
theorem textPlace?_append {front : List (Key × Tree α)} (hfront : Otherwise s front)
    (es : List (Key × Tree α)) :
    textPlace? s (front ++ es) =
      (textPlace? s es).map (Option.map fun hit => (hit.1 + front.length, hit.2)) := by
  induction front with
  | nil =>
    rw [List.nil_append]
    rcases textPlace? s es with e | _ | hit <;> rfl
  | cons e front ih =>
    obtain ⟨hfirst, hrest⟩ := List.forall_mem_cons.1 hfront
    rw [List.cons_append, textPlace?, hfirst.1, ih hrest, if_neg hfirst.2]
    rcases textPlace? s es with e | _ | hit <;> rfl

/-- Writing keys one by one ends at a key that cannot be written, at one that is written like the
segment, or behind all of them. -/
theorem textPlace?_cases (s : String) (es : List (Key × Tree α)) :
    (Otherwise s es ∧ textPlace? s es = .ok none) ∨
    ∃ front k u back, es = front ++ (k, u) :: back ∧ Otherwise s front ∧
      (k.isWritable = false ∧ textPlace? s es = .error .tooLarge ∨
        k.isWritable = true ∧ k.text = s ∧
          textPlace? s es = .ok (some (front.length, u))) := by
  induction es with
  | nil => exact Or.inl ⟨List.forall_mem_nil _, rfl⟩
  | cons e es ih =>
    obtain ⟨k, u⟩ := e
    cases hk : k.isWritable with
    | false =>
      exact Or.inr ⟨[], k, u, es, rfl, List.forall_mem_nil _,
        Or.inl ⟨hk, by simp [textPlace?, hk]⟩⟩
    | true =>
      by_cases htext : k.text = s
      · exact Or.inr ⟨[], k, u, es, rfl, List.forall_mem_nil _,
          Or.inr ⟨hk, htext, by simp [textPlace?, hk, htext]⟩⟩
      · have hone : Otherwise s [(k, u)] := List.forall_mem_singleton.2 ⟨hk, htext⟩
        have hstep := textPlace?_append hone es
        rw [List.singleton_append] at hstep
        rcases ih with ⟨hall, hnone⟩ | ⟨front, l, w, back, rfl, hfront, hend⟩
        · exact Or.inl ⟨List.forall_mem_cons.2 ⟨⟨hk, htext⟩, hall⟩, by rw [hstep, hnone]; rfl⟩
        · refine Or.inr ⟨(k, u) :: front, l, w, back, rfl,
            List.forall_mem_cons.2 ⟨⟨hk, htext⟩, hfront⟩, ?_⟩
          rcases hend with ⟨hl, herror⟩ | ⟨hl, hls, hhit⟩
          · exact Or.inl ⟨hl, by rw [hstep, herror]; rfl⟩
          · exact Or.inr ⟨hl, hls, by rw [hstep, hhit]; rfl⟩

end Written

/-! ## Segments and children -/

/-- The items of a value that positions lead into. -/
def row? : Tree α → Option (List (Tree α))
  | list _ items => some items
  | tuple items => some items
  | atom (.bytes bs) => some (bs.map fun b => atom (.int b.toNat))
  | _ => none

theorem isRow_eq (t : Tree α) : t.isRow = t.row?.isSome := by
  cases t with
  | atom a => cases a <;> rfl
  | _ => rfl

/-- The segment names a child of the value. -/
inductive Names (s : String) : Tree α → Tree α → Prop where
  /-- The segment is a key. -/
  | key {tag : α} {es : List (Key × Tree α)} {u : Tree α}
      (h : Entries.find? (.str s) es = some u) : Names s (map tag es) u
  /-- The segment is no key, and this is the first key with that written form; those before it are
  written otherwise. -/
  | text {tag : α} {front back : List (Key × Tree α)} {k : Key} {u : Tree α}
      (hkey : ∀ e ∈ front ++ (k, u) :: back, e.1 ≠ .str s)
      (hk : k.isWritable = true ∧ k.text = s) (hfront : Otherwise s front) :
      Names s (map tag (front ++ (k, u) :: back)) u
  /-- The segment writes the position of an item. -/
  | item {t : Tree α} {items : List (Tree α)} {i : Nat} {u : Tree α} (hrow : t.row? = some items)
      (hi : Path.Position s i) (hu : items[i]? = some u) : Names s t u

/-- The segment is refused by the value. -/
inductive Refuses : NumeralError → String → Tree α → Prop where
  /-- The value is a row, and the segment is of digits and writes no position. -/
  | digits {e : NumeralError} {s : String} {t : Tree α} (hrow : t.row?.isSome = true)
      (h : Path.Refused s e) : Refuses e s t
  /-- The segment is no key of the mapping, and a key that cannot be written comes where all keys
  before it are written otherwise. -/
  | key {s : String} {tag : α} {front back : List (Key × Tree α)} {k : Key} {u : Tree α}
      (hkey : ∀ e ∈ front ++ (k, u) :: back, e.1 ≠ .str s) (hk : k.isWritable = false)
      (hfront : Otherwise s front) :
      Refuses .tooLarge s (map tag (front ++ (k, u) :: back))

/-- The segment names no child of the value, and is not refused. -/
def NamesNothing (s : String) (t : Tree α) : Prop :=
  (∀ u, ¬ Names s t u) ∧ ∀ e, ¬ Refuses e s t

theorem child?_of_row? {t : Tree α} {items : List (Tree α)} (h : t.row? = some items)
    (s : String) : child? s t = item? s items := by
  cases t with
  | list tag xs =>
    cases h
    rfl
  | tuple xs =>
    cases h
    rfl
  | atom a =>
    cases a with
    | bytes bs =>
      cases h
      rfl
    | _ => cases h
  | _ => cases h

/-- A child is looked up in a mapping, in a row, or nowhere. -/
theorem child?_cases (t : Tree α) :
    (∃ tag es, t = map tag es) ∨ (∃ items, t.row? = some items) ∨
      t.row? = none ∧ ∀ s, child? s t = .ok none := by
  cases t with
  | map tag es => exact Or.inl ⟨tag, es, rfl⟩
  | list tag items => exact Or.inr (Or.inl ⟨items, rfl⟩)
  | tuple items => exact Or.inr (Or.inl ⟨items, rfl⟩)
  | set members => exact Or.inr (Or.inr ⟨rfl, fun _ => rfl⟩)
  | atom a =>
    cases a with
    | bytes bs => exact Or.inr (Or.inl ⟨_, rfl⟩)
    | _ => exact Or.inr (Or.inr ⟨rfl, fun _ => rfl⟩)

theorem item?_eq_some_iff {s : String} {items : List (Tree α)} {i : Nat} {u : Tree α} :
    item? s items = .ok (some (i, u)) ↔ Path.Position s i ∧ items[i]? = some u := by
  rw [← Path.index?_eq_some_iff, item?]
  cases hindex : Path.index? s with
  | error e => simp [bind, Except.bind]
  | ok found =>
    cases found with
    | none => simp [bind, Except.bind, pure, Except.pure]
    | some j =>
      simp only [bind, Except.bind, pure, Except.pure, Except.ok.injEq, Option.map_eq_some_iff,
        Option.some.injEq, Prod.mk.injEq]
      constructor
      · rintro ⟨w, hw, rfl, rfl⟩
        exact ⟨rfl, hw⟩
      · rintro ⟨rfl, hu⟩
        exact ⟨u, hu, rfl, rfl⟩

theorem item?_eq_error_iff {s : String} {items : List (Tree α)} {e : NumeralError} :
    item? s items = .error e ↔ Path.Refused s e := by
  rw [← Path.index?_eq_error_iff, item?]
  cases Path.index? s with
  | error e' => simp [bind, Except.bind]
  | ok found => cases found <;> simp [bind, Except.bind, pure, Except.pure]

/-- A segment that is no key is looked for among the written forms. -/
theorem namedPlace?_of_forall {s : String} {es : List (Key × Tree α)}
    (h : ∀ e ∈ es, e.1 ≠ .str s) : namedPlace? s es = textPlace? s es := by
  have hexact : findPlace? (fun k => (Key.str s).same k) es = none := by
    rw [findPlace?_eq_none_iff]
    intro l hl
    obtain ⟨e, he, rfl⟩ := List.mem_map.1 hl
    rw [Bool.eq_false_iff]
    exact fun hsame => h e he (Key.same_str_iff.1 hsame)
  rw [namedPlace?, hexact]

/-- A segment is a key, or else it is looked for among the written forms. -/
theorem namedPlace?_cases (s : String) (es : List (Key × Tree α)) :
    (∃ i u, Entries.find? (.str s) es = some u ∧ namedPlace? s es = .ok (some (i, u))) ∨
      (∀ e ∈ es, e.1 ≠ .str s) ∧ namedPlace? s es = textPlace? s es := by
  cases hexact : findPlace? (fun k => (Key.str s).same k) es with
  | some hit =>
    obtain ⟨i, u⟩ := hit
    exact Or.inl ⟨i, u, find?_of_findPlace? hexact, by rw [namedPlace?, hexact]⟩
  | none =>
    have hkey : ∀ e ∈ es, e.1 ≠ .str s := by
      intro e he hkey
      have hno := findPlace?_eq_none_iff.1 hexact e.1 (List.mem_map_of_mem he)
      rw [hkey, Key.same_str_iff.2 rfl] at hno
      cases hno
    exact Or.inr ⟨hkey, namedPlace?_of_forall hkey⟩

theorem child?_of_names {s : String} {t u : Tree α} (h : Names s t u) :
    ∃ i, child? s t = .ok (some (i, u)) := by
  cases h with
  | key h => exact exists_child?_of_find? h _
  | @text tag front back k _ hkey hk hfront =>
    refine ⟨front.length, ?_⟩
    rw [child?, namedPlace?_of_forall hkey, textPlace?_append hfront, textPlace?, hk.1,
      if_pos hk.2]
    simp [Except.map]
  | item hrow hi hu => exact ⟨_, by rw [child?_of_row? hrow, item?_eq_some_iff.2 ⟨hi, hu⟩]⟩

/-- A segment names the child that is looked up. -/
theorem names_iff {s : String} {t u : Tree α} :
    Names s t u ↔ ∃ i, child? s t = .ok (some (i, u)) := by
  refine ⟨child?_of_names, ?_⟩
  rintro ⟨i, hchild⟩
  rcases child?_cases t with ⟨tag, es, rfl⟩ | ⟨items, hrow⟩ | ⟨-, hnone⟩
  · rw [child?] at hchild
    rcases namedPlace?_cases s es with ⟨j, w, hfind, hplace⟩ | ⟨hkey, hplace⟩
    · cases hplace.symm.trans hchild
      exact .key hfind
    · rw [hplace] at hchild
      rcases textPlace?_cases s es with ⟨-, hnone⟩ | ⟨front, k, w, back, rfl, hfront, hend⟩
      · cases hnone.symm.trans hchild
      · rcases hend with ⟨-, herror⟩ | ⟨hk, htext, hhit⟩
        · cases herror.symm.trans hchild
        · cases hhit.symm.trans hchild
          exact .text hkey ⟨hk, htext⟩ hfront
  · rw [child?_of_row? hrow, item?_eq_some_iff] at hchild
    exact .item hrow hchild.1 hchild.2
  · rw [hnone] at hchild
    cases hchild

/-- A segment is refused where looking the child up fails. -/
theorem child?_eq_error_iff {s : String} {t : Tree α} {e : NumeralError} :
    child? s t = .error e ↔ Refuses e s t := by
  constructor
  · intro hchild
    rcases child?_cases t with ⟨tag, es, rfl⟩ | ⟨items, hrow⟩ | ⟨-, hnone⟩
    · rw [child?] at hchild
      rcases namedPlace?_cases s es with ⟨j, w, -, hplace⟩ | ⟨hkey, hplace⟩
      · cases hplace.symm.trans hchild
      · rw [hplace] at hchild
        rcases textPlace?_cases s es with ⟨-, hnone⟩ | ⟨front, k, w, back, rfl, hfront, hend⟩
        · cases hnone.symm.trans hchild
        · rcases hend with ⟨hk, herror⟩ | ⟨-, -, hhit⟩
          · cases herror.symm.trans hchild
            exact .key hkey hk hfront
          · cases hhit.symm.trans hchild
    · rw [child?_of_row? hrow, item?_eq_error_iff] at hchild
      exact .digits (by rw [hrow]; rfl) hchild
    · rw [hnone] at hchild
      cases hchild
  · intro h
    cases h with
    | digits hrow h =>
      obtain ⟨items, hitems⟩ := Option.isSome_iff_exists.1 hrow
      rw [child?_of_row? hitems, item?_eq_error_iff.2 h]
    | key hkey hk hfront =>
      rw [child?, namedPlace?_of_forall hkey, textPlace?_append hfront, textPlace?, hk]
      rfl

theorem child?_eq_none_iff {s : String} {t : Tree α} :
    child? s t = .ok none ↔ NamesNothing s t := by
  rw [NamesNothing]
  simp only [names_iff, ← child?_eq_error_iff]
  cases hchild : child? s t with
  | error e => simp
  | ok found =>
    cases found with
    | none => simp
    | some hit => simpa using ⟨hit.2, hit.1, rfl⟩

/-! ## Segments one after the other -/

/-- The segments lead from one value to another. -/
inductive Leads : List String → Tree α → Tree α → Prop where
  /-- No segments lead nowhere else. -/
  | here (t : Tree α) : Leads [] t t
  /-- The first segment names a child, and the others lead on from it. -/
  | onward {s : String} {ss : List String} {t u v : Tree α} (h : Names s t u)
      (hrest : Leads ss u v) : Leads (s :: ss) t v

/-- Some segment and the value that those before it lead to are as said. -/
def Meets (P : String → Tree α → Prop) (segments : List String) (t : Tree α) : Prop :=
  ∃ front s back u, segments = front ++ s :: back ∧ Leads front t u ∧ P s u

theorem meets_cons_iff {P : String → Tree α → Prop} {s : String} {ss : List String}
    {t : Tree α} : Meets P (s :: ss) t ↔ P s t ∨ ∃ u, Names s t u ∧ Meets P ss u := by
  constructor
  · rintro ⟨front, s', back, u, heq, hleads, hP⟩
    cases hleads with
    | here =>
      cases heq
      exact Or.inl hP
    | onward h hrest =>
      cases heq
      exact Or.inr ⟨_, h, _, s', back, u, rfl, hrest, hP⟩
  · rintro (hP | ⟨u, h, front, s', back, w, rfl, hleads, hP⟩)
    · exact ⟨[], s, ss, t, rfl, .here t, hP⟩
    · exact ⟨s :: front, s', back, w, rfl, .onward h hleads, hP⟩

theorem not_meets_nil (P : String → Tree α → Prop) (t : Tree α) : ¬ Meets P [] t := by
  rintro ⟨front, s, back, u, heq, -, -⟩
  cases front <;> cases heq

/-- A look-up goes on from the child that its first segment names. -/
theorem locate?_cons_of_child? {s : String} {t u : Tree α} {i : Nat}
    (h : child? s t = .ok (some (i, u))) (ss : List String) :
    locate? (s :: ss) t = (locate? ss u).map (Option.map fun found => (i :: found.1, found.2)) := by
  rw [locate?, h]
  show Except.bind (locate? ss u) _ = _
  cases locate? ss u <;> rfl

/-- What segments lead to is what is looked up. -/
theorem leads_iff {segments : List String} {t v : Tree α} :
    Leads segments t v ↔ ∃ steps, locate? segments t = .ok (some (steps, v)) := by
  constructor
  · intro h
    induction h with
    | here t => exact ⟨[], rfl⟩
    | onward h _ ih =>
      obtain ⟨i, hi⟩ := child?_of_names h
      obtain ⟨steps, hsteps⟩ := ih
      exact ⟨i :: steps, locate?_cons hi hsteps⟩
  · rintro ⟨steps, h⟩
    induction segments generalizing t steps with
    | nil =>
      cases h
      exact .here _
    | cons s ss ih =>
      obtain ⟨i, u, rest, hchild, hrest, -⟩ := exists_of_locate?_cons h
      exact .onward (names_iff.2 ⟨i, hchild⟩) (ih _ hrest)

/-- How a look-up ends that finds no value: with an error, or else with nothing. -/
def early {β : Type} : Option NumeralError → Except NumeralError (Option β)
  | none => .ok none
  | some e => .error e

/-- A look-up that finds no value ends as it does at the segment for which there is no child. -/
theorem locate?_eq_early_iff (o : Option NumeralError) (segments : List String) (t : Tree α) :
    locate? segments t = early o ↔ Meets (fun s u => child? s u = early o) segments t := by
  induction segments generalizing t with
  | nil =>
    refine iff_of_false (fun h => ?_) (not_meets_nil _ _)
    cases o <;> cases h
  | cons s ss ih =>
    rw [meets_cons_iff]
    cases hchild : child? s t with
    | error e =>
      have hnames : ∀ u, ¬ Names s t u := by simp [names_iff, hchild]
      have hlocate : locate? (s :: ss) t = .error e := by
        rw [locate?, hchild]
        rfl
      rw [hlocate]
      cases o <;> simp [early, hnames]
    | ok found =>
      cases found with
      | none =>
        have hnames : ∀ u, ¬ Names s t u := by simp [names_iff, hchild]
        have hlocate : locate? (s :: ss) t = .ok none := by
          rw [locate?, hchild]
          rfl
        rw [hlocate]
        cases o <;> simp [early, hnames]
      | some hit =>
        obtain ⟨i, u⟩ := hit
        have hnames : ∀ w, Names s t w ↔ u = w := by simp [names_iff, hchild]
        have hgoes : (Except.ok (some (i, u)) : Except NumeralError _) ≠ early o := by
          cases o <;> simp [early]
        rw [locate?_cons_of_child? hchild]
        simp only [hnames, exists_eq_left', hgoes, false_or, ← ih]
        cases locate? ss u with
        | error e => cases o <;> simp [early, Except.map]
        | ok found => cases o <;> cases found <;> simp [early, Except.map]

/-- A look-up is refused if some segment is. -/
theorem locate?_eq_error_iff {segments : List String} {t : Tree α} {e : NumeralError} :
    locate? segments t = .error e ↔ Meets (Refuses e) segments t := by
  have h := locate?_eq_early_iff (some e) segments t
  simpa only [early, child?_eq_error_iff] using h

/-- A look-up leads nowhere if some segment names nothing. -/
theorem locate?_eq_none_iff {segments : List String} {t : Tree α} :
    locate? segments t = .ok none ↔ Meets NamesNothing segments t := by
  have h := locate?_eq_early_iff none segments t
  simpa only [early, child?_eq_none_iff] using h

/-! ## Paths -/

/-- What is found at a path that is not empty: an error if a segment is refused by what those
before it lead to; else the value that all segments lead to, which stands in the tree; else
`missing`, if a segment names nothing.  No path ends in another way. -/
theorem get_outcomes (t : Tree α) {path : String} (hne : path ≠ "") :
    (∀ e, t.get path = .error e ↔ Meets (Refuses e) (Path.split path) t) ∧
    (∀ v, t.get path = .ok v ↔
      Leads (Path.split path) t v ∨ v = missing ∧ Meets NamesNothing (Path.split path) t) ∧
    ∀ v, Leads (Path.split path) t v → ∃ steps, descend steps t = some v := by
  simp only [← locate?_eq_error_iff, ← locate?_eq_none_iff, leads_iff]
  refine ⟨fun e => ?_, fun v => ?_, fun v => ?_⟩
  · rw [get, find?, if_neg hne]
    cases locate? (Path.split path) t with
    | error e' => simp [bind, Except.bind]
    | ok found => cases found <;> simp [bind, Except.bind, pure, Except.pure]
  · rw [get, find?, if_neg hne]
    cases locate? (Path.split path) t with
    | error e' => simp [bind, Except.bind]
    | ok found =>
      cases found with
      | none => simp [bind, Except.bind, pure, Except.pure, eq_comm]
      | some hit => simp [bind, Except.bind, pure, Except.pure, Prod.ext_iff]
  · rintro ⟨steps, hsteps⟩
    exact ⟨steps, descend_of_locate? hsteps⟩

/-- A mapping with a row in it, and a number for a key. -/
def shelf : Value :=
  .map () [(.str "row", .list () [.str "x", .str "y"]), (.atom (.int 80), .str "web")]

/-- A digit of another script is a position too. -/
theorem get_outcomes_shelf : shelf.get "row:١" = .ok (.str "y") := by
  have hsplit : Path.split "row:١" = ["row", "١"] := by decide +kernel
  have hrow : Names "row" shelf (.list () [.str "x", .str "y"]) := .key rfl
  have hvalued : ∀ c ∈ "١".toList, (Text.digitValue? c).isSome = true :=
    List.forall_mem_singleton.2 (by decide)
  have hitem : Names "١" (.list () [.str "x", .str "y"] : Value) (.str "y") :=
    .item rfl (i := 1) ⟨by decide, hvalued, by decide, by decide⟩ rfl
  refine ((get_outcomes shelf (by decide)).2.1 _).2 (Or.inl ?_)
  rw [hsplit]
  exact .onward hrow (.onward hitem (.here _))

/-- A digit without value is refused by a row, although it names no position. -/
theorem get_refuses_superscript : shelf.get "row.²" = .error (.notNumeral 10 "²") :=
  rfl

end Tree

end LayeredConfig
