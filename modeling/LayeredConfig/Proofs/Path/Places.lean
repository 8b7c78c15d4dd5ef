import LayeredConfig.Namespace.Registry
import LayeredConfig.Path.Lookup
import LayeredConfig.Resolve.Pass

/-!
# Places

A path that is looked up leads over places, and the places alone lead to the
same value again (`descend_of_find?`).  So the address of a container says which
container it is (`Registry.at?_of_find?`), however the path to it was spelled.
-/

namespace LayeredConfig

namespace Tree

variable {α : Type}

/-- The child at a place; the bytes of a row of bytes count as children. -/
def place? (i : Nat) : Tree α → Option (Tree α)
  | map _ es => (es[i]?).map (·.2)
  | list _ items => items[i]?
  | tuple items => items[i]?
  | atom (.bytes bs) => (bs.map fun b => atom (.int b.toNat))[i]?
  | _ => none

/-- The value that places lead to. -/
def descend : List Nat → Tree α → Option (Tree α)
  | [], t => some t
  | i :: steps, t => (place? i t).bind (descend steps)

/-- The first entry that passes a test stands at its place and passes it. -/
theorem exists_of_findPlace? {β : Type} {test : Key → Bool} {es : List (Key × β)} {i : Nat} {v : β}
    (h : findPlace? test es = some (i, v)) : ∃ k, es[i]? = some (k, v) ∧ test k = true := by
  induction es generalizing i with
  | nil => simp [findPlace?] at h
  | cons e es ih =>
    obtain ⟨k, w⟩ := e
    simp only [findPlace?] at h
    split at h
    · rename_i hk
      cases h
      exact ⟨k, rfl, hk⟩
    · obtain ⟨⟨j, u⟩, hj, heq⟩ := Option.map_eq_some_iff.1 h
      cases heq
      simpa using ih hj

/-- Where keys are written one by one without an error, the first that is written like the segment
is found. -/
theorem findPlace?_of_textPlace? {segment : String} {es : List (Key × Tree α)}
    {hit : Option (Nat × Tree α)} (h : textPlace? segment es = .ok hit) :
    findPlace? (fun k => decide (k.text = segment)) es = hit := by
  induction es generalizing hit with
  | nil =>
    cases h
    rfl
  | cons e es ih =>
    obtain ⟨k, v⟩ := e
    rw [textPlace?] at h
    rw [findPlace?]
    split at h
    · cases h
    · split at h
      · rename_i htext
        cases h
        rw [if_pos (decide_eq_true htext)]
      · rename_i htext
        rw [if_neg (by simpa using htext)]
        cases hrest : textPlace? segment es with
        | error e =>
          rw [hrest] at h
          cases h
        | ok hit' =>
          rw [hrest] at h
          rw [← Except.ok.inj h, ih hrest]

/-- Where all keys have a written form, they can be written one by one. -/
theorem textPlace?_of_forall (segment : String) {es : List (Key × Tree α)}
    (h : ∀ e ∈ es, e.1.isWritable = true) :
    textPlace? segment es = .ok (findPlace? (fun k => decide (k.text = segment)) es) := by
  induction es with
  | nil => rfl
  | cons e es ih =>
    obtain ⟨hfirst, hrest⟩ := List.forall_mem_cons.1 h
    rw [textPlace?, hfirst, ih hrest, findPlace?]
    by_cases htext : e.1.text = segment <;> simp [htext, Except.map]

theorem getElem?_of_namedPlace? {segment : String} {es : List (Key × Tree α)} {i : Nat} {v : Tree α}
    (h : namedPlace? segment es = .ok (some (i, v))) : (es[i]?).map (·.2) = some v := by
  have hplace : ∃ k, es[i]? = some (k, v) := by
    unfold namedPlace? at h
    split at h
    · rename_i hit heq
      cases h
      exact (exists_of_findPlace? heq).imp fun _ hk => hk.1
    · exact (exists_of_findPlace? (findPlace?_of_textPlace? h)).imp fun _ hk => hk.1
  obtain ⟨k, hk⟩ := hplace
  rw [hk]
  rfl

theorem getElem?_of_item? {segment : String} {items : List (Tree α)} {i : Nat} {v : Tree α}
    (h : item? segment items = .ok (some (i, v))) : items[i]? = some v := by
  unfold item? at h
  cases hi : Path.index? segment with
  | error e => simp [hi, bind, Except.bind] at h
  | ok found =>
    cases found with
    | none => simp [hi, bind, Except.bind, pure, Except.pure] at h
    | some j =>
      simp only [hi, bind, Except.bind, pure, Except.pure, Except.ok.injEq] at h
      obtain ⟨w, hw, heq⟩ := Option.map_eq_some_iff.1 h
      cases heq
      exact hw

/-- The place of a child that a segment names leads to that child. -/
theorem place?_of_child? {segment : String} {t v : Tree α} {i : Nat}
    (h : child? segment t = .ok (some (i, v))) : place? i t = some v := by
  cases t with
  | map tag es => exact getElem?_of_namedPlace? (by simpa [child?] using h)
  | list tag items => exact getElem?_of_item? h
  | tuple items => exact getElem?_of_item? h
  | set members => simp [child?] at h
  | atom a =>
    cases a with
    | bytes bs => exact getElem?_of_item? h
    | _ => simp [child?] at h

theorem locate?_cons {s : String} {ss : List String} {t u v : Tree α} {i : Nat} {steps : List Nat}
    (hchild : child? s t = .ok (some (i, u))) (hrest : locate? ss u = .ok (some (steps, v))) :
    locate? (s :: ss) t = .ok (some (i :: steps, v)) := by
  simp [locate?, hchild, hrest, bind, Except.bind, pure, Except.pure]

/-- What at least one segment leads to, the first one leads on the way to. -/
theorem exists_of_locate?_cons {s : String} {ss : List String} {t v : Tree α} {steps : List Nat}
    (h : locate? (s :: ss) t = .ok (some (steps, v))) :
    ∃ i u rest, child? s t = .ok (some (i, u)) ∧ locate? ss u = .ok (some (rest, v)) ∧
      steps = i :: rest := by
  simp only [locate?, bind, Except.bind] at h
  cases hc : child? s t with
  | error e => simp [hc] at h
  | ok found =>
    cases found with
    | none => simp [hc, pure, Except.pure] at h
    | some hit =>
      obtain ⟨i, u⟩ := hit
      cases hl : locate? ss u with
      | error e => simp [hc, hl] at h
      | ok rest =>
        simp only [hc, hl, pure, Except.pure, Except.ok.injEq] at h
        obtain ⟨⟨steps', w⟩, rfl, heq⟩ := Option.map_eq_some_iff.1 h
        cases heq
        exact ⟨i, u, steps', rfl, hl, rfl⟩

theorem descend_of_locate? {segments : List String} {t v : Tree α} {steps : List Nat}
    (h : locate? segments t = .ok (some (steps, v))) : descend steps t = some v := by
  induction segments generalizing t steps with
  | nil =>
    cases h
    rfl
  | cons s ss ih =>
    obtain ⟨i, u, rest, hchild, hrest, rfl⟩ := exists_of_locate?_cons h
    rw [descend, place?_of_child? hchild]
    exact ih hrest

/-- The places passed on the way to a value lead to it. -/
theorem descend_of_find? {path : String} {t v : Tree α} {steps : List Nat}
    (h : find? path t = .ok (some (steps, v))) : descend steps t = some v := by
  unfold find? at h
  split at h
  · cases h
  · exact descend_of_locate? h

end Tree

/-- The value at an address. -/
def Registry.at? (r : Registry) (a : Address) : Option Value :=
  (r.get? a.space).bind (Tree.descend a.steps)

/-- What a path of a namespace leads to is the value at that address. -/
theorem Registry.at?_of_find? {r : Registry} {space path : String} {v : Value} {steps : List Nat}
    (h : (match r.get? space with
      | some u => Tree.find? path u
      | none => .ok none) = .ok (some (steps, v))) :
    r.at? ⟨space, steps⟩ = some v := by
  unfold at?
  split at h
  · rename_i u hu
    rw [hu]
    exact Tree.descend_of_find? h
  · cases h

end LayeredConfig
