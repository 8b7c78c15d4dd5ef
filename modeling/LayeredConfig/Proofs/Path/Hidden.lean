import LayeredConfig.Proofs.Path.Branches
import LayeredConfig.Proofs.Path.Ways

/-!
# What a write hides

A segment is read as the key with that text, or else as any key that has it for its
written form; it is written as the key with that text.  So a write whose way leads by
the written form of a key makes a new key there, which hides the old one from all
other reads.  A read at a path that is apart sees of a write just this.

* `Tree.reach` — the value that segments lead to, or none.
* `Tree.hidesKey` — a write makes a key that hides one on the way of a read.
* `Tree.reach_writeEntries_of_not_hidesKey` — else the read is as it was.
* `Tree.reach_writeEntries_of_hidesKey` — then the read finds nothing.
* `Tree.get_write_of_apart_iff` — a write and a read at paths that are apart.
-/

namespace LayeredConfig

/-! ## Reading segment by segment -/

theorem findPlace?_eq_none_iff {β : Type} {test : Key → Bool} {es : List (Key × β)} :
    findPlace? test es = none ↔ ∀ k ∈ es.map (·.1), test k = false := by
  induction es with
  | nil => simp [findPlace?]
  | cons e es ih =>
    obtain ⟨k, v⟩ := e
    by_cases hk : test k = true
    · simp [findPlace?, hk]
    · simp only [Bool.not_eq_true] at hk
      simp [findPlace?, hk, ih]

/-- A key that does not pass the test is no matter where it is written. -/
theorem findPlace?_insert {β : Type} {test : Key → Bool} {s : String} (h : test (.str s) = false)
    (v : β) (es : List (Key × β)) :
    findPlace? test (Entries.insert (.str s) v es) = findPlace? test es := by
  induction es with
  | nil => simp [Entries.insert, findPlace?, h]
  | cons e es ih =>
    obtain ⟨k, w⟩ := e
    by_cases hk : (Key.str s).same k = true
    · obtain rfl := Key.same_str_iff.1 hk
      simp [Entries.insert, findPlace?, hk, h]
    · simp [Entries.insert, findPlace?, hk, ih]

namespace Tree

variable {α : Type}

/-- The entry that a segment names has that segment for the written form of its key. -/
theorem exists_of_namedPlace? {s : String} {es : List (Key × Tree α)} {i : Nat} {v : Tree α}
    (h : namedPlace? s es = .ok (some (i, v))) : ∃ k, es[i]? = some (k, v) ∧ k.text = s := by
  unfold namedPlace? at h
  split at h
  · rename_i hit heq
    cases h
    obtain ⟨k, hk, hsame⟩ := exists_of_findPlace? heq
    obtain rfl := Key.same_str_iff.1 hsame
    exact ⟨_, hk, rfl⟩
  · obtain ⟨k, hk, htext⟩ := exists_of_findPlace? (findPlace?_of_textPlace? h)
    exact ⟨k, hk, of_decide_eq_true htext⟩

/-- A key with another written form is no matter where it is written. -/
theorem textPlace?_insert {s s' : String} (h : s' ≠ s) (v : Tree α) (es : List (Key × Tree α)) :
    textPlace? s (Entries.insert (.str s') v es) = textPlace? s es := by
  have htext : (Key.str s').text ≠ s := h
  induction es with
  | nil =>
    simp [Entries.insert, textPlace?, htext, Except.map]
  | cons e es ih =>
    obtain ⟨k, w⟩ := e
    by_cases hk : (Key.str s').same k = true
    · obtain rfl := Key.same_str_iff.1 hk
      rw [Entries.insert, if_pos hk, textPlace?, textPlace?, if_neg htext, if_neg htext]
    · rw [Entries.insert, if_neg hk, textPlace?, textPlace?, ih]

/-- A text that is no key is no key to be found either. -/
theorem findPlace?_same_of_find?_eq_none {s : String} {es : List (Key × Tree α)}
    (h : Entries.find? (.str s) es = none) :
    findPlace? (fun k => (Key.str s).same k) es = none := by
  rw [findPlace?_eq_none_iff]
  intro k hk
  rw [Bool.eq_false_iff]
  intro hsame
  obtain rfl := Key.same_str_iff.1 hsame
  exact notMem_of_find?_eq_none h hk

/-- The value that segments lead to, or `missing`. -/
def reach (segments : List String) (t : Tree α) : Except NumeralError (Tree α) :=
  (locate? segments t).map fun found => (found.map (·.2)).getD missing

theorem get_eq_reach {path : String} (hne : path ≠ "") (t : Tree α) :
    t.get path = reach (Path.split path) t := by
  rw [get, find?, if_neg hne, reach]
  cases locate? (Path.split path) t with
  | error e => rfl
  | ok found => cases found <;> rfl

theorem reach_cons {s : String} {t u : Tree α} {i : Nat} (h : child? s t = .ok (some (i, u)))
    (ss : List String) : reach (s :: ss) t = reach ss u := by
  rw [reach, reach, locate?, h]
  show Except.map _ (Except.bind (locate? ss u) _) = _
  cases locate? ss u with
  | error e => rfl
  | ok found => cases found <;> rfl

theorem reach_cons_of_none {s : String} {t : Tree α} (h : child? s t = .ok none)
    (ss : List String) : reach (s :: ss) t = .ok missing := by
  rw [reach, locate?, h]
  rfl

theorem reach_cons_congr {s : String} {t t' : Tree α} (h : child? s t = child? s t')
    (ss : List String) : reach (s :: ss) t = reach (s :: ss) t' := by
  rw [reach, reach, locate?, locate?, h]

/-- A segment that is a key leads on from the value of that key. -/
theorem reach_cons_of_find? {s : String} {es : List (Key × Tree α)} {u : Tree α}
    (h : Entries.find? (.str s) es = some u) (tag : α) (ss : List String) :
    reach (s :: ss) (map tag es) = reach ss u := by
  obtain ⟨i, hi⟩ := exists_child?_of_find? h tag
  exact reach_cons hi ss

/-- A segment that is no key and that no key is written as leads nowhere. -/
theorem reach_cons_of_textPlace? {s : String} {es : List (Key × Tree α)}
    (hfind : Entries.find? (.str s) es = none) (h : textPlace? s es = .ok none) (tag : α)
    (ss : List String) : reach (s :: ss) (map tag es) = .ok missing := by
  refine reach_cons_of_none ?_ ss
  rw [child?, namedPlace?, findPlace?_same_of_find?_eq_none hfind, h]

/-- A value that segments of digits lead into. -/
def isRow : Tree α → Bool
  | list _ _ => true
  | tuple _ => true
  | atom (.bytes _) => true
  | _ => false

/-- No segment leads into a value that is neither a mapping nor a row. -/
theorem reach_cons_of_not_isRow {u : Tree α} (hrow : u.isRow = false)
    (hmap : ∀ t es, u ≠ map t es) (s : String) (ss : List String) :
    reach (s :: ss) u = .ok missing := by
  refine reach_cons_of_none ?_ ss
  cases u with
  | map t es => exact absurd rfl (hmap t es)
  | list t items => cases hrow
  | tuple items => cases hrow
  | set members => rfl
  | atom a =>
    cases a with
    | bytes bs => cases hrow
    | _ => rfl

/-! ## Keys that a write hides -/

/-- Reading a key by its written form does not end with nothing: it finds one, or fails at a key
without a written form. -/
def meetsKey (s : String) (es : List (Key × Tree α)) : Bool :=
  match textPlace? s es with
  | .ok none => false
  | _ => true

theorem meetsKey_eq_false_iff {s : String} {es : List (Key × Tree α)} :
    meetsKey s es = false ↔ textPlace? s es = .ok none := by
  unfold meetsKey
  split <;> simp_all

/-- On the segments that a write and a read have in common the write makes a key where reading by
written forms met another one. -/
def hidesKey : List String → List String → List (Key × Tree α) → Bool
  | s :: s₁ :: ps, s' :: s₂ :: qs, es =>
    decide (s = s') &&
      match Entries.find? (.str s) es with
      | none => meetsKey s es
      | some (map _ sub) => hidesKey (s₁ :: ps) (s₂ :: qs) sub
      | some _ => false
  | _, _, _ => false

theorem hidesKey_nil (ps qs : List String) :
    hidesKey ps qs ([] : List (Key × Tree α)) = false := by
  match ps, qs with
  | [], _ => rfl
  | [_], _ => rfl
  | _ :: _ :: _, [] => rfl
  | _ :: _ :: _, [_] => rfl
  | _ :: _ :: _, _ :: _ :: _ => simp [hidesKey, Entries.find?, meetsKey, textPlace?]

/-- Keys that are all texts are not hidden. -/
theorem hidesKey_of_named {kind : String → Prop} (ps qs : List String)
    {es : List (Key × Tree α)} (h : NamedEntries kind es) : hidesKey ps qs es = false := by
  induction ps generalizing qs es with
  | nil => rfl
  | cons s ps ih =>
    match ps, qs with
    | [], _ => rfl
    | _ :: _, [] => rfl
    | _ :: _, [_] => rfl
    | s₁ :: ps, s' :: s₂ :: qs =>
      by_cases hs : s = s'
      · simp only [hidesKey, hs, decide_true, Bool.true_and]
        cases hfind : Entries.find? (.str s') es with
        | none =>
          have htexts : ∀ e ∈ es, ∃ t, e.1 = .str t := fun e he =>
            (exists_of_mem_keys h (List.mem_map_of_mem he)).imp fun _ ht => ht.1
          have hwritable : ∀ e ∈ es, e.1.isWritable = true := by
            intro e he
            obtain ⟨t, ht⟩ := htexts e he
            rw [ht]
            rfl
          have hnone : findPlace? (fun k => decide (k.text = s')) es = none := by
            rw [findPlace?_eq_none_iff]
            intro k hk
            obtain ⟨e, he, rfl⟩ := List.mem_map.1 hk
            obtain ⟨t, ht⟩ := htexts e he
            rw [ht, decide_eq_false_iff_not]
            rintro rfl
            exact notMem_of_find?_eq_none hfind (ht ▸ List.mem_map_of_mem he)
          show meetsKey s' es = false
          rw [meetsKey_eq_false_iff, textPlace?_of_forall s' hwritable, hnone]
        | some u =>
          cases u with
          | map t sub => exact ih (s₂ :: qs) (named_of_find? h hfind)
          | _ => rfl
      · simp [hidesKey, hs]

/-- No row stands on the way along the segments, before their end. -/
def rowFree : List String → Tree α → Bool
  | [], _ => true
  | s :: ss, t =>
    !t.isRow &&
      match child? s t with
      | .ok (some (_, u)) => rowFree ss u
      | _ => true

theorem rowFree_below {s : String} {ss : List String} {tag : α} {es : List (Key × Tree α)}
    (h : rowFree (s :: ss) (map tag es) = true) {u : Tree α}
    (hu : Entries.find? (.str s) es = some u) : rowFree ss u = true := by
  obtain ⟨i, hi⟩ := exists_child?_of_find? hu tag
  rw [rowFree, hi] at h
  simpa [isRow] using h

theorem isRow_of_rowFree {s : String} {ss : List String} {t : Tree α}
    (h : rowFree (s :: ss) t = true) : t.isRow = false := by
  rw [rowFree, Bool.and_eq_true] at h
  simpa using h.1

theorem rowFree_nil (ss : List String) (tag : α) : rowFree ss (map tag [] : Tree α) = true := by
  cases ss <;> rfl

variable [Inhabited α]

/-- A write does not change which child another segment than its first one names. -/
theorem child?_writeEntries_of_ne {s s' : String} (h : s ≠ s') (v : Tree α) (ss : List String)
    (tag : α) (es : List (Key × Tree α)) :
    child? s' (map tag (writeEntries v (s :: ss) es)) = child? s' (map tag es) := by
  have hexact : (Key.str s').same (.str s) = false := by
    rw [Bool.eq_false_iff]
    intro hsame
    exact h (by simpa using Key.same_str_iff.1 hsame)
  rw [child?, child?, namedPlace?, namedPlace?, writeEntries_cons, findPlace?_insert hexact,
    textPlace?_insert h]

/-- If a write hides no key on the way of a read at a path that is apart, and goes through no row,
then the read is as it was. -/
theorem reach_writeEntries_of_not_hidesKey {ps qs : List String} (hapart : Path.Apart ps qs)
    (v : Tree α) {tag : α} {es : List (Key × Tree α)} (hrows : rowFree ps (map tag es) = true)
    (h : hidesKey ps qs es = false) :
    reach qs (map tag (writeEntries v ps es)) = reach qs (map tag es) := by
  induction ps generalizing qs tag es with
  | nil => exact absurd List.nil_prefix hapart.1
  | cons s ps ih =>
    obtain ⟨_, _, s', qs, -, rfl⟩ := Path.exists_cons_of_apart hapart
    by_cases hs : s = s'
    · subst hs
      have hrest : Path.Apart ps qs := Path.apart_cons_iff.1 hapart
      obtain ⟨s₁, ps, s₂, qs, rfl, rfl⟩ := Path.exists_cons_of_apart hrest
      rw [reach_cons_of_find? (find?_writeEntries_self v s _ es)]
      -- what the write makes anew is all its own
      have hnew : reach (s₂ :: qs) (map default (writeEntries v (s₁ :: ps) [])) =
          .ok missing := by
        rw [ih hrest (rowFree_nil _ default) (hidesKey_nil _ _)]
        rfl
      simp only [hidesKey, decide_true, Bool.true_and] at h
      cases hfind : Entries.find? (.str s) es with
      | none =>
        rw [hfind] at h
        rw [reach_cons_of_textPlace? hfind (meetsKey_eq_false_iff.1 h)]
        exact hnew
      | some u =>
        rw [hfind] at h
        have hbelow : rowFree (s₁ :: ps) u = true := rowFree_below hrows hfind
        rw [reach_cons_of_find? hfind]
        cases u with
        | map t sub => exact ih hrest hbelow h
        | _ =>
          rw [reach_cons_of_not_isRow (isRow_of_rowFree hbelow) (by simp)]
          exact hnew
    · exact reach_cons_congr (child?_writeEntries_of_ne hs v ps tag es) qs

/-- If a write hides a key on the way of a read at a path that is apart, the read finds
nothing. -/
theorem reach_writeEntries_of_hidesKey {ps qs : List String} (hapart : Path.Apart ps qs)
    (v : Tree α) {tag : α} {es : List (Key × Tree α)} (h : hidesKey ps qs es = true) :
    reach qs (map tag (writeEntries v ps es)) = .ok missing := by
  induction ps generalizing qs tag es with
  | nil => cases h
  | cons s ps ih =>
    match ps, qs with
    | [], _ => cases h
    | _ :: _, [] => cases h
    | _ :: _, [_] => simp [hidesKey] at h
    | s₁ :: ps, s' :: s₂ :: qs =>
      rw [hidesKey, Bool.and_eq_true] at h
      obtain ⟨hs, h⟩ := h
      obtain rfl : s = s' := of_decide_eq_true hs
      have hrest : Path.Apart (s₁ :: ps) (s₂ :: qs) := Path.apart_cons_iff.1 hapart
      rw [reach_cons_of_find? (find?_writeEntries_self v s _ es)]
      cases hfind : Entries.find? (.str s) es with
      | none =>
        have hnew := reach_writeEntries_of_not_hidesKey hrest v
          (rowFree_nil (s₁ :: ps) (default : α)) (hidesKey_nil _ _)
        exact hnew
      | some u =>
        rw [hfind] at h
        cases u with
        | map t sub => exact ih hrest h
        | _ => cases h

/-! ## Trees and paths -/

section Paths

variable (tag : α) (es : List (Key × Tree α)) (v : Tree α) {p q : String}

theorem get_write_of_not_hidesKey (hapart : Path.Apart (Path.split p) (Path.split q))
    (hrows : rowFree (Path.split p) (map tag es) = true)
    (h : hidesKey (Path.split p) (Path.split q) es = false) :
    ((map tag es).write p v).get q = (map tag es).get q := by
  by_cases hq : q = ""
  · subst hq
    rfl
  · rw [get_eq_reach hq, get_eq_reach hq, write]
    exact reach_writeEntries_of_not_hidesKey hapart v hrows h

theorem get_write_of_hidesKey (hapart : Path.Apart (Path.split p) (Path.split q))
    (h : hidesKey (Path.split p) (Path.split q) es = true) :
    ((map tag es).write p v).get q = .ok missing := by
  by_cases hq : q = ""
  · subst hq
    rfl
  · rw [get_eq_reach hq, write]
    exact reach_writeEntries_of_hidesKey hapart v h

/-- Where all keys are texts, a write through no row shows at no path that is apart. -/
theorem get_write_of_apart_of_named {kind : String → Prop} (hnamed : NamedEntries kind es)
    (hapart : Path.Apart (Path.split p) (Path.split q))
    (hrows : rowFree (Path.split p) (map tag es) = true) :
    ((map tag es).write p v).get q = (map tag es).get q :=
  get_write_of_not_hidesKey tag es v hapart hrows (hidesKey_of_named _ _ hnamed)

/-- A write through no row and a read at a path that is apart: the read is as it was, if and only
if the write hides no key on its way or there was nothing to be read. -/
theorem get_write_of_apart_iff (hapart : Path.Apart (Path.split p) (Path.split q))
    (hrows : rowFree (Path.split p) (map tag es) = true) :
    ((map tag es).write p v).get q = (map tag es).get q ↔
      hidesKey (Path.split p) (Path.split q) es = false ∨ (map tag es).get q = .ok missing := by
  cases hhides : hidesKey (Path.split p) (Path.split q) es with
  | false =>
    exact iff_of_true (get_write_of_not_hidesKey tag es v hapart hrows hhides) (Or.inl rfl)
  | true =>
    rw [get_write_of_hidesKey tag es v hapart hhides]
    simp [eq_comm]

end Paths

mutual

/-- The keys of each mapping have written forms, which are segments and no two of them the same. -/
def textKeyed : Tree α → Bool
  | map _ es => textKeyedEntries es
  | _ => true

/-- `textKeyed` for the entries of a mapping. -/
def textKeyedEntries : List (Key × Tree α) → Bool
  | [] => true
  | (k, v) :: es =>
    k.isWritable && decide (Path.IsSegment k.text) &&
      es.all (fun e => decide (e.1.text ≠ k.text)) && textKeyed v && textKeyedEntries es

end

/-- A mapping of ports by number, with one value below one of them. -/
def ports : List (Key × Value) :=
  [(.str "ports", .map () [(.atom (.int 8080), .map () [(.str "a", .atom (.int 1))])])]

theorem get_write_of_apart_iff_other_port :
    ((map () ports).write "ports.9090.b" (.atom (.int 2))).get "ports.8080.a" =
      (map () ports).get "ports.8080.a" :=
  (get_write_of_apart_iff () ports (.atom (.int 2)) (by decide +kernel) (by decide +kernel)).2
    (Or.inl (by decide +kernel))

/-- A write beside a value, below a port whose number is a key, leaves nothing to be read where the
value was, although no row stands on its way and the written forms of the keys differ. -/
theorem write_hides_sibling :
    textKeyed (map () ports) = true ∧
    Path.Apart (Path.split "ports.8080.b") (Path.split "ports.8080.a") ∧
    rowFree (Path.split "ports.8080.b") (map () ports) = true ∧
    (map () ports).get "ports.8080.a" = .ok (.atom (.int 1)) ∧
    ((map () ports).write "ports.8080.b" (.atom (.int 2))).get "ports.8080.a" = .ok missing := by
  refine ⟨by decide +kernel, by decide +kernel, by decide +kernel, ?_, ?_⟩
  · cbv
  · cbv

end Tree

end LayeredConfig
