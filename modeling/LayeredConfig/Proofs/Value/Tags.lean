import LayeredConfig.Layer.Merge
import LayeredConfig.Resolve.Shared
import LayeredConfig.Template.Literal
import LayeredConfig.Template.Text

/-!
# Tags do not count

What a tree says does not depend on its tags: its text form and whether it is
undefined are those of the plain tree, and marking a container changes nothing
but its tag.

* `Template.text_erase` — the text form of a tree is that of the plain tree.
* `erase_unmarked`, `erase_withMark` — marks come and go.
-/

namespace LayeredConfig

variable {α β γ : Type}

namespace Tree

/-! ## The plain tree -/

@[simp] theorem erase_atom (a : Atom) : (atom a : Tree α).erase = atom a := rfl

@[simp] theorem erase_set (members : List Key) : (set members : Tree α).erase = set members := rfl

@[simp] theorem erase_list (t : α) (items : List (Tree α)) :
    (list t items).erase = list () (mapTagItems (fun _ => ()) items) := rfl

@[simp] theorem erase_map (t : α) (es : List (Key × Tree α)) :
    (map t es).erase = map () (mapTagEntries (fun _ => ()) es) := rfl

@[simp] theorem erase_tuple (items : List (Tree α)) :
    (tuple items).erase = tuple (mapTagItems (fun _ => ()) items) := rfl

/-- A tree whose plain tree is a scalar is that scalar. -/
theorem erase_eq_atom_iff {v : Tree α} {a : Atom} : v.erase = atom a ↔ v = atom a := by
  constructor
  · intro h
    cases v with
    | atom b => simpa using h
    | list t items => cases h
    | map t es => cases h
    | tuple items => cases h
    | set members => cases h
  · rintro rfl
    rfl

mutual

/-- Tags given twice are tags given once. -/
theorem mapTag_mapTag (f : α → β) (g : β → γ) :
    (t : Tree α) → (t.mapTag f).mapTag g = t.mapTag (g ∘ f)
  | atom _ => rfl
  | list t items => by simp only [mapTag, mapTagItems_mapTagItems f g items, Function.comp]
  | map t es => by simp only [mapTag, mapTagEntries_mapTagEntries f g es, Function.comp]
  | tuple items => by simp only [mapTag, mapTagItems_mapTagItems f g items]
  | set _ => rfl

theorem mapTagItems_mapTagItems (f : α → β) (g : β → γ) :
    (items : List (Tree α)) → mapTagItems g (mapTagItems f items) = mapTagItems (g ∘ f) items
  | [] => rfl
  | x :: xs => by
    simp only [mapTagItems, mapTag_mapTag f g x, mapTagItems_mapTagItems f g xs]

theorem mapTagEntries_mapTagEntries (f : α → β) (g : β → γ) :
    (es : List (Key × Tree α)) →
      mapTagEntries g (mapTagEntries f es) = mapTagEntries (g ∘ f) es
  | [] => rfl
  | (_, v) :: es => by
    simp only [mapTagEntries, mapTag_mapTag f g v, mapTagEntries_mapTagEntries f g es]

end

mutual

/-- A tree is its own copy under the same tags. -/
theorem mapTag_id : (t : Tree α) → t.mapTag id = t
  | atom _ => rfl
  | list _ items => by simp only [mapTag, mapTagItems_id items, id]
  | map _ es => by simp only [mapTag, mapTagEntries_id es, id]
  | tuple items => by simp only [mapTag, mapTagItems_id items]
  | set _ => rfl

theorem mapTagItems_id : (items : List (Tree α)) → mapTagItems id items = items
  | [] => rfl
  | x :: xs => by simp only [mapTagItems, mapTag_id x, mapTagItems_id xs]

theorem mapTagEntries_id : (es : List (Key × Tree α)) → mapTagEntries id es = es
  | [] => rfl
  | (_, v) :: es => by simp only [mapTagEntries, mapTag_id v, mapTagEntries_id es]

end

/-- Taking marks off a tree without marks gives the tree. -/
@[simp] theorem erase_unmarked (v : Value) : v.unmarked.erase = v := by
  rw [erase, unmarked, mapTag_mapTag]
  exact mapTag_id v

/-- A mark on a container changes nothing but its tag. -/
@[simp] theorem erase_withMark (s : Share) (v : Shared) : (v.withMark s).erase = v.erase := by
  cases v <;> rfl

/-- Whether a value is undefined does not depend on tags. -/
@[simp] theorem isUndefined_erase [Inhabited α] (v : Tree α) :
    v.erase.isUndefined = v.isUndefined := by
  cases v with
  | atom a => cases a <;> rfl
  | _ => rfl

end Tree

/-! ## Text forms -/

namespace Json

theorem itemChars?_cons (x y : Tree α) (ys : List (Tree α)) :
    itemChars? (x :: y :: ys) = do
      let first ← chars? x
      let rest ← itemChars? (y :: ys)
      return first ++ ',' :: ' ' :: rest := by
  rw [itemChars?]
  simp

theorem entryChars?_cons (k : Key) (v : Tree α) (e : Key × Tree α) (es : List (Key × Tree α)) :
    entryChars? ((k, v) :: e :: es) = do
      let key ← keyText? k
      let value ← chars? v
      let rest ← entryChars? (e :: es)
      return key ++ ':' :: ' ' :: value ++ ',' :: ' ' :: rest := by
  rw [entryChars?]
  simp

mutual

/-- Tags do not show in JSON. -/
theorem chars?_mapTag (f : α → β) : (t : Tree α) → chars? (t.mapTag f) = chars? t
  | .atom _ => rfl
  | .list _ items => by simp only [Tree.mapTag, chars?, itemChars?_mapTag f items]
  | .map _ es => by simp only [Tree.mapTag, chars?, entryChars?_mapTag f es]
  | .tuple items => by simp only [Tree.mapTag, chars?, itemChars?_mapTag f items]
  | .set _ => rfl

theorem itemChars?_mapTag (f : α → β) :
    (items : List (Tree α)) → itemChars? (Tree.mapTagItems f items) = itemChars? items
  | [] => rfl
  | [x] => by simp only [Tree.mapTagItems, itemChars?, chars?_mapTag f x]
  | x :: y :: ys => by
    have ih := itemChars?_mapTag f (y :: ys)
    simp only [Tree.mapTagItems] at ih ⊢
    rw [itemChars?_cons, itemChars?_cons, chars?_mapTag f x, ih]

theorem entryChars?_mapTag (f : α → β) :
    (es : List (Key × Tree α)) → entryChars? (Tree.mapTagEntries f es) = entryChars? es
  | [] => rfl
  | [(k, v)] => by simp only [Tree.mapTagEntries, entryChars?, chars?_mapTag f v]
  | (k, v) :: (l, w) :: es => by
    have ih := entryChars?_mapTag f ((l, w) :: es)
    simp only [Tree.mapTagEntries] at ih ⊢
    rw [entryChars?_cons, entryChars?_cons, chars?_mapTag f v, ih]

end

end Json

namespace Template

/-- The text form of a tree is that of the plain tree. -/
@[simp] theorem text_erase (v : Tree α) : text v.erase = text v := by
  have h : Json.text? v.erase = Json.text? v := by
    rw [Json.text?, Json.text?, Tree.erase, Json.chars?_mapTag]
  cases v with
  | atom a => cases a <;> rfl
  | list t items => exact h
  | map t es => exact h
  | tuple items => exact h
  | set members => rfl

/-- Values with the same plain tree have the same text form. -/
theorem text_congr {v : Tree α} {w : Tree β} (h : v.erase = w.erase) : text v = text w := by
  rw [← text_erase v, h, text_erase]

end Template

end LayeredConfig
