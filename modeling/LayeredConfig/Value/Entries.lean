import LayeredConfig.Value.Atom

/-!
# Ordered entries

A mapping is a list of entries in the order in which their keys first came.  A
key that comes again keeps its place and its first form (`keys_insert`), and
takes the new value (`find?_insert_self`).
-/

namespace LayeredConfig

namespace Entries

variable {β : Type}

/-- The value of a key. -/
def find? (k : Key) : List (Key × β) → Option β
  | [] => none
  | (k', v) :: rest => if k.same k' then some v else find? k rest

/-- Writes a key: in its place if it is there, else at the end. -/
def insert (k : Key) (v : β) : List (Key × β) → List (Key × β)
  | [] => [(k, v)]
  | (k', v') :: rest => if k.same k' then (k', v) :: rest else (k', v') :: insert k v rest

/-- The key is there. -/
def contains (k : Key) (es : List (Key × β)) : Bool :=
  (find? k es).isSome

/-- Writes pairs one after the other. -/
def insertAll (pairs : List (Key × β)) (es : List (Key × β)) : List (Key × β) :=
  pairs.foldl (fun acc p => insert p.1 p.2 acc) es

/-- The entries of a list of pairs. -/
def ofList (pairs : List (Key × β)) : List (Key × β) :=
  insertAll pairs []

/-! ## What is written is found -/

/-- What has been written under a key is found there. -/
theorem find?_insert_self {k : Key} (h : k.same k = true) (v : β) (es : List (Key × β)) :
    find? k (insert k v es) = some v := by
  induction es with
  | nil => simp [insert, find?, h]
  | cons e rest ih =>
    obtain ⟨k', v'⟩ := e
    by_cases hk : k.same k' = true <;> simp [insert, find?, hk, ih]

/-- A key that is there keeps its place and its form, and so do all others. -/
theorem keys_insert {k : Key} {es : List (Key × β)} (h : contains k es = true) (v : β) :
    (insert k v es).map Prod.fst = es.map Prod.fst := by
  induction es with
  | nil => simp [contains, find?] at h
  | cons e rest ih =>
    obtain ⟨k', v'⟩ := e
    by_cases hk : k.same k' = true
    · simp [insert, hk]
    · simp only [contains, find?, hk] at h
      simpa [insert, hk] using ih h

end Entries

/-- Members in the order in which they first came. -/
def Key.distinct (ks : List Key) : List Key :=
  ks.foldl (fun acc k => if acc.any (k.same ·) then acc else acc ++ [k]) []

end LayeredConfig
