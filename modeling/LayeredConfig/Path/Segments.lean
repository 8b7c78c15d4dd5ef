/-!
# Paths and their segments

A path names a place in a tree by segments with a point or a colon between
them.  The two separators mean the same; the normal form has points only, and
the same segments (`split_normalize`).  Even the empty path has one segment, the
empty one.
-/

namespace LayeredConfig.Path

/-- The two characters that separate segments. -/
def isSeparator (c : Char) : Bool :=
  decide (c = '.') || decide (c = ':')

/-- The character in a path of normal form. -/
def normalizeChar (c : Char) : Char :=
  if c = ':' then '.' else c

/-- The path with points for its separators (`normalize_path`). -/
def normalize (path : String) : String :=
  String.ofList (path.toList.map normalizeChar)

/-- The segments of a path, as lists of characters. -/
def splitChars (cs : List Char) : List (List Char) :=
  cs.splitOnP isSeparator

/-- The segments of a path (`split_path`). -/
def split (path : String) : List String :=
  (splitChars path.toList).map String.ofList

/-- The path below `parent` that ends in `segment`; below the empty path the segment stands
alone. -/
def extend (parent segment : String) : String :=
  if parent = "" then segment else parent ++ "." ++ segment

/-! ## Segments and the normal form -/

/-- The empty path has one segment. -/
theorem splitChars_nil : splitChars [] = [[]] :=
  List.splitOnP_nil

/-- A separator ends a segment; any other character belongs to the first one. -/
theorem splitChars_cons (c : Char) (cs : List Char) :
    splitChars (c :: cs) =
      if isSeparator c then [] :: splitChars cs else (splitChars cs).modifyHead (c :: ·) :=
  List.splitOnP_cons_eq_if_modifyHead c cs

/-- Even the empty path has a segment. -/
theorem splitChars_ne_nil (cs : List Char) : splitChars cs ≠ [] :=
  List.splitOnP_ne_nil isSeparator cs

theorem split_ne_nil (path : String) : split path ≠ [] := by
  simpa [split] using splitChars_ne_nil path.toList

/-- A separator stays one in normal form, and nothing else becomes one. -/
theorem isSeparator_normalizeChar (c : Char) : isSeparator (normalizeChar c) = isSeparator c := by
  unfold normalizeChar
  split <;> simp_all [isSeparator]

/-- What is no separator stays as it is. -/
theorem normalizeChar_of_not_isSeparator {c : Char} (h : isSeparator c = false) :
    normalizeChar c = c := by
  unfold normalizeChar
  split <;> simp_all [isSeparator]

/-- The normal form has the same segments, as lists of characters. -/
theorem splitChars_map_normalizeChar (cs : List Char) :
    splitChars (cs.map normalizeChar) = splitChars cs := by
  induction cs with
  | nil => rfl
  | cons c rest ih =>
    simp only [List.map_cons, splitChars_cons, isSeparator_normalizeChar, ih]
    split
    · rfl
    · rename_i h
      rw [normalizeChar_of_not_isSeparator (by simpa using h)]

/-- The normal form of a path has the same segments. -/
theorem split_normalize (path : String) : split (normalize path) = split path := by
  simp [split, normalize, splitChars_map_normalizeChar]

/-- No segment holds a separator. -/
theorem isSeparator_of_mem_splitChars {cs s : List Char} (hs : s ∈ splitChars cs) {c : Char}
    (hc : c ∈ s) : isSeparator c = false := by
  induction cs generalizing s with
  | nil =>
    rw [splitChars_nil, List.mem_singleton] at hs
    simp [hs] at hc
  | cons d rest ih =>
    rw [splitChars_cons] at hs
    split at hs
    · rcases List.mem_cons.1 hs with rfl | hs
      · simp at hc
      · exact ih hs hc
    · rename_i hd
      obtain ⟨t, ts, h⟩ := List.exists_cons_of_ne_nil (splitChars_ne_nil rest)
      rw [h, List.modifyHead_cons] at hs
      rcases List.mem_cons.1 hs with rfl | hs
      · rcases List.mem_cons.1 hc with rfl | hc
        · simpa using hd
        · exact ih (h ▸ List.mem_cons_self) hc
      · exact ih (h ▸ List.mem_cons_of_mem _ hs) hc

end LayeredConfig.Path
