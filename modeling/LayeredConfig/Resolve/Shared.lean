import LayeredConfig.Layer.Merge
import LayeredConfig.Path.Lookup
import LayeredConfig.Path.Write

/-!
# Trees with shared containers

One container may occur at several places of a resolved tree: the result of a
reference is reused, and a function may hand out a container that it keeps.  An
empty mapping of a file may occur at several places by its aliases.  Such a
container carries a mark.  Containers with the same mark have the same content,
and `replaceShare` keeps it so when one of them changes: the change is made
wherever the mark occurs.

A container that is written into itself has no end.  In the tree it stands as it was
before the write, below its own mark (`isEndless`).
-/

namespace LayeredConfig

/-- The mark of a container that may occur at several places. -/
inductive Share where
  /-- The result of a reference, by its number. -/
  | result (n : Nat)
  /-- A container that a function keeps, by the function's number. -/
  | kept (fn : Nat)
  /-- An empty mapping of a file, by the number of its node. -/
  | node (n : Nat)
deriving DecidableEq, Inhabited

/-- A tree in which shared containers are marked. -/
abbrev Shared := Tree (Option Share)

namespace Tree

/-- The tree without marks as one that may carry them. -/
def unmarked (v : Value) : Shared :=
  v.mapTag fun _ => none

/-- The mark of a container. -/
def mark? : Shared → Option Share
  | list m _ => m
  | map m _ => m
  | _ => none

/-- The same container under a mark. -/
def withMark (s : Share) : Shared → Shared
  | list _ items => list (some s) items
  | map _ es => map (some s) es
  | other => other

mutual

/-- The marks of a tree, as often as they occur. -/
def marks : Shared → List Share
  | list m items => m.toList ++ itemMarks items
  | map m es => m.toList ++ entryMarks es
  | tuple items => itemMarks items
  | _ => []

/-- The marks of the items of a list. -/
def itemMarks : List Shared → List Share
  | [] => []
  | x :: xs => marks x ++ itemMarks xs

/-- The marks of the entries of a mapping. -/
def entryMarks : List (Key × Shared) → List Share
  | [] => []
  | (_, v) :: es => marks v ++ entryMarks es

end

/-- The tree without the marks that occur only once. -/
def withoutSingleMarks (t : Shared) : Shared :=
  let all := t.marks
  t.mapTag fun m => m.filter fun share => decide (1 < all.count share)

mutual

/-- The tree with new content wherever a mark occurs. -/
def replaceShare (s : Share) (new : Shared) : Shared → Shared
  | atom a => atom a
  | list m items => if m = some s then new else list m (replaceShareItems s new items)
  | map m es => if m = some s then new else map m (replaceShareEntries s new es)
  | tuple items => tuple (replaceShareItems s new items)
  | set members => set members

/-- `replaceShare` on the items of a list. -/
def replaceShareItems (s : Share) (new : Shared) : List Shared → List Shared
  | [] => []
  | x :: xs => replaceShare s new x :: replaceShareItems s new xs

/-- `replaceShare` on the entries of a mapping. -/
def replaceShareEntries (s : Share) (new : Shared) :
    List (Key × Shared) → List (Key × Shared)
  | [] => []
  | (k, v) :: es => (k, replaceShare s new v) :: replaceShareEntries s new es

end

mutual

/-- On the way down through mappings, and through rows as well if asked, a container is met again whose
mark stands above it. -/
def isEndless (rows : Bool) (above : List Share) : Shared → Bool
  | list m items =>
    rows && (m.any above.contains || itemsEndless rows (m.toList ++ above) items)
  | map m es => m.any above.contains || entriesEndless rows (m.toList ++ above) es
  | tuple items => rows && itemsEndless rows above items
  | _ => false

/-- `isEndless` for the items of a list. -/
def itemsEndless (rows : Bool) (above : List Share) : List Shared → Bool
  | [] => false
  | x :: xs => isEndless rows above x || itemsEndless rows above xs

/-- `isEndless` for the entries of a mapping. -/
def entriesEndless (rows : Bool) (above : List Share) : List (Key × Shared) → Bool
  | [] => false
  | (_, v) :: es => isEndless rows above v || entriesEndless rows above es

end

/-- A marked container with new content. -/
structure Revision where
  /-- The mark. -/
  share : Share
  /-- The container as it is from now on. -/
  content : Shared

/-- The tree after a change of one marked container. -/
def revise (rev : Revision) (t : Shared) : Shared :=
  replaceShare rev.share rev.content t

/-- The change that a write below a mapping makes to the deepest marked mapping on its way. -/
def writeRevision? (v : Shared) : List String → List (Key × Shared) → Option Revision
  | s :: s' :: ss, es =>
    match Entries.find? (.str s) es with
    | some (map m sub) =>
      match writeRevision? v (s' :: ss) sub with
      | some rev => some rev
      | none => m.map fun share => ⟨share, map m (writeEntries v (s' :: ss) sub)⟩
    | _ => none
  | _, _ => none

/-- The leaf after changes of marked containers, of which the latest comes first. -/
def reviseAll (revisions : List Revision) (leaf : Shared) : Shared :=
  revisions.foldr (fun rev t => t.revise rev) leaf

/-- A nested mapping while its leaves are written into it. -/
structure Nest where
  /-- The changes made to marked containers, the latest first. -/
  revisions : List Revision
  /-- The entries. -/
  entries : List (Key × Shared)

/-- The mapping with a leaf written.  If the way leads through a marked mapping, that mapping changes
wherever it occurs, also in the leaves that come later. -/
def Nest.place (n : Nest) (leaf : String × Shared) : Nest :=
  let v := reviseAll n.revisions leaf.2
  match writeRevision? v (Path.split leaf.1) n.entries with
  | none => ⟨n.revisions, writeEntries v (Path.split leaf.1) n.entries⟩
  | some rev => ⟨rev :: n.revisions, replaceShareEntries rev.share rev.content n.entries⟩

/-- The entries of a nested mapping from one whose keys may be paths and whose containers may be
marked. -/
def unflattenShared (es : List (Key × Shared)) : List (Key × Shared) :=
  ((flattenEntries "" es).foldl Nest.place ⟨[], []⟩).entries

/-- The list with one item changed. -/
def modifyItem (f : Shared → Shared) : Nat → List Shared → List Shared
  | _, [] => []
  | 0, x :: xs => f x :: xs
  | i + 1, x :: xs => x :: modifyItem f i xs

/-- The entries with one value changed. -/
def modifyEntry (f : Shared → Shared) : Nat → List (Key × Shared) → List (Key × Shared)
  | _, [] => []
  | 0, (k, v) :: es => (k, f v) :: es
  | i + 1, e :: es => e :: modifyEntry f i es

/-- The tree with the value changed that the given places lead to. -/
def modifyAt (f : Shared → Shared) : List Nat → Shared → Shared
  | [], t => f t
  | i :: steps, list m items => list m (modifyItem (modifyAt f steps) i items)
  | i :: steps, map m es => map m (modifyEntry (modifyAt f steps) i es)
  | i :: steps, tuple items => tuple (modifyItem (modifyAt f steps) i items)
  | _ :: _, t => t

/-- The child at a place. -/
def childAt? (i : Nat) : Shared → Option Shared
  | list _ items => items[i]?
  | map _ es => (es[i]?).map (·.2)
  | tuple items => items[i]?
  | _ => none

/-- The change that a change at the given places makes to the deepest marked container on its
way. -/
def modifyRevision? (f : Shared → Shared) : List Nat → Shared → Option Revision
  | [], t => t.mark?.map fun share => ⟨share, f t⟩
  | i :: steps, t =>
    match (t.childAt? i).bind (modifyRevision? f steps) with
    | some rev => some rev
    | none => t.mark?.map fun share => ⟨share, modifyAt f (i :: steps) t⟩

end Tree

end LayeredConfig
