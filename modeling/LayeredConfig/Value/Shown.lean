import LayeredConfig.Value.Tree

/-!
# Values as they are shown

The form of a value in a message: brackets for lists, braces for mappings and
sets, parentheses for rows, and every scalar so that its kind can be seen.  All
scalars need a written form for that.
-/

namespace LayeredConfig.Tree

variable {α : Type}

mutual

/-- All scalars in the value have a written form. -/
def isWritable : Tree α → Bool
  | atom a => a.isWritable
  | list _ items => areWritable items
  | tuple items => areWritable items
  | map _ es => entriesWritable es
  | set members => Key.areWritable members

/-- All scalars in the items have a written form. -/
def areWritable : List (Tree α) → Bool
  | [] => true
  | x :: xs => isWritable x && areWritable xs

/-- All scalars in the entries have a written form. -/
def entriesWritable : List (Key × Tree α) → Bool
  | [] => true
  | (k, v) :: es => k.isWritable && isWritable v && entriesWritable es

end

mutual

/-- The value as it is shown. -/
def shown : Tree α → String
  | atom a => a.shown
  | list _ items => "[" ++ shownItems items ++ "]"
  | tuple items => "(" ++ shownItems items ++ (if items.length = 1 then ",)" else ")")
  | map _ es => "\x7b" ++ shownEntries es ++ "\x7d"
  | set members => if members.isEmpty then "set()" else "\x7b" ++ Key.shownAll members ++ "\x7d"

/-- Items with commas between them. -/
def shownItems : List (Tree α) → String
  | [] => ""
  | [x] => shown x
  | x :: xs => shown x ++ ", " ++ shownItems xs

/-- Entries with commas between them. -/
def shownEntries : List (Key × Tree α) → String
  | [] => ""
  | [(k, v)] => k.shown ++ ": " ++ shown v
  | (k, v) :: es => k.shown ++ ": " ++ shown v ++ ", " ++ shownEntries es

end

mutual

/-- The key as a value. -/
def ofKey : Key → Tree α
  | .atom a => atom a
  | .tuple ks => tuple (ofKeys ks)

/-- Keys as values. -/
def ofKeys : List Key → List (Tree α)
  | [] => []
  | k :: ks => ofKey k :: ofKeys ks

end

end LayeredConfig.Tree
