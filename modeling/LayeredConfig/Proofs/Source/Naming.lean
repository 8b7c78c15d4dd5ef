import LayeredConfig.Proofs.Path.Codec
import LayeredConfig.Proofs.Template.Pasting
import LayeredConfig.Source.Variables

/-!
# Trees told by names

Variables and arguments tell a tree by names that are joined from the keys on the way to
each leaf, with a delimiter between two keys.  The readers look for the delimiter from
left to right and put a point for each occurrence.  If it never starts inside a key, not
even with the delimiter behind it, they find exactly the places where keys were joined,
and the tree comes back with its keys in order.

* `Source.Separable` — no occurrence of the delimiter starts inside the key.
* `Source.replaceFrom_append` — what no occurrence starts in stays.
* `Source.pathOfName_intercalate` — the name of keys becomes their path.
* `Source.tree_of_names` — the tree comes back from its variables and its arguments.
-/

namespace LayeredConfig

/-! ## Paths of keys -/

namespace Path

/-- A path that is extended key by key has points between its keys. -/
theorem foldl_extend_eq_intercalate {parent : String} (h : parent ≠ "") (keys : List String) :
    keys.foldl extend parent = ".".intercalate (parent :: keys) := by
  induction keys generalizing parent with
  | nil => simp
  | cons k keys ih =>
    have hextend : extend parent k = parent ++ "." ++ k := if_neg h
    rw [List.foldl_cons, ih (extend_ne_empty h k), hextend]
    simp

theorem foldl_extend_empty {keys : List String} (h : ∀ k ∈ keys, k ≠ "") :
    keys.foldl extend "" = ".".intercalate keys := by
  cases keys with
  | nil => simp
  | cons k keys => exact foldl_extend_eq_intercalate (h k List.mem_cons_self) keys

end Path

namespace Source

/-! ## Delimiters between keys -/

/-- No occurrence of the delimiter starts inside the key, also if the delimiter follows. -/
def Separable (delim key : String) : Prop :=
  ∀ i < key.toList.length, ¬ delim.toList <+: (key.toList ++ delim.toList).drop i

instance (delim : String) : DecidablePred (Separable delim) := fun key =>
  inferInstanceAs (Decidable (∀ i < key.toList.length, _))

theorem replaceFrom_eq_drop (delim : List Char) (skip : Nat) (cs : List Char) :
    replaceFrom delim skip cs = replaceFrom delim 0 (cs.drop skip) := by
  induction cs generalizing skip with
  | nil => cases skip <;> simp [replaceFrom]
  | cons c cs ih =>
    cases skip with
    | zero => rfl
    | succ skip => exact ih skip

/-- An occurrence of the delimiter becomes a point. -/
theorem replaceFrom_delim_append {delim : List Char} (h : delim ≠ []) (rest : List Char) :
    replaceFrom delim 0 (delim ++ rest) = '.' :: replaceFrom delim 0 rest := by
  obtain ⟨c, cs, rfl⟩ := List.exists_cons_of_ne_nil h
  have hfront : (c :: cs).isPrefixOf (c :: (cs ++ rest)) = true := by
    rw [List.isPrefixOf_iff_prefix]
    exact ⟨rest, rfl⟩
  rw [List.cons_append, replaceFrom, if_pos hfront, replaceFrom_eq_drop]
  simp

/-- Characters that no occurrence of the delimiter starts with stay. -/
theorem replaceFrom_append {delim key rest : List Char}
    (h : ∀ i < key.length, ¬ delim <+: (key ++ rest).drop i) :
    replaceFrom delim 0 (key ++ rest) = key ++ replaceFrom delim 0 rest := by
  induction key with
  | nil => rfl
  | cons c cs ih =>
    have hfirst : ¬ delim.isPrefixOf (c :: (cs ++ rest)) = true := by
      rw [List.isPrefixOf_iff_prefix]
      exact h 0 (Nat.succ_pos cs.length)
    rw [List.cons_append, replaceFrom, if_neg hfirst, ih fun i hi => ?_, List.cons_append]
    exact h (i + 1) (Nat.succ_lt_succ hi)

variable {delim : String}

/-- Whatever follows the delimiter, no occurrence of it starts inside the key before. -/
theorem Separable.not_prefix {key : String} (h : Separable delim key) (rest : List Char) :
    ∀ i < key.toList.length,
      ¬ delim.toList <+: (key.toList ++ (delim.toList ++ rest)).drop i := by
  intro i hi hfront
  rw [← List.append_assoc, List.drop_append_of_le_length (by simp; omega)] at hfront
  exact h i hi (List.prefix_of_prefix_length_le hfront (List.prefix_append _ _) (by simp; omega))

/-- No occurrence of the delimiter starts inside a key that nothing follows. -/
theorem Separable.not_prefix_self {key : String} (h : Separable delim key) :
    ∀ i < key.toList.length, ¬ delim.toList <+: (key.toList ++ []).drop i := by
  intro i hi hfront
  refine h i hi ?_
  rw [List.append_nil] at hfront
  rw [List.drop_append_of_le_length (Nat.le_of_lt hi)]
  exact hfront.trans (List.prefix_append _ _)

/-- The name that is joined from keys becomes the path of these keys. -/
theorem pathOfName_intercalate (hdelim : delim ≠ "") {keys : List String}
    (h : ∀ k ∈ keys, Separable delim k) :
    pathOfName delim (delim.intercalate keys) = ".".intercalate keys := by
  have hne : delim.toList ≠ [] := mt String.toList_eq_nil_iff.1 hdelim
  rw [pathOfName, if_neg hdelim, ← String.toList_inj, String.toList_ofList]
  induction keys with
  | nil => simp [replaceFrom]
  | cons k keys ih =>
    obtain ⟨hk, hkeys⟩ := List.forall_mem_cons.1 h
    cases keys with
    | nil =>
      have hlast := replaceFrom_append hk.not_prefix_self
      simpa [replaceFrom] using hlast
    | cons k' keys =>
      simp only [String.intercalate_cons_cons, String.toList_append, List.append_assoc]
      rw [replaceFrom_append (hk.not_prefix _), replaceFrom_delim_append hne, ih hkeys]
      rfl

/-! ## Variables and arguments -/

/-- The variables that tell a tree: one for each leaf, in order. -/
def variablesOf (delim : String) (es : List (Key × Value)) : List (Key × Value) :=
  (Tree.entryBranches es).map fun b => (.str (delim.intercalate b.1), b.2)

/-- The arguments that tell a tree: one for each leaf, in order. -/
def argumentsOf (delim : String) (es : List (Key × Value)) : List String :=
  (Tree.entryBranches es).filterMap fun
    | (keys, .atom (.str s)) => some ("--" ++ delim.intercalate keys ++ "=" ++ s)
    | _ => none

/-- A tree that names can tell: its keys are segments which the delimiter keeps apart. -/
abbrev Tellable (delim : String) : List (Key × Value) → Prop :=
  Tree.NamedEntries fun s => Path.IsSegment s ∧ Separable delim s

variable {es : List (Key × Value)}

theorem Tellable.isSegment (h : Tellable delim es) : Tree.NamedEntries Path.IsSegment es :=
  Tree.namedEntries_mono (fun _ hs => hs.1) es h

/-- The name of a leaf becomes its path. -/
theorem pathOfName_branch (hdelim : delim ≠ "") (h : Tellable delim es)
    {b : List String × Value} (hb : b ∈ Tree.entryBranches es) :
    pathOfName delim (delim.intercalate b.1) = b.1.foldl Path.extend "" := by
  have hkeys := Tree.kind_of_mem_entryBranches es h b hb
  rw [pathOfName_intercalate hdelim fun k hk => (hkeys k hk).2,
    Path.foldl_extend_empty fun k hk => (hkeys k hk).1.1]

/-- The leaves of a tree under their paths, written one after the other, are the tree. -/
theorem nest_branches (h : Tellable delim es) :
    nest (Flat.ofList ((Tree.entryBranches es).map fun b =>
      (b.1.foldl Path.extend "", b.2))) = .map () es := by
  rw [← Tree.entryLeaves_eq_foldl]
  exact congrArg (Tree.map ()) (Tree.unflattenEntries_flattenEntries
    (Tree.rooted_of_isSegment h.isSegment))

/-- No two leaves have the same name. -/
theorem pairwise_names (hdelim : delim ≠ "") (h : Tellable delim es) :
    (Tree.entryBranches es).Pairwise fun a b =>
      delim.intercalate a.1 ≠ delim.intercalate b.1 := by
  have hpaths := Tree.pairwise_apart_entryLeaves (Tree.rooted_of_isSegment h.isSegment)
  rw [Tree.entryLeaves_eq_foldl, List.pairwise_map] at hpaths
  refine hpaths.imp_of_mem fun {a b} ha hb hapart hname => hapart.1 ?_
  rw [← pathOfName_branch hdelim h ha, ← pathOfName_branch hdelim h hb, hname]

/-- Every variable is found under its name. -/
theorem find?_variablesOf (hdelim : delim ≠ "") (h : Tellable delim es)
    {b : List String × Value} (hb : b ∈ Tree.entryBranches es) :
    Entries.find? (.str (delim.intercalate b.1)) (variablesOf delim es) = some b.2 := by
  have hdistinct : Entries.Distinct (variablesOf delim es) := by
    rw [Entries.Distinct, variablesOf, List.pairwise_map]
    refine (pairwise_names hdelim h).imp fun hne => ?_
    rw [Bool.eq_false_iff]
    intro hsame
    exact hne (Atom.str.inj (Key.atom.inj (Key.same_str_iff.1 hsame))).symm
  exact Entries.find?_of_mem hdistinct (List.mem_map_of_mem hb) (Key.same_str_iff.2 rfl)

theorem environment_variablesOf (hdelim : delim ≠ "") (h : Tellable delim es) :
    environment (variablesOf delim es) none delim false = .map () es := by
  have hfind (b : List String × Value) (hb : b ∈ Tree.entryBranches es) :=
    find?_variablesOf hdelim h hb
  rw [← nest_branches h, environment, Option.getD_none]
  unfold variablesOf at hfind ⊢
  rw [List.filterMap_map, List.filterMap_filterMap]
  congr 2
  refine Eq.trans (List.filterMap_congr fun b hb => ?_) (congrFun List.filterMap_eq_map _)
  simp only [Function.comp, Option.bind_some, hfind b hb, pathOfName_branch hdelim h hb]
  rfl

/-! ## Arguments -/

/-- What a tree keeps to if arguments are to tell it: keys on top start with a letter, nothing in
a name is an equals sign, and no text has blanks around it. -/
structure Arguable (delim : String) (es : List (Key × Value)) : Prop where
  letter (s : String) : Key.str s ∈ es.map (·.1) → ∃ c ∈ s.toList.head?, c.isAlpha = true
  delim : '=' ∉ delim.toList
  keys : ∀ b ∈ Tree.entryBranches es, ∀ s ∈ b.1, '=' ∉ s.toList
  texts (keys : List String) (s : String) : (keys, .str s) ∈ Tree.entryBranches es →
    (∀ c ∈ s.toList.head?, Text.isBlank c = false) ∧
      ∀ c ∈ s.toList.getLast?, Text.isBlank c = false

theorem notMem_intercalate {c : Char} {keys : List String} (hdelim : c ∉ delim.toList)
    (hkeys : ∀ k ∈ keys, c ∉ k.toList) : c ∉ (delim.intercalate keys).toList := by
  induction keys with
  | nil => simp
  | cons k keys ih =>
    obtain ⟨hk, hrest⟩ := List.forall_mem_cons.1 hkeys
    cases keys with
    | nil => simpa using hk
    | cons k' keys =>
      rw [String.intercalate_cons_cons, String.toList_append, String.toList_append,
        List.mem_append, List.mem_append, not_or, not_or]
      exact ⟨⟨hk, hdelim⟩, ih hrest⟩

/-- The name of a leaf starts as its first key does. -/
theorem head?_intercalate {k : String} (hk : k ≠ "") (keys : List String) :
    (delim.intercalate (k :: keys)).toList.head? = k.toList.head? := by
  obtain ⟨c, cs, hcs⟩ := List.exists_cons_of_ne_nil (mt String.toList_eq_nil_iff.1 hk)
  cases keys with
  | nil => simp
  | cons k' keys => simp [hcs]

/-- An argument is read as the name and the text that it was made of. -/
theorem argument_option {name s : String} (hletter : ∃ c ∈ name.toList.head?, c.isAlpha = true)
    (hname : '=' ∉ name.toList) (hs : Text.trim s.toList = s.toList) :
    argument ("--" ++ name ++ "=" ++ s) = (name, s) := by
  obtain ⟨c, hc, halpha⟩ := hletter
  obtain ⟨cs, hcs⟩ := List.head?_eq_some_iff.1 hc
  have htoken :
      ("--" ++ name ++ "=" ++ s).toList = ('-' :: '-' :: name.toList) ++ '=' :: s.toList := by
    simp
  have hfront : ∀ d ∈ '-' :: '-' :: name.toList, decide (d ≠ '=') = true := by
    intro d hd
    have : d ≠ '=' := by
      rintro rfl
      simp [hname] at hd
    simpa using this
  obtain ⟨htake, hdrop⟩ := Template.takeWhile_append_stop (c := '=') hfront (by simp) s.toList
  have hkey : ('-' :: '-' :: name.toList).dropWhile (fun c => !isKeyStart c) = name.toList := by
    have hstart : isKeyStart c = true := halpha
    simp [hcs, hstart, show isKeyStart '-' = false from rfl]
  unfold argument
  simp only [htoken, htake, hdrop, hkey, hs, String.ofList_toList]

theorem arguments_argumentsOf (hdelim : delim ≠ "") (h : Tellable delim es)
    (htexts : ∀ b ∈ Tree.entryBranches es, ∃ s, b.2 = .str s) (harg : Arguable delim es) :
    arguments (argumentsOf delim es) none delim = .map () es := by
  rw [← nest_branches h, arguments, argumentsOf, List.map_filterMap, List.filterMap_filterMap,
    ← List.filterMap_eq_map]
  congr 2
  refine List.filterMap_congr fun b hb => ?_
  obtain ⟨keys, v⟩ := b
  obtain ⟨s, rfl⟩ := htexts _ hb
  obtain ⟨k, hk, rest, hkeys⟩ := Tree.exists_key_of_mem_entryBranches hb
  obtain ⟨first, rfl, hsegment⟩ := Tree.exists_of_mem_keys h.isSegment hk
  obtain rfl : keys = first :: rest := hkeys
  have hletter : ∃ c ∈ (delim.intercalate (first :: rest)).toList.head?, c.isAlpha = true := by
    rw [head?_intercalate hsegment.1]
    exact harg.letter first hk
  have hname : delim.intercalate (first :: rest) ≠ "" := by
    intro hempty
    obtain ⟨c, hc, -⟩ := hletter
    simp [hempty] at hc
  obtain ⟨hstart, hend⟩ := harg.texts _ s hb
  have hargument := argument_option hletter
    (notMem_intercalate harg.delim (harg.keys _ hb)) (Text.trim_eq_self hstart hend)
  have hpath := pathOfName_branch hdelim h hb
  simp only [Option.map_some, Option.bind_some, hargument, if_neg hname, hpath, Function.comp]

/-- Keys that the delimiter keeps apart are read back as they were joined: the variables of a tree
tell the tree, in its order, and so do its arguments if they can be told from one another. -/
theorem tree_of_names (hdelim : delim ≠ "") (h : Tellable delim es)
    (htexts : ∀ b ∈ Tree.entryBranches es, ∃ s, b.2 = .str s) :
    environment (variablesOf delim es) none delim false = .map () es ∧
      (Arguable delim es → arguments (argumentsOf delim es) none delim = .map () es) :=
  ⟨environment_variablesOf hdelim h, arguments_argumentsOf hdelim h htexts⟩

/-- Keys may start and end with a part of the delimiter. -/
theorem tree_of_names_underscores :
    let es : List (Key × Value) :=
      [(.str "db", .map () [(.str "_host", .str "a = b"), (.str "x", .map () [(.str "-", .str "")])]),
        (.str "a-", .str "1")]
    environment [(.str "db-__host", .str "a = b"), (.str "db-_x-_-", .str ""),
        (.str "a-", .str "1")] none "-_" false = .map () es ∧
      arguments ["--db-__host=a = b", "--db-_x-_-=", "--a-=1"] none "-_" = .map () es := by
  intro es
  have htellable : Tellable "-_" es :=
    ⟨⟨_, rfl, by decide⟩, by simp,
      ⟨⟨_, rfl, by decide⟩, by simp, trivial,
        ⟨_, rfl, by decide⟩, by simp, ⟨⟨_, rfl, by decide⟩, by simp, trivial, trivial⟩, trivial⟩,
      ⟨_, rfl, by decide⟩, by simp, trivial, trivial⟩
  obtain ⟨henvironment, harguments⟩ := tree_of_names (by decide) htellable
    (by simp [es, Tree.entryBranches, Tree.branches])
  refine ⟨henvironment, harguments ⟨?_, by decide, ?_, ?_⟩⟩
  · simp [es]
  · simp only [es, Tree.entryBranches, Tree.branches]
    decide
  · intro keys s hmem
    simp only [es, Tree.entryBranches, Tree.branches, List.map_cons, List.map_nil,
      List.cons_append, List.nil_append, List.mem_cons, List.not_mem_nil, or_false,
      Prod.mk.injEq, Tree.str, Tree.atom.injEq, Atom.str.injEq] at hmem
    rcases hmem with ⟨-, rfl⟩ | ⟨-, rfl⟩ | ⟨-, rfl⟩ <;> constructor <;> rintro c ⟨⟩ <;> rfl

end Source

end LayeredConfig
