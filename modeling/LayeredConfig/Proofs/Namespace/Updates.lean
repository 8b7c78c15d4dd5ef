import LayeredConfig.Proofs.Layer.Precedence

/-!
# Namespaces over many updates

Over any sequence of updates the definition stays what it was, and what has been
registered stays until a later update has something on its way, at its place or
below it.

* `Tree.keyLeaves` — the leaves of a tree, each with the keys on the way to it.
* `Tree.way_of_mem_entryKeyLeaves` — a leaf stands at the end of its way.
* `Tree.way_none_of_apart` — where no leaf is, nothing stands.
* `Registry.updateAll_keeps` — what a sequence of updates keeps.
-/

namespace LayeredConfig

/-! ## Leaves by their keys -/

namespace Tree

section KeyLeaves

variable {α : Type}

mutual

/-- The leaves of a value, each with the keys on the way to it. -/
def keyLeaves : Tree α → List (List Key × Tree α)
  | map t [] => [([], map t [])]
  | map _ (e :: es) => entryKeyLeaves (e :: es)
  | leaf => [([], leaf)]

/-- The leaves of the entries of a mapping, each with the keys on the way to it. -/
def entryKeyLeaves : List (Key × Tree α) → List (List Key × Tree α)
  | [] => []
  | (k, v) :: es => (keyLeaves v).map (fun leaf => (k :: leaf.1, leaf.2)) ++ entryKeyLeaves es

end

/-- The leaves of a mapping are the leaves of its values, each below the value's key. -/
theorem mem_entryKeyLeaves_iff {ks : List Key} {v : Tree α} {es : List (Key × Tree α)} :
    (ks, v) ∈ entryKeyLeaves es ↔
      ∃ k w rest, (k, w) ∈ es ∧ ks = k :: rest ∧ (rest, v) ∈ keyLeaves w := by
  induction es with
  | nil => simp [entryKeyLeaves]
  | cons e es ih =>
    obtain ⟨l, u⟩ := e
    rw [entryKeyLeaves, List.mem_append, ih]
    constructor
    · intro h
      rcases h with hfirst | ⟨k, w, rest, hmem, hks, hleaf⟩
      · obtain ⟨⟨rest, v'⟩, hleaf, heq⟩ := List.mem_map.1 hfirst
        cases heq
        exact ⟨l, u, rest, List.mem_cons_self, rfl, hleaf⟩
      · exact ⟨k, w, rest, List.mem_cons_of_mem _ hmem, hks, hleaf⟩
    · intro h
      obtain ⟨k, w, rest, hmem, rfl, hleaf⟩ := h
      rcases List.mem_cons.1 hmem with heq | hmem
      · cases heq
        exact Or.inl (List.mem_map.2 ⟨(rest, v), hleaf, rfl⟩)
      · exact Or.inr ⟨k, w, rest, hmem, rfl, hleaf⟩

/-- Whatever stands somewhere has a leaf there or below. -/
theorem keyLeaves_ne_nil : (v : Tree α) → keyLeaves v ≠ []
  | map _ [] => by simp [keyLeaves]
  | map _ ((k, v) :: es) => by
    have hfirst := keyLeaves_ne_nil v
    simp [keyLeaves, entryKeyLeaves, hfirst]
  | atom _ => by simp [keyLeaves]
  | list _ _ => by simp [keyLeaves]
  | tuple _ => by simp [keyLeaves]
  | set _ => by simp [keyLeaves]

/-- What stands at a key has a leaf whose way begins with that key. -/
theorem exists_mem_entryKeyLeaves {k : Key} {v : Tree α} {es : List (Key × Tree α)}
    (h : (k, v) ∈ es) : ∃ rest leaf, (k :: rest, leaf) ∈ entryKeyLeaves es := by
  obtain ⟨⟨rest, leaf⟩, hmem⟩ := List.exists_mem_of_ne_nil _ (keyLeaves_ne_nil v)
  exact ⟨rest, leaf, mem_entryKeyLeaves_iff.2 ⟨k, v, rest, h, rfl, hmem⟩⟩

mutual

/-- A mapping with entries is no leaf. -/
theorem ne_cons_of_mem_keyLeaves (t : α) (e : Key × Tree α) (es : List (Key × Tree α)) :
    (v : Tree α) → ∀ leaf ∈ keyLeaves v, leaf.2 ≠ map t (e :: es)
  | map _ [], leaf, hmem => by
    obtain rfl := List.mem_singleton.1 hmem
    simp
  | map _ (f :: fs), leaf, hmem => ne_cons_of_mem_entryKeyLeaves t e es (f :: fs) leaf hmem
  | atom _, leaf, hmem => by
    obtain rfl := List.mem_singleton.1 hmem
    simp
  | list _ _, leaf, hmem => by
    obtain rfl := List.mem_singleton.1 hmem
    simp
  | tuple _, leaf, hmem => by
    obtain rfl := List.mem_singleton.1 hmem
    simp
  | set _, leaf, hmem => by
    obtain rfl := List.mem_singleton.1 hmem
    simp

theorem ne_cons_of_mem_entryKeyLeaves (t : α) (e : Key × Tree α) (es : List (Key × Tree α)) :
    (fs : List (Key × Tree α)) → ∀ leaf ∈ entryKeyLeaves fs, leaf.2 ≠ map t (e :: es)
  | [], leaf, hmem => by cases hmem
  | (k, v) :: fs, leaf, hmem => by
    rcases List.mem_append.1 hmem with hfirst | hrest
    · obtain ⟨below, hbelow, rfl⟩ := List.mem_map.1 hfirst
      exact ne_cons_of_mem_keyLeaves t e es v below hbelow
    · exact ne_cons_of_mem_entryKeyLeaves t e es fs leaf hrest

end

/-- A value that is a leaf itself, or else a mapping with entries. -/
theorem keyLeaves_cases (v : Tree α) :
    keyLeaves v = [([], v)] ∨ ∃ t es, v = map t es ∧ keyLeaves v = entryKeyLeaves es := by
  cases v with
  | map t es =>
    cases es with
    | nil => exact Or.inl rfl
    | cons e es => exact Or.inr ⟨t, e :: es, rfl, rfl⟩
  | _ => exact Or.inl rfl

/-- A leaf whose keys are texts stands at the end of the way along them. -/
theorem way_of_mem_entryKeyLeaves {path : List String} {v : Tree α} {es : List (Key × Tree α)}
    (hes : KeyedOnceEntries es) (h : (path.map Key.str, v) ∈ entryKeyLeaves es) :
    path ≠ [] ∧ Way (fun _ => True) (· = some v) path es := by
  induction path generalizing es with
  | nil =>
    obtain ⟨k, w, rest, -, hks, -⟩ := mem_entryKeyLeaves_iff.1 h
    cases hks
  | cons s ss ih =>
    refine ⟨by simp, ?_⟩
    obtain ⟨k, w, rest, hmem, hks, hleaf⟩ := mem_entryKeyLeaves_iff.1 h
    obtain ⟨rfl, rfl⟩ := List.cons.inj hks
    have hfind := find?_of_mem hes hmem
    rcases keyLeaves_cases w with hself | ⟨t, sub, rfl, hsub⟩
    · rw [hself, List.mem_singleton] at hleaf
      obtain ⟨hss, rfl⟩ := Prod.mk.inj hleaf
      obtain rfl := List.map_eq_nil_iff.1 hss
      exact hfind
    · rw [hsub] at hleaf
      obtain ⟨hne, hway⟩ := ih (keyedOnce_of_find? hes hfind) hleaf
      obtain ⟨s', ss, rfl⟩ := List.exists_cons_of_ne_nil hne
      exact way_cons_cons_iff.2 (Or.inr ⟨t, sub, hfind, trivial, hway⟩)

/-- Where no leaf stands at the end of a way, on it or below it, nothing stands at its end, and the
way there goes through mappings as far as there is anything. -/
theorem way_none_of_apart {path : List String} {es : List (Key × Tree α)}
    (h : ∀ leaf ∈ entryKeyLeaves es,
      ¬ path.map Key.str <+: leaf.1 ∧ ¬ leaf.1 <+: path.map Key.str) :
    Way (fun _ => True) (· = none) path es := by
  induction path generalizing es with
  | nil => trivial
  | cons s ss ih =>
    cases hfind : Entries.find? (.str s) es with
    | none =>
      cases ss with
      | nil => exact hfind
      | cons s' ss => exact way_cons_cons_iff.2 (Or.inl ⟨hfind, rfl⟩)
    | some u =>
      have hmem := mem_of_find? hfind
      cases ss with
      | nil =>
        -- whatever stands at the end has a leaf there or below
        obtain ⟨rest, leaf, hleaf⟩ := exists_mem_entryKeyLeaves hmem
        exact absurd (List.cons_prefix_cons.2 ⟨rfl, List.nil_prefix⟩) (h _ hleaf).1
      | cons s' ss =>
        rcases keyLeaves_cases u with hself | ⟨t, sub, rfl, hsub⟩
        · have hleaf : ([Key.str s], u) ∈ entryKeyLeaves es :=
            mem_entryKeyLeaves_iff.2 ⟨_, u, [], hmem, rfl, by rw [hself]; exact List.mem_cons_self⟩
          exact absurd (List.cons_prefix_cons.2 ⟨rfl, List.nil_prefix⟩) (h _ hleaf).2
        · refine way_cons_cons_iff.2 (Or.inr ⟨t, sub, hfind, trivial, ih fun leaf hleaf => ?_⟩)
          have hbelow : (Key.str s :: leaf.1, leaf.2) ∈ entryKeyLeaves es :=
            mem_entryKeyLeaves_iff.2 ⟨_, _, leaf.1, hmem, rfl, by rw [hsub]; exact hleaf⟩
          have hapart := h _ hbelow
          simpa [List.cons_prefix_cons] using hapart

end KeyLeaves

/-- What is found by going along the keys. -/
def atKeys? {α : Type} : List String → Tree α → Option (Tree α)
  | [], t => some t
  | s :: ss, map _ es => (Entries.find? (.str s) es).bind (atKeys? ss)
  | _ :: _, _ => none

/-- What stands at the end of a way is found by going along it. -/
theorem atKeys?_of_way {α : Type} {v : Tree α} {s : String} {ss : List String}
    {es : List (Key × Tree α)} (h : Way (fun _ => True) (· = some v) (s :: ss) es) :
    (Entries.find? (.str s) es).bind (atKeys? ss) = some v := by
  induction ss generalizing s es with
  | nil =>
    have hend : Entries.find? (.str s) es = some v := h
    rw [hend]
    rfl
  | cons s' ss ih =>
    rcases way_cons_cons_iff.1 h with ⟨-, hnothing⟩ | ⟨t, sub, hsome, -, hsub⟩
    · cases hnothing
    · rw [hsome]
      exact ih hsub

end Tree

/-! ## Many updates -/

namespace Registry

variable {δ : Type}

/-- A store that registers namespaces updates its registry in the same way. -/
theorem namespaces_register {σ φ : Type} (s : Store σ φ) (namespaces : Value) :
    (s.register namespaces).1.namespaces = s.namespaces.updated namespaces := by
  rw [Store.register, updated]
  rcases update_cases namespaces with ⟨-, hrun⟩ | ⟨e, log, hrun⟩ | ⟨es, log, -, -, hrun⟩ <;>
    simp only [hrun]

/-- The registry after updates one after the other. -/
def updateAll (r : Registry δ) (calls : List Value) : Registry δ :=
  calls.foldl updated r

theorem updateAll_append (r : Registry δ) (before after : List Value) :
    r.updateAll (before ++ after) = (r.updateAll before).updateAll after :=
  List.foldl_append

theorem definition_updateAll (r : Registry δ) (calls : List Value) :
    (r.updateAll calls).definition = r.definition := by
  induction calls generalizing r with
  | nil => rfl
  | cons call calls ih =>
    have hfirst := definition_updated r call
    exact (ih (r.updated call)).trans hfirst

/-- The leaves that a mapping of namespaces registers. -/
def registers : Value → List (List Key × Value)
  | .map _ es => Tree.entryKeyLeaves es
  | _ => []

/-- No leaf that is registered stands at the path, on the way to it, or below it. -/
def LeavesOut (path : List String) (namespaces : Value) : Prop :=
  ∀ leaf ∈ registers namespaces,
    ¬ path.map Key.str <+: leaf.1 ∧ ¬ leaf.1 <+: path.map Key.str

/-- What stands at the end of a way stays there under an update that leaves it out. -/
theorem way_updated {r : Registry} {namespaces v : Value} (hkeys : namespaces.KeyedOnce)
    {path : List String} (hout : Accepts namespaces → LeavesOut path namespaces)
    (h : Tree.Way (fun _ => True) (· = some v) path r.others) :
    Tree.Way (fun _ => True) (· = some v) path (r.updated namespaces).others := by
  rcases updated_cases r namespaces with hsame | ⟨es, rfl, -, haccepts, hlaid⟩
  · rw [hsame]
    exact h
  · have hway := Tree.way_none_of_apart (hout haccepts)
    rw [hlaid]
    exact Tree.way_overlayEntries_of_none hkeys hway h

theorem way_updateAll {calls : List Value} (hkeys : ∀ call ∈ calls, call.KeyedOnce)
    {path : List String} (hout : ∀ call ∈ calls, Accepts call → LeavesOut path call)
    {r : Registry} {v : Value} (h : Tree.Way (fun _ => True) (· = some v) path r.others) :
    Tree.Way (fun _ => True) (· = some v) path (r.updateAll calls).others := by
  induction calls generalizing r with
  | nil => exact h
  | cons call calls ih =>
    obtain ⟨hkey, hkeys⟩ := List.forall_mem_cons.1 hkeys
    obtain ⟨hfirst, hrest⟩ := List.forall_mem_cons.1 hout
    exact ih hkeys hrest (way_updated hkey hfirst h)

/-- A leaf that is registered stands at the end of its way, as a copy; its first key is not the
reserved name. -/
theorem way_updated_self {namespaces : Value} (haccepts : Accepts namespaces)
    (hkeys : namespaces.KeyedOnce) {path : List String} {v : Value}
    (hleaf : (path.map Key.str, v) ∈ registers namespaces) (hv : v.isUndefined = false)
    (hmap : ∀ es, v ≠ .map () es) (r : Registry) :
    (∃ s ss, path = s :: ss ∧ s ≠ reservedName) ∧
      Tree.Way (fun _ => True) (· = some v.copy) path (r.updated namespaces).others := by
  rcases update_cases namespaces with ⟨hfalse, -⟩ | ⟨e, log, hrefused⟩ |
    ⟨es, log, rfl, hself, hlaid⟩
  · -- a mapping that counts as false has no leaves
    cases namespaces with
    | map _ es =>
      cases es with
      | nil => cases hleaf
      | cons e es => cases hfalse
    | _ => cases hleaf
  · have hr := haccepts r
    rw [hrefused] at hr
    cases hr
  · obtain ⟨hne, hway⟩ := Tree.way_of_mem_entryKeyLeaves hkeys hleaf
    obtain ⟨s, ss, rfl⟩ := List.exists_cons_of_ne_nil hne
    refine ⟨⟨s, ss, rfl, ?_⟩, ?_⟩
    · rintro rfl
      have hfound := Tree.atKeys?_of_way hway
      rw [hself] at hfound
      cases hfound
    · rw [updated, hlaid]
      exact Tree.way_overlayEntries hv (fun _ es => hmap es) hkeys hway _

/-- What a registry holds at a path: a namespace, or what is found in it along the other keys. -/
def atKeys? (r : Registry) : List String → Option Value
  | [] => none
  | name :: path => (r.get? name).bind (Tree.atKeys? path)

/-- Over every sequence of updates, whatever is given to them: the definition stays what it was and
the reserved name stands for it; an update that is refused has changed nothing when it is; and a leaf
that an update has registered, if it is neither undefined nor an empty mapping, is found where it has
been registered, as a copy, unless a later update that is not refused has a leaf there, on the way
there or below. -/
theorem updateAll_keeps (definition : Value) {calls : List Value}
    (hkeys : ∀ call ∈ calls, call.KeyedOnce) :
    let r := (ofDefinition definition).updateAll calls
    (r.definition = definition ∧ r.get? reservedName = some definition) ∧
      (∀ refused e log after, (update refused).run ⟨r, log⟩ = (.error e, after) →
        after.registry.entries = r.entries) ∧
      ∀ before namespaces after, calls = before ++ namespaces :: after → Accepts namespaces →
        ∀ path v, (path.map Key.str, v) ∈ registers namespaces → v.isUndefined = false →
          v ≠ .map () [] → (∀ later ∈ after, Accepts later → LeavesOut path later) →
          r.atKeys? path = some v.copy := by
  intro r
  have hdefinition : r.definition = definition := definition_updateAll _ calls
  refine ⟨⟨hdefinition, ?_⟩, ?_, ?_⟩
  · rw [get?, if_pos rfl, hdefinition]
  · intro refused e log after h
    rw [registry_of_error h]
  · intro before namespaces after hcalls haccepts path v hleaf hv hempty hout
    subst hcalls
    obtain ⟨-, hrest⟩ := List.forall_mem_append.1 hkeys
    obtain ⟨hkey, hafter⟩ := List.forall_mem_cons.1 hrest
    have hmap : ∀ es, v ≠ .map () es := by
      intro es
      cases es with
      | nil => exact hempty
      | cons e es =>
        cases namespaces with
        | map _ fs => exact Tree.ne_cons_of_mem_entryKeyLeaves () e es fs _ hleaf
        | _ => cases hleaf
    obtain ⟨⟨s, ss, rfl, hs⟩, hself⟩ := way_updated_self haccepts hkey hleaf hv hmap
      ((ofDefinition definition).updateAll before)
    have hway := way_updateAll hafter hout hself
    have hr : r = (((ofDefinition definition).updateAll before).updated namespaces).updateAll
        after := updateAll_append _ before (namespaces :: after)
    rw [atKeys?, get?, if_neg hs, hr]
    exact Tree.atKeys?_of_way hway

/-- Updates of which three are refused: a reserved name, a text, and names without an order. -/
def mixedCalls : List Value :=
  [.map () [(.str "sm", .map () [(.str "token", .tuple [.str "x", .atom (.int 1)])])],
    .map () [(.str "sm", .map () [(.str "other", .atom .undefined)]), (.str "self", .str "x")],
    .str "sm",
    .map () [(.str "sm", .str "x"), (.atom (.int 1), .str "x")],
    .map () [(.str "sm", .map () [(.str "tokens", .str "y")]), (.str "env", .map () [])]]

/-- The first registration of `mixedCalls` is still there after the others. -/
theorem updateAll_keeps_mixedCalls :
    (∀ call ∈ mixedCalls, call.KeyedOnce) ∧
      ((ofDefinition (.str "d")).updateAll mixedCalls).atKeys? ["sm", "token"] =
        some (.list () [.str "x", .atom (.int 1)]) := by
  have hkeys : ∀ call ∈ mixedCalls, call.KeyedOnce := by
    simp [mixedCalls, Tree.KeyedOnce, Tree.KeyedOnceEntries, ← Bool.not_eq_true,
      Key.same_str_iff]
  refine ⟨hkeys, ?_⟩
  refine (updateAll_keeps (.str "d") hkeys).2.2 [] _ _ rfl ?_ ["sm", "token"]
    (.tuple [.str "x", .atom (.int 1)]) ?_ rfl (by simp) ?_
  · exact (accepts_iff ⟨ofDefinition (.str "d" : Value), []⟩ _).2 rfl
  · exact List.mem_cons_self
  · intro later hmem haccepts
    -- the fourth update would come to stand on the way, but it is refused
    rcases List.mem_cons.1 hmem with rfl | hmem
    · simp [LeavesOut, registers, Tree.entryKeyLeaves, Tree.keyLeaves, List.cons_prefix_cons]
    rcases List.mem_cons.1 hmem with rfl | hmem
    · simp [LeavesOut, registers]
    rcases List.mem_cons.1 hmem with rfl | hmem
    · have hr := haccepts (ofDefinition (.str "d"))
      cases hr
    · obtain rfl := List.mem_singleton.1 hmem
      simp [LeavesOut, registers, Tree.entryKeyLeaves, Tree.keyLeaves, List.cons_prefix_cons]

end Registry

end LayeredConfig
