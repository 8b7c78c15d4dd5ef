import LayeredConfig.Proofs.Yaml.Nodes
import LayeredConfig.Yaml.Build

/-!
# Why a YAML text has no value

Merging changes the entries of mappings and the tags of some keys, but never a scalar.
So the scalars that are built are those that the text writes, each under its own tag or
under the one that it has by its form.

* `standsIn_of_read` — a scalar of a written node that has no value stands in the text.
* `Build.keeps_visit`, `Build.keeps_fill` — building keeps the nodes written.
* `ends_read` — a text has a value, or what stops its reading stands in it.
-/

namespace LayeredConfig.Yaml

variable {ex : Excerpt}

/-! ## Scalars -/

/-- The node is written, or there is no such node. -/
def Node.FoundIn (ex : Excerpt) (n : Node) : Prop :=
  n.WrittenIn ex ∨ n = default

theorem Node.FoundIn.writesText {n : Node} (h : n.FoundIn ex) {text : String}
    (htext : n.content = .scalar text) : WritesText ex text := by
  rcases h with h | rfl
  · exact h.text text htext
  · cases htext
    exact .inl rfl

theorem lift_map_ne_cut {α β : Type} (x : Except ValueFault α) (f : α → β) (c : Cut) :
    (Scalar.lift x).map f ≠ .error (.cut c) := by
  intro h
  cases x <;> cases h

/-- A text never breaks off in a scalar that is read. -/
theorem readScalar_ne_cut {kind : Scalar.Kind} {text : String} {m : Mark} {c : Cut} :
    Scalar.read kind text m ≠ .error (.cut c) := by
  intro h
  unfold Scalar.read at h
  split at h
  case h_1 => cases h
  case h_2 => exact lift_map_ne_cut _ _ _ h
  case h_3 => exact lift_map_ne_cut _ _ _ h
  case h_4 => exact lift_map_ne_cut _ _ _ h
  case h_5 =>
    refine lift_map_ne_cut (Scalar.readTimestamp text) id c ?_
    rw [Except.map_id]
    exact h
  case h_6 => cases h
  case h_7 =>
    dsimp only at h
    split at h
    · cases h
    · split at h <;> cases h

/-- A scalar that has no value of the kind that its node asks for stands in the text. -/
theorem standsIn_of_read {n : Node} (h : n.FoundIn ex) {kind : Scalar.Kind}
    (hkind : Scalar.Kind.ofTag? n.tag = some kind) {text : String} (hwrites : WritesText ex text)
    (htext : ∀ text', n.content = .scalar text' → text = text') {m : Mark} {e : Stop}
    (hread : Scalar.read kind text m = .error e) : e.StandsIn ex := by
  cases e with
  | problem p m => trivial
  | cut c => exact absurd hread readScalar_ne_cut
  | value e =>
    refine .scalar ⟨hwrites, ?_⟩ hread
    rcases h with h | rfl
    · cases h.tag with
      | collection htag =>
        have hseq : Scalar.Kind.ofTag? Tag.seq = none := by decide
        have hmap : Scalar.Kind.ofTag? Tag.map = none := by decide
        rcases htag with htag | htag
        · rw [htag, hseq] at hkind
          cases hkind
        · rw [htag, hmap] at hkind
          cases hkind
      | text htag =>
        have hstr : Scalar.Kind.ofTag? Tag.str = some .str := by decide
        rw [htag, hstr] at hkind
        cases hkind
        cases hread
      | form hcontent htag =>
        rw [htext _ hcontent, ← htag]
        exact .inl hkind
      | token htag => exact .inr ⟨n.tag, htag, hkind⟩
    · have hdefault : Scalar.Kind.ofTag? (default : Node).tag = none := by decide
      rw [hdefault] at hkind
      cases hkind

namespace Build

/-! ## Building with written nodes -/

/-- The builder keeps the nodes written and gives a value as told, or it stops for what stands in the
text. -/
abbrev Keeps {α : Type} (ex : Excerpt) (collections : List Nat) (Q : α → Prop)
    (x : Builder α) : Prop :=
  Maintains (Stop.StandsIn ex) (fun s => WrittenNodes ex collections s.nodes) Q x

section Keeps

variable {α : Type} {collections : List Nat} {Q : α → Prop}

theorem foundIn_getD {nodes : Array Node} (h : WrittenNodes ex collections nodes) (id : Nat) :
    (nodes.getD id default).FoundIn ex := by
  rw [Array.getD_eq_getD_getElem?]
  cases hget : nodes[id]? with
  | none => exact .inr rfl
  | some n => exact .inl (h.written n (Array.mem_of_getElem? hget))

theorem keeps_node (id : Nat) : Keeps ex collections (Node.FoundIn ex) (node id) :=
  maintains_get.bind fun _ hs => maintains_pure (foundIn_getD hs id)

theorem keeps_stopAt (p : Problem) (n : Node) : Keeps ex collections Q (stopAt p n) :=
  maintains_throw trivial

theorem keeps_piece (id : Nat) : Keeps ex collections (fun _ => True) (piece id) :=
  maintains_get.bind fun _ _ => maintains_pure trivial

theorem keeps_setPiece (id : Nat) (p : Piece) :
    Keeps ex collections (fun _ => True) (setPiece id p) :=
  maintains_modify fun _ hs => hs

theorem keeps_plainKey (id : Nat) : Keeps ex collections (fun _ => True) (plainKey id) := by
  refine maintains_modify fun s hs => ?_
  dsimp only
  refine WrittenNodes.modify hs fun n hn => ?_
  have hwritten := hs.written n (Array.mem_of_getElem? hn)
  split
  · exact ⟨⟨hwritten.text, .text rfl⟩, fun h => h⟩
  · exact ⟨hwritten, fun h => h⟩

theorem keeps_setEntries {id : Nat} (hid : id ∈ collections) (entries : List (Nat × Nat)) :
    Keeps ex collections (fun _ => True) (setEntries id entries) :=
  maintains_modify fun _ hs => hs.fill hid (Node.not_isScalar_mapping entries)

/-- A node that is found to be no scalar is known to be none from there on. -/
theorem keeps_node_bind {id : Nat} {f : Node → Builder α}
    (hscalar : ∀ n, n.content.IsScalar → Keeps ex collections Q (f n))
    (hother : ∀ n, Keeps ex (id :: collections) Q (f n)) :
    Keeps ex collections Q (node id >>= f) := by
  intro s hs
  change Ends _ _ ((f (s.nodes.getD id default)).run s)
  by_cases h : (s.nodes.getD id default).content.IsScalar
  · exact hscalar _ h s hs
  · have hknown : WrittenNodes ex (id :: collections) s.nodes := by
      refine ⟨hs.written, List.forall_mem_cons.2 ⟨⟨s.nodes.getD id default, ?_, h⟩, hs.collection⟩⟩
      rw [Array.getD_eq_getD_getElem?] at h ⊢
      cases hget : s.nodes[id]? with
      | none =>
        rw [hget] at h
        exact absurd ⟨_, rfl⟩ h
      | some n => rfl
    exact (hother _ s hknown).mono fun r hr => ⟨hr.1, hr.2.of_cons⟩

/-! ## Merging -/

theorem keeps_entriesOf (id : Nat) : Keeps ex collections (fun _ => True) (entriesOf id) := by
  rw [entriesOf]
  refine (keeps_node id).bind fun n _ => ?_
  split <;> exact maintains_pure trivial

/-- Merging with the given fuel keeps the nodes written. -/
structure KeepsMerges (ex : Excerpt) (fuel : Nat) : Prop where
  into : ∀ collections id, Keeps ex collections (fun _ => True) (mergeInto fuel id)
  entries : ∀ collections ids, Keeps ex collections (fun _ => True) (mergedEntries fuel ids)
  lists : ∀ collections ids, Keeps ex collections (fun _ => True) (listEntries fuel ids)

theorem keepsMerges (ex : Excerpt) (fuel : Nat) : KeepsMerges ex fuel := by
  induction fuel with
  | zero =>
    exact ⟨fun _ _ => maintains_pure trivial, fun _ _ => maintains_pure trivial,
      fun _ _ => maintains_pure trivial⟩
  | succ fuel ih =>
    refine ⟨fun collections id => ?_, fun collections ids => ?_, fun collections ids => ?_⟩
    · unfold mergeInto
      refine keeps_node_bind (fun n hn => ?_) fun n => ?_
      · obtain ⟨text, htext⟩ := hn
        rw [htext]
        exact maintains_pure trivial
      · split
        -- the entries are set again after the merge, so the node has to stay known as a collection
        · refine maintains_get.bind fun s _ => ?_
          refine (keeps_setEntries List.mem_cons_self _).bind fun _ _ => ?_
          refine Maintains.bind (Maintains.forIn (f := fun e : Nat × Nat => plainKey e.1) ?_)
            fun _ _ => ?_
          · exact fun e => keeps_plainKey e.1
          refine (ih.entries _ _).bind fun more _ => .ite ?_ (maintains_pure trivial)
          exact keeps_setEntries List.mem_cons_self _
        · exact maintains_pure trivial
    · cases ids with
      | nil => exact maintains_pure trivial
      | cons id ids =>
        rw [mergedEntries]
        have hrest : ∀ front : List (Nat × Nat), Keeps ex collections (fun _ => True) (do
            return front ++ (← mergedEntries fuel ids)) := fun front =>
          (ih.entries _ _).bind fun _ _ => maintains_pure trivial
        refine (keeps_node id).bind fun n _ => ?_
        dsimp only
        split
        · exact (ih.into _ _).bind fun _ _ => (keeps_entriesOf id).bind fun _ _ => hrest _
        · exact (ih.lists _ _).bind fun _ _ => hrest _
        · exact (keeps_stopAt (Q := fun _ => True) _ _).bind fun _ _ => hrest _
    · cases ids with
      | nil => exact maintains_pure trivial
      | cons id ids =>
        rw [listEntries]
        refine (keeps_node id).bind fun n _ => ?_
        split
        · refine (ih.into _ _).bind fun _ _ => (keeps_entriesOf id).bind fun _ _ => ?_
          exact (ih.lists _ _).bind fun _ _ => maintains_pure trivial
        · exact keeps_stopAt _ _

/-! ## Values -/

/-- The text that counts for a node is written, and it is the node's own if that is a scalar. -/
theorem keeps_scalarText (fuel : Nat) {n : Node} (h : n.FoundIn ex) :
    Keeps ex collections (fun text => WritesText ex text ∧
      ∀ text', n.content = .scalar text' → text = text') (scalarText fuel n) := by
  induction fuel generalizing n with
  | zero => exact keeps_stopAt _ _
  | succ fuel ih =>
    rw [scalarText]
    split
    · rename_i text htext
      refine maintains_pure ⟨h.writesText htext, fun text' htext' => ?_⟩
      exact Content.scalar.inj (htext.symm.trans htext')
    · rename_i hcontent
      refine maintains_get.bind fun s hs => ?_
      dsimp only
      split
      · refine (ih (foundIn_getD hs _)).mono fun text htext => ⟨htext.1, fun text' htext' => ?_⟩
        rw [hcontent] at htext'
        cases htext'
      · exact keeps_stopAt _ _
    · exact keeps_stopAt _ _

theorem keeps_visit (id : Nat) : Keeps ex collections (fun _ => True) (visit id) := by
  unfold visit
  refine (keeps_piece id).bind fun p _ => ?_
  split
  · refine (keeps_node id).bind fun n hn => ?_
    split
    · rename_i kind hkind
      refine maintains_get.bind fun s hs => (keeps_scalarText _ hn).bind fun text htext => ?_
      split
      · exact keeps_setPiece _ _
      · rename_i e he
        exact maintains_throw (standsIn_of_read hn hkind htext.1 htext.2 he)
    · exact (keeps_setPiece _ _).bind fun _ _ => maintains_modify fun _ hs => hs
    · exact keeps_stopAt _ _
  · exact maintains_pure trivial

theorem keeps_visitEntries (entries : List (Nat × Nat)) (acc : List (Atom × Nat)) :
    Keeps ex collections (fun _ => True) (visitEntries entries acc) := by
  induction entries generalizing acc with
  | nil => exact maintains_pure trivial
  | cons e entries ih =>
    rw [visitEntries]
    refine (keeps_visit _).bind fun _ _ => (keeps_piece _).bind fun p _ => ?_
    split
    · exact (keeps_visit _).bind fun _ _ => ih _
    · exact (keeps_node _).bind fun _ _ => keeps_stopAt _ _

theorem keeps_fillMapping (id : Nat) : Keeps ex collections (fun _ => True) (fillMapping id) := by
  unfold fillMapping
  refine (keeps_node id).bind fun n _ => ?_
  split
  · refine maintains_get.bind fun s _ => ((keepsMerges ex _).into _ _).bind fun _ _ => ?_
    exact (keeps_entriesOf id).bind fun _ _ => keeps_visitEntries _ _
  · exact (keeps_node _).bind fun _ _ => keeps_stopAt _ _

theorem keeps_fillPair (id : Nat) : Keeps ex collections (fun _ => True) (fillPair id) := by
  unfold fillPair
  refine (keeps_node id).bind fun n _ => ?_
  split
  · exact (keeps_visit _).bind fun _ _ => (keeps_visit _).bind fun _ _ => maintains_pure trivial
  · exact keeps_stopAt _ _

theorem keeps_fill (id : Nat) (kind : CollectionKind) :
    Keeps ex collections (fun _ => True) (fill id kind) := by
  unfold fill
  refine (keeps_node id).bind fun n _ => ?_
  cases kind with
  | seq =>
    dsimp only
    split
    · exact (Maintains.forM keeps_visit).bind fun _ _ => keeps_setPiece _ _
    · exact keeps_stopAt _ _
  | map => exact (keeps_fillMapping id).bind fun _ _ => keeps_setPiece _ _
  | set => exact (keeps_fillMapping id).bind fun _ _ => keeps_setPiece _ _
  | pairs =>
    dsimp only
    split
    · exact (Maintains.mapM keeps_fillPair).bind fun _ _ => keeps_setPiece _ _
    · exact keeps_stopAt _ _

theorem keeps_fillAll (fuel : Nat) : Keeps ex collections (fun _ => True) (fillAll fuel) := by
  induction fuel with
  | zero => exact maintains_pure trivial
  | succ fuel ih =>
    rw [fillAll]
    refine maintains_get.bind fun s _ => .ite (maintains_pure trivial) ?_
    refine Maintains.bind (maintains_modify fun _ hs => hs) fun _ _ => ?_
    exact (Maintains.forM fun e => keeps_fill _ _).bind fun _ _ => ih

theorem keeps_buildPieces (root : Nat) :
    Keeps ex collections (fun _ => True) (buildPieces root) :=
  (keeps_visit root).bind fun _ _ => maintains_get.bind fun _ _ => keeps_fillAll _

end Keeps

end Build

/-! ## Whole texts -/

/-- A text has a value and does not break off, or its reading stops for a problem, where it breaks off,
or for a value that cannot be built. -/
theorem ends_read (ex : Excerpt) : Ends (Stop.StandsIn ex) (fun _ => ex.cut = none) (read ex) := by
  have hdocument := ends_ofExcerpt? ex
  unfold read
  split
  · rename_i herror
    exact hdocument.of_eq_error herror
  · rename_i c _ hcut
    exact hcut
  · rename_i hcut
    exact hcut
  · rename_i d hd hcut
    have hwritten : WrittenNodes ex [] d.nodes := ⟨hdocument.of_eq_ok hd d rfl, by simp⟩
    exact (Build.keeps_buildPieces d.root _ hwritten).bind fun _ _ => hcut

end LayeredConfig.Yaml
