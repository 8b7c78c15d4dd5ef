import LayeredConfig.Proofs.Yaml.Scanning
import LayeredConfig.Yaml.Node

/-!
# Where the nodes of a YAML text come from

Every scalar among the nodes is written by a token of the text or by nothing at all, and
every tag is that of a collection, that of the form of a scalar, or written by a token.
A collection is a node before it is filled, so the readers keep to a list of the nodes
that are still to be filled and are known to be no scalars.

* `Node.WrittenIn`, `WrittenNodes` — the text writes a node, and all nodes of a list.
* `Node.Keeps` — readers that keep to that.
* `Node.keepsAll` — all parts of a document are read that way.
* `ends_ofExcerpt?` — so is the document.
-/

namespace LayeredConfig.Yaml

variable {ex : Excerpt}

/-! ## Nodes of a text -/

/-- The content is a text. -/
def Content.IsScalar (c : Content) : Prop :=
  ∃ text, c = .scalar text

/-- Where the tag of a node comes from. -/
inductive Node.TagFrom (ex : Excerpt) (n : Node) : Prop where
  /-- It is that of a collection. -/
  | collection (h : n.tag = Tag.seq ∨ n.tag = Tag.map)
  /-- It is that of a text. -/
  | text (h : n.tag = Tag.str)
  /-- The scalar has the form of its kind. -/
  | form {text : String} (hcontent : n.content = .scalar text) (h : n.tag = Tag.ofPlain text)
  /-- A token writes it. -/
  | token (h : WritesTag ex n.tag)

/-- The text writes the node: its scalar, and its tag unless that follows from its content. -/
structure Node.WrittenIn (ex : Excerpt) (n : Node) : Prop where
  text : ∀ text, n.content = .scalar text → WritesText ex text
  tag : n.TagFrom ex

/-- A collection stays written when it is filled. -/
theorem Node.WrittenIn.filled {n : Node} (h : n.WrittenIn ex) (hscalar : ¬ n.content.IsScalar)
    {content : Content} (hc : ¬ content.IsScalar) :
    ({ n with content := content } : Node).WrittenIn ex where
  text text htext := absurd ⟨text, htext⟩ hc
  tag := by
    cases h.tag with
    | collection h => exact .collection h
    | text h => exact .text h
    | form hcontent => exact absurd ⟨_, hcontent⟩ hscalar
    | token h => exact .token h

/-- The text writes all nodes, and the listed ones are no scalars. -/
structure WrittenNodes (ex : Excerpt) (collections : List Nat) (nodes : Array Node) : Prop where
  written : ∀ n ∈ nodes, n.WrittenIn ex
  collection : ∀ id ∈ collections, ∃ n, nodes[id]? = some n ∧ ¬ n.content.IsScalar

namespace WrittenNodes

variable {collections : List Nat} {nodes : Array Node}

theorem of_cons {id : Nat} (h : WrittenNodes ex (id :: collections) nodes) :
    WrittenNodes ex collections nodes :=
  ⟨h.written, fun id hid => h.collection id (List.mem_cons_of_mem _ hid)⟩

theorem push (h : WrittenNodes ex collections nodes) {n : Node} (hn : n.WrittenIn ex) :
    WrittenNodes ex collections (nodes.push n) where
  written n' hn' := by
    rcases Array.mem_push.1 hn' with hn' | rfl
    · exact h.written n' hn'
    · exact hn
  collection id hid := by
    obtain ⟨n', hn', hscalar⟩ := h.collection id hid
    obtain ⟨hlt, hget⟩ := Array.getElem?_eq_some_iff.1 hn'
    exact ⟨n', by rw [Array.getElem?_push_lt hlt, hget], hscalar⟩

/-- A node is changed to one that is written too and is no scalar unless it was one. -/
theorem modify (h : WrittenNodes ex collections nodes) {id : Nat} {f : Node → Node}
    (hf : ∀ n, nodes[id]? = some n →
      (f n).WrittenIn ex ∧ ((f n).content.IsScalar → n.content.IsScalar)) :
    WrittenNodes ex collections (nodes.modify id f) where
  written n hn := by
    obtain ⟨i, hi⟩ := Array.mem_iff_getElem?.1 hn
    rw [Array.getElem?_modify] at hi
    split at hi
    · rename_i heq
      subst heq
      obtain ⟨n', hn', rfl⟩ := Option.map_eq_some_iff.1 hi
      exact (hf n' hn').1
    · exact h.written n (Array.mem_of_getElem? hi)
  collection id' hid' := by
    obtain ⟨n, hn, hscalar⟩ := h.collection id' hid'
    rw [Array.getElem?_modify, hn]
    split
    · rename_i heq
      subst heq
      exact ⟨f n, rfl, fun hf' => hscalar ((hf n hn).2 hf')⟩
    · exact ⟨n, rfl, hscalar⟩

/-- A collection is filled. -/
theorem fill (h : WrittenNodes ex collections nodes) {id : Nat} (hid : id ∈ collections)
    {content : Content} (hc : ¬ content.IsScalar) : WrittenNodes ex collections
      (nodes.modify id fun n => { n with content := content }) := by
  refine h.modify fun n hn => ⟨?_, fun hscalar => absurd hscalar hc⟩
  obtain ⟨n', hn', hscalar⟩ := h.collection id hid
  obtain rfl := Option.some.inj (hn.symm.trans hn')
  exact (h.written n (Array.mem_of_getElem? hn)).filled hscalar hc

end WrittenNodes

namespace Node

/-- The token is one of the text, or it ends the text. -/
def TokenOf (ex : Excerpt) (t : Token) : Prop :=
  t ∈ (Token.scan ex).1 ∨ t.kind = .streamEnd

theorem TokenOf.writesText {t : Token} (h : TokenOf ex t) {plain : Bool} {text : String}
    (hkind : t.kind = .scalar plain text) : WritesText ex text := by
  rcases h with h | h
  · exact .inr ⟨t, h, plain, hkind⟩
  · rw [h] at hkind
    cases hkind

theorem TokenOf.writesTag {t : Token} (h : TokenOf ex t) {w : WrittenTag}
    (hkind : t.kind = .tag w) (front : String) : WritesTag ex (front ++ w.suffix) := by
  rcases h with h | h
  · exact ⟨t, h, w, front, hkind, rfl⟩
  · rw [h] at hkind
    cases hkind

/-- What is left are tokens of the text, what stops the reading after them stands in the text, and
the text writes all nodes.  The listed nodes are still to be filled. -/
structure Sound (ex : Excerpt) (waiting : List Nat) (s : Reading) : Prop where
  tokens : ∀ t ∈ s.tokens, t ∈ (Token.scan ex).1
  fault : ∀ e, s.fault = some e → e.StandsIn ex
  nodes : WrittenNodes ex waiting s.nodes

/-- The reader gets from a sound state to a sound state, or it stops for what stands in the text. -/
abbrev Keeps {α : Type} (ex : Excerpt) (waiting : List Nat) (Q : α → Prop) (x : Reader α) : Prop :=
  Maintains (Stop.StandsIn ex) (Sound ex waiting) Q x

section Keeps

variable {α β : Type} {waiting : List Nat} {Q : α → Prop} {R : β → Prop} {x : Reader α}

theorem keeps_problem (p : Problem) (m : Mark) :
    Keeps ex waiting Q (throw (.problem p m) : Reader α) :=
  maintains_throw trivial

theorem keeps_peek : Keeps ex waiting (TokenOf ex) peek := by
  refine maintains_get.bind fun s hs => ?_
  split
  · rename_i t _ htokens
    exact maintains_pure (.inl (hs.tokens t (htokens ▸ List.mem_cons_self)))
  · split
    · rename_i e he
      exact maintains_throw (hs.fault e he)
    · exact maintains_pure (.inr rfl)

theorem keeps_take : Keeps ex waiting (TokenOf ex) take := by
  refine keeps_peek.bind fun t ht => Maintains.bind (maintains_modify ?_) fun _ _ => ?_
  · exact fun s hs => { hs with tokens := fun t ht => hs.tokens t (List.mem_of_mem_tail ht) }
  · exact maintains_pure ht

theorem keeps_peekKind : Keeps ex waiting (fun _ => True) peekKind :=
  keeps_peek.bind fun _ _ => maintains_pure trivial

theorem keeps_add {n : Node} (hn : n.WrittenIn ex) : Keeps ex waiting (fun _ => True) (add n) := by
  refine maintains_get.bind fun _ _ => Maintains.bind (maintains_modify ?_) fun _ _ => ?_
  · exact fun s hs => { hs with nodes := hs.nodes.push hn }
  · exact maintains_pure trivial

/-- A collection is added before it is filled. -/
theorem keeps_add_bind {n : Node} (hn : n.WrittenIn ex) (hscalar : ¬ n.content.IsScalar)
    {f : Nat → Reader β} (hf : ∀ id, Keeps ex (id :: waiting) R (f id)) :
    Keeps ex waiting R (add n >>= f) := by
  intro s hs
  have hnodes := hs.nodes.push hn
  have hadded : Sound ex (s.nodes.size :: waiting) { s with nodes := s.nodes.push n } :=
    { hs with
      nodes := ⟨hnodes.written, List.forall_mem_cons.2
        ⟨⟨n, Array.getElem?_push_size, hscalar⟩, hnodes.collection⟩⟩ }
  -- once `f` has run, the node is filled and no longer waits
  exact (hf _ _ hadded).mono fun r hr => ⟨hr.1, { hr.2 with nodes := hr.2.nodes.of_cons }⟩

theorem keeps_fill {id : Nat} (hid : id ∈ waiting) {content : Content} (hc : ¬ content.IsScalar) :
    Keeps ex waiting (fun _ => True) (fill id content) :=
  maintains_modify fun _ hs => { hs with nodes := hs.nodes.fill hid hc }

theorem keeps_bind (anchor : Option String) (id : Nat) :
    Keeps ex waiting (fun _ => True) (bind anchor id) := by
  cases anchor with
  | none => exact maintains_pure trivial
  | some name => exact maintains_modify fun _ hs => { hs with }

theorem keeps_checkAnchor (anchor : Option String) (m : Mark) :
    Keeps ex waiting (fun _ => True) (checkAnchor anchor m) := by
  unfold checkAnchor
  split
  · exact maintains_pure trivial
  · exact maintains_get.bind fun s _ => .ite (keeps_problem _ _) (maintains_pure trivial)

/-! ## Tags -/

/-- The tag of a node in front of a reader is written by a token. -/
def Properties.Written (ex : Excerpt) (props : Properties) : Prop :=
  ∀ w m, props.tag = some (w, m) → ∀ front, WritesTag ex (front ++ w.suffix)

theorem keeps_readProperties : Keeps ex waiting (Properties.Written ex) readProperties := by
  refine keeps_peek.bind fun t ht => ?_
  split
  · refine keeps_take.bind fun _ _ => keeps_peek.bind fun t' ht' => ?_
    split
    · refine keeps_take.bind fun _ _ => maintains_pure fun w m h => ?_
      cases h
      exact ht'.writesTag rfl
    · exact maintains_pure (fun w m h => by cases h)
  · rename_i w htag
    refine keeps_take.bind fun _ _ => keeps_peek.bind fun t' _ => ?_
    have hwritten : ∀ anchor, (⟨anchor, some (w, t.start), some t.start⟩ : Properties).Written ex := by
      intro anchor w' m h
      cases h
      exact ht.writesTag htag
    split
    · exact keeps_take.bind fun _ _ => maintains_pure (hwritten _)
    · exact maintains_pure (hwritten _)
  · exact maintains_pure (fun w m h => by cases h)

theorem writesTag_none (ex : Excerpt) (t : String) (h : none = some t) : WritesTag ex t := by
  cases h

theorem keeps_fullTag? {props : Properties} (h : props.Written ex) :
    Keeps ex waiting (fun tag => ∀ t, tag = some t → WritesTag ex t) (fullTag? props.tag) := by
  unfold fullTag?
  split
  · exact maintains_pure (writesTag_none ex)
  · rename_i w m htag
    have hwritten := h w m htag
    split
    · refine maintains_pure fun t ht => ?_
      cases ht
      have hsuffix := hwritten ""
      rwa [String.empty_append] at hsuffix
    · refine maintains_get.bind fun s _ => ?_
      split
      · refine maintains_pure fun t ht => ?_
        cases ht
        exact hwritten _
      · exact keeps_problem _ _

variable {tag : Option String}

/-- The text writes a collection with its tag or without. -/
theorem writtenIn_collection (htag : ∀ t, tag = some t → WritesTag ex t) {usual : String}
    (husual : usual = Tag.seq ∨ usual = Tag.map) {content : Content} (hc : ¬ content.IsScalar)
    (m : Mark) : (⟨collectionTag tag usual, content, m⟩ : Node).WrittenIn ex where
  text text htext := absurd ⟨text, htext⟩ hc
  tag := by
    cases tag with
    | none => exact .collection husual
    | some t =>
      by_cases ht : t = "!"
      · exact .collection (by rwa [collectionTag, if_pos ht])
      · exact .token (by rw [collectionTag, if_neg ht]; exact htag t rfl)

/-- The text writes a scalar with its tag or without. -/
theorem writtenIn_scalar (htag : ∀ t, tag = some t → WritesTag ex t) (plain : Bool) {text : String}
    (htext : WritesText ex text) (m : Mark) :
    (⟨scalarTag tag plain text, .scalar text, m⟩ : Node).WrittenIn ex where
  text text' h := by
    cases h
    exact htext
  tag := by
    cases tag with
    | none =>
      cases plain with
      | true => exact .form rfl rfl
      | false => exact .text rfl
    | some t =>
      by_cases ht : t = "!"
      · exact .form rfl (by rw [scalarTag, if_pos ht])
      · exact .token (by rw [scalarTag, if_neg ht]; exact htag t rfl)

theorem keeps_addEmpty (m : Mark) : Keeps ex waiting (fun _ => True) (addEmpty m) :=
  keeps_add (writtenIn_scalar (writesTag_none ex) true (.inl rfl) m)

/-! ## Nodes -/

/-- Every part of a document is kept to when it is read with the given fuel. -/
structure KeepsAll (ex : Excerpt) (fuel : Nat) : Prop where
  node : ∀ waiting ctx, Keeps ex waiting (fun _ => True) (readNode fuel ctx)
  part : ∀ waiting ends ctx m, Keeps ex waiting (fun _ => True) (readPart fuel ends ctx m)
  value : ∀ waiting ends ctx, Keeps ex waiting (fun _ => True) (readValue fuel ends ctx)
  blockItems : ∀ waiting, Keeps ex waiting (fun _ => True) (readBlockItems fuel)
  indentless : ∀ waiting, Keeps ex waiting (fun _ => True) (readIndentless fuel)
  blockEntries : ∀ waiting, Keeps ex waiting (fun _ => True) (readBlockEntries fuel)
  flowItems : ∀ waiting first, Keeps ex waiting (fun _ => True) (readFlowItems fuel first)
  flowEntries : ∀ waiting first, Keeps ex waiting (fun _ => True) (readFlowEntries fuel first)

theorem keeps_peek_problem (p : Problem) :
    Keeps ex waiting Q (do throw (.problem p (← peek).start) : Reader α) :=
  keeps_peek.bind fun _ _ => keeps_problem _ _

theorem keepsAll_zero : KeepsAll ex 0 where
  node _ _ := keeps_peek_problem _
  part _ _ _ _ := keeps_problem _ _
  value _ _ _ := keeps_peek_problem _
  blockItems _ := keeps_peek_problem _
  indentless _ := keeps_peek_problem _
  blockEntries _ := keeps_peek_problem _
  flowItems _ _ := keeps_peek_problem _
  flowEntries _ _ := keeps_peek_problem _

theorem not_isScalar_sequence (items : List Nat) : ¬ (Content.sequence items).IsScalar := by
  rintro ⟨text, h⟩
  cases h

theorem not_isScalar_mapping (entries : List (Nat × Nat)) :
    ¬ (Content.mapping entries).IsScalar := by
  rintro ⟨text, h⟩
  cases h

/-- A collection is read behind its tag and anchor. -/
theorem keeps_collection (htag : ∀ t, tag = some t → WritesTag ex t) {usual : String}
    (husual : usual = Tag.seq ∨ usual = Tag.map) (anchor : Option String) (m : Mark)
    {read : Reader Content} (hread : ∀ waiting, Keeps ex waiting (fun c => ¬ c.IsScalar) read) :
    Keeps ex waiting (fun _ => True) (do
      checkAnchor anchor m
      let id ← add ⟨collectionTag tag usual, .sequence [], m⟩
      bind anchor id
      fill id (← read)
      return id) := by
  refine (keeps_checkAnchor anchor m).bind fun _ _ => ?_
  have hn := writtenIn_collection htag husual (not_isScalar_sequence []) m
  refine keeps_add_bind hn (not_isScalar_sequence []) fun id => ?_
  refine (keeps_bind anchor id).bind fun _ _ => (hread _).bind fun c hc => ?_
  exact (keeps_fill List.mem_cons_self hc).bind fun _ _ => maintains_pure trivial

/-- A scalar is added behind its tag and anchor. -/
theorem keeps_scalar (htag : ∀ t, tag = some t → WritesTag ex t) (plain : Bool) {text : String}
    (htext : WritesText ex text) (anchor : Option String) (m : Mark) :
    Keeps ex waiting (fun _ => True) (do
      checkAnchor anchor m
      let id ← add ⟨scalarTag tag plain text, .scalar text, m⟩
      bind anchor id
      return id) := by
  refine (keeps_checkAnchor anchor m).bind fun _ _ => ?_
  refine (keeps_add (writtenIn_scalar htag plain htext m)).bind fun id _ => ?_
  exact (keeps_bind anchor id).bind fun _ _ => maintains_pure trivial

/-- A problem stops the reader before what is read next. -/
theorem keeps_check {c : Prop} [Decidable c] {p : Problem} {m : Mark} (h : Keeps ex waiting Q x) :
    Keeps ex waiting Q (do
      if c then throw (.problem p m)
      x) :=
  .ite (fun _ _ => trivial) h

/-- A comma stands between the parts of a collection within brackets. -/
theorem keeps_comma (first : Bool) (h : Keeps ex waiting Q x) :
    Keeps ex waiting Q (do
      if !first then
        let t ← take
        if t.kind ≠ .flowEntry then throw (.problem .noFlowEnd t.start)
      x) :=
  .ite (keeps_take.bind fun _ _ => keeps_check h) h

theorem keepsAll_succ {fuel : Nat} (ih : KeepsAll ex fuel) : KeepsAll ex (fuel + 1) where
  node waiting ctx := by
    unfold readNode
    refine keeps_peek.bind fun first _ => ?_
    split
    · refine keeps_take.bind fun _ _ => maintains_get.bind fun s _ => ?_
      split
      · exact maintains_pure trivial
      · exact keeps_problem _ _
    · refine keeps_readProperties.bind fun props hprops => ?_
      refine (keeps_fullTag? hprops).bind fun tag htag => keeps_peek.bind fun t ht => ?_
      dsimp only
      split
      · exact keeps_collection htag (.inl rfl) _ _ fun _ =>
          (ih.indentless _).bind fun _ _ => maintains_pure (not_isScalar_sequence _)
      · rename_i plain text hkind
        exact keeps_take.bind fun _ _ => keeps_scalar htag plain (ht.writesText hkind) _ _
      · exact keeps_collection htag (.inl rfl) _ _ fun _ => keeps_take.bind fun _ _ =>
          (ih.flowItems _ _).bind fun _ _ => maintains_pure (not_isScalar_sequence _)
      · exact keeps_collection htag (.inr rfl) _ _ fun _ => keeps_take.bind fun _ _ =>
          (ih.flowEntries _ _).bind fun _ _ => maintains_pure (not_isScalar_mapping _)
      · exact keeps_collection htag (.inl rfl) _ _ fun _ => keeps_take.bind fun _ _ =>
          (ih.blockItems _).bind fun _ _ => maintains_pure (not_isScalar_sequence _)
      · exact keeps_collection htag (.inr rfl) _ _ fun _ => keeps_take.bind fun _ _ =>
          (ih.blockEntries _).bind fun _ _ => maintains_pure (not_isScalar_mapping _)
      · exact .ite (keeps_problem _ _) (keeps_scalar htag _ (.inl rfl) _ _)
  part waiting ends ctx m := by
    unfold readPart
    refine keeps_peekKind.bind fun kind _ => ?_
    exact .ite (keeps_addEmpty _) (ih.node _ _)
  value waiting ends ctx := by
    unfold readValue
    refine keeps_peek.bind fun t _ => ?_
    split
    · exact keeps_take.bind fun _ _ => ih.part _ _ _ _
    · exact keeps_addEmpty _
  blockItems waiting := by
    unfold readBlockItems
    refine keeps_take.bind fun t _ => ?_
    split
    · refine (ih.part _ _ _ _).bind fun _ _ => (ih.blockItems _).bind fun _ _ => ?_
      exact maintains_pure trivial
    · exact maintains_pure trivial
    · exact keeps_problem _ _
  indentless waiting := by
    unfold readIndentless
    refine keeps_peek.bind fun t _ => ?_
    split
    · refine keeps_take.bind fun _ _ => (ih.part _ _ _ _).bind fun _ _ => ?_
      exact (ih.indentless _).bind fun _ _ => maintains_pure trivial
    · exact maintains_pure trivial
  blockEntries waiting := by
    unfold readBlockEntries
    refine keeps_take.bind fun t _ => ?_
    split
    · refine (ih.part _ _ _ _).bind fun _ _ => (ih.value _ _ _).bind fun _ _ => ?_
      exact (ih.blockEntries _).bind fun _ _ => maintains_pure trivial
    · exact maintains_pure trivial
    · exact keeps_problem _ _
  flowItems waiting first := by
    unfold readFlowItems
    refine keeps_peekKind.bind fun _ _ => .ite (keeps_take.bind fun _ _ => maintains_pure trivial) ?_
    refine keeps_comma first (keeps_peek.bind fun t _ => ?_)
    split
    -- a single entry in a list is a mapping of its own
    · have hempty := not_isScalar_mapping []
      have hn := writtenIn_collection (writesTag_none ex) (.inr rfl) hempty t.start
      refine keeps_add_bind hn hempty fun id => keeps_take.bind fun _ _ => ?_
      refine (ih.part _ _ _ _).bind fun k _ => (ih.value _ _ _).bind fun v _ => ?_
      refine (keeps_fill List.mem_cons_self (not_isScalar_mapping _)).bind fun _ _ => ?_
      exact (ih.flowItems _ _).bind fun _ _ => maintains_pure trivial
    · exact keeps_take.bind fun _ _ => maintains_pure trivial
    · exact (ih.node _ _).bind fun _ _ => (ih.flowItems _ _).bind fun _ _ => maintains_pure trivial
  flowEntries waiting first := by
    unfold readFlowEntries
    refine keeps_peekKind.bind fun _ _ => .ite (keeps_take.bind fun _ _ => maintains_pure trivial) ?_
    refine keeps_comma first (keeps_peek.bind fun t _ => ?_)
    split
    · refine keeps_take.bind fun _ _ => (ih.part _ _ _ _).bind fun k _ => ?_
      refine (ih.value _ _ _).bind fun v _ => (ih.flowEntries _ _).bind fun _ _ => ?_
      exact maintains_pure trivial
    · exact keeps_take.bind fun _ _ => maintains_pure trivial
    · refine (ih.node _ _).bind fun k _ => keeps_peek.bind fun t _ => ?_
      refine (keeps_addEmpty _).bind fun v _ => (ih.flowEntries _ _).bind fun _ _ => ?_
      exact maintains_pure trivial

theorem keepsAll (ex : Excerpt) (fuel : Nat) : KeepsAll ex fuel := by
  induction fuel with
  | zero => exact keepsAll_zero
  | succ fuel ih => exact keepsAll_succ ih

/-! ## Documents -/

theorem keeps_readDirectives (fuel : Nat) (versioned : Bool) (handles : List (String × String)) :
    Keeps ex waiting (fun _ => True) (readDirectives fuel versioned handles) := by
  induction fuel generalizing versioned handles with
  | zero => exact maintains_pure trivial
  | succ fuel ih =>
    rw [readDirectives]
    refine keeps_peek.bind fun t _ => ?_
    split
    · refine keeps_take.bind fun _ _ => ?_
      split
      · exact keeps_check (keeps_check (ih _ _))
      · exact keeps_check (ih _ _)
      · exact ih _ _
    · exact maintains_pure trivial

theorem keeps_skipDocumentEnds (fuel : Nat) :
    Keeps ex waiting (fun _ => True) (skipDocumentEnds fuel) := by
  induction fuel with
  | zero => exact maintains_pure trivial
  | succ fuel ih =>
    rw [skipDocumentEnds]
    refine keeps_peekKind.bind fun _ _ => .ite ?_ (maintains_pure trivial)
    exact keeps_take.bind fun _ _ => ih

theorem keeps_readDocumentStart (fuel : Nat) :
    Keeps ex waiting (fun _ => True) (readDocumentStart fuel) := by
  unfold readDocumentStart
  refine (keeps_skipDocumentEnds fuel).bind fun _ _ => keeps_peek.bind fun first _ => ?_
  refine .ite (maintains_pure trivial) ?_
  refine (keeps_readDirectives _ _ _).bind fun handles _ => ?_
  refine Maintains.bind (maintains_modify ?_) fun _ _ => ?_
  · exact fun s hs => { hs with }
  · refine keeps_peek.bind fun t _ => keeps_check ?_
    exact keeps_take.bind fun _ _ => maintains_pure trivial

theorem keeps_readContent (fuel : Nat) :
    Keeps ex waiting (fun _ => True) (readContent fuel) := by
  have hnode := (keepsAll ex fuel).node waiting block
  unfold readContent
  refine keeps_peekKind.bind fun _ _ => ?_
  split
  -- a document that starts without a mark; the other three start with one
  case h_4 =>
    refine Maintains.bind (maintains_modify ?_) fun _ _ => ?_
    · exact fun s hs => { hs with }
    · exact hnode.bind fun _ _ => maintains_pure trivial
  all_goals
    refine (keeps_readDocumentStart fuel).bind fun m _ => ?_
    split
    · exact maintains_pure trivial
    · refine keeps_peek.bind fun t _ => .ite ?_ (hnode.bind fun _ _ => maintains_pure trivial)
      exact (keeps_addEmpty _).bind fun _ _ => maintains_pure trivial

/-- The text writes all nodes of its document. -/
theorem keeps_readDocument (fuel : Nat) :
    Keeps ex waiting (fun d => ∀ d', d = some d' → ∀ n ∈ d'.nodes, n.WrittenIn ex)
      (readDocument fuel) := by
  unfold readDocument
  refine (keeps_readContent fuel).bind fun root _ => ?_
  split
  · exact maintains_pure (fun d h => by cases h)
  · refine keeps_peekKind.bind fun _ _ => .ite (keeps_take.bind fun _ _ => ?_) ?_
    all_goals
      refine (keeps_readDocumentStart fuel).bind fun m _ => ?_
      split
      · refine maintains_get.bind fun s hs => maintains_pure fun d hd => ?_
        cases hd
        exact hs.nodes.written
      · exact keeps_problem _ _

end Keeps

end Node

/-- A text has no document, or it writes all nodes of its document, or the reading stops for what
stands in it. -/
theorem ends_ofExcerpt? (ex : Excerpt) : Ends (Stop.StandsIn ex)
    (fun d => ∀ d', d = some d' → ∀ n ∈ d'.nodes, n.WrittenIn ex) (Document.ofExcerpt? ex) := by
  have hstart : Node.Sound ex [] ⟨(Token.scan ex).1, (Token.scan ex).2, #[], [], []⟩ := {
    tokens := fun _ ht => ht
    fault := fun e he => standsIn_of_scan (Prod.ext rfl he)
    nodes := ⟨by simp, by simp⟩ }
  exact (Node.keeps_readDocument (4 * (Token.scan ex).1.length + 8) _ hstart).map fun r hr => hr.1

end LayeredConfig.Yaml
