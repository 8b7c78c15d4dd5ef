import LayeredConfig.Proofs.Path.Codec
import Mathlib.Data.Char
import Mathlib.Data.List.Lex

/-!
# Trees in the order of their paths

Leaves that are written in the order of their paths make up a tree whose entries are in
that order too, but the order of the paths is not that of the keys.  The paths below a
key go on with a point, so among the keys of a mapping one that holds entries counts as
if a point came after it, and a key that goes on with a character below the point comes
before it.

* `Tree.Arranged` — how the entries of a mapping are related, on every chain of mappings.
* `Tree.lead` — what the paths of a key's leaves begin with.
* `Tree.arrangedEntries_writeAll` — leaves in order make up a tree in order.
* `Tree.lead_lt_lead_iff`, `Tree.arrangedEntries_text_iff` — how far that is the order of the keys.
-/

namespace LayeredConfig

namespace Path

/-! ## Texts that go on -/

/-- Two different texts without points stand in the order in which any two texts stand that go on
from them with a point, if they go on. -/
theorem append_lt_append_iff_take {a b x y : List Char} (ha : '.' ∉ a) (hb : '.' ∉ b)
    (hab : a ≠ b) (hx : x = [] ∨ ∃ r, x = '.' :: r) (hy : y = [] ∨ ∃ r, y = '.' :: r) :
    a ++ x < b ++ y ↔ a ++ x.take 1 < b ++ y.take 1 := by
  induction a generalizing b with
  | nil =>
    cases b with
    | nil => exact absurd rfl hab
    | cons d b =>
      have hd : ('.' : Char) ≠ d := fun h => hb (h ▸ List.mem_cons_self)
      rcases hx with rfl | ⟨r, rfl⟩
      · simp
      · simp [List.cons_lt_cons_iff, hd]
  | cons c a ih =>
    have hc : c ≠ '.' := fun h => ha (h ▸ List.mem_cons_self)
    cases b with
    | nil =>
      rcases hy with rfl | ⟨r, rfl⟩
      · simp
      · simp [List.cons_lt_cons_iff, hc]
    | cons d b =>
      simp only [List.cons_append, List.cons_lt_cons_iff]
      refine or_congr_right (and_congr_right fun hcd => ?_)
      exact ih (fun h => ha (List.mem_cons_of_mem _ h)) (fun h => hb (List.mem_cons_of_mem _ h))
        (fun h => hab (by rw [hcd, h]))

theorem notMem_of_isPart {s : String} (hs : IsPart s) : '.' ∉ s.toList :=
  fun h => absurd (hs '.' h) (by decide)

/-- The characters of segments with points before them. -/
def pointed (segments : List String) : List Char :=
  segments.flatMap fun s => '.' :: s.toList

/-- The characters of segments with points between them. -/
def joined : List String → List Char
  | [] => []
  | s :: ss => s.toList ++ pointed ss

theorem joined_cons_cons (s s' : String) (ss : List String) :
    joined (s :: s' :: ss) = s.toList ++ '.' :: joined (s' :: ss) := by
  simp [joined, pointed]

theorem pointed_eq (ss : List String) : pointed ss = [] ∨ ∃ r, pointed ss = '.' :: r := by
  cases ss with
  | nil => exact Or.inl rfl
  | cons s ss => exact Or.inr ⟨_, rfl⟩

/-- Below a common key paths stand in the order of what follows. -/
theorem joined_cons_lt_cons_iff {s : String} {p q : List String} (hp : p ≠ []) (hq : q ≠ []) :
    joined (s :: p) < joined (s :: q) ↔ joined p < joined q := by
  obtain ⟨s', p, rfl⟩ := List.exists_cons_of_ne_nil hp
  obtain ⟨t', q, rfl⟩ := List.exists_cons_of_ne_nil hq
  rw [joined_cons_cons, joined_cons_cons]
  induction s.toList with
  | nil => simp
  | cons c cs ih => simp [ih]

end Path

namespace Tree

variable {α : Type}

/-! ## Arranged trees -/

mutual

/-- On every chain of mappings, each entry of a mapping is related to all that come after it. -/
def Arranged (R : Key × Tree α → Key × Tree α → Prop) : Tree α → Prop
  | map _ es => ArrangedEntries R es
  | _ => True

/-- `Arranged` for the entries of a mapping. -/
def ArrangedEntries (R : Key × Tree α → Key × Tree α → Prop) : List (Key × Tree α) → Prop
  | [] => True
  | (k, v) :: es => (∀ e ∈ es, R (k, v) e) ∧ Arranged R v ∧ ArrangedEntries R es

end

variable {R : Key × Tree α → Key × Tree α → Prop}

theorem arrangedEntries_iff {es : List (Key × Tree α)} :
    ArrangedEntries R es ↔ es.Pairwise R ∧ ∀ e ∈ es, e.2.Arranged R := by
  induction es with
  | nil => simp [ArrangedEntries]
  | cons e es ih =>
    obtain ⟨k, v⟩ := e
    rw [ArrangedEntries, ih, List.pairwise_cons, List.forall_mem_cons]
    tauto

theorem arranged_of_isLeaf {v : Tree α} (h : v.IsLeaf) : v.Arranged R := by
  cases v with
  | map t es =>
    cases es with
    | nil => trivial
    | cons e es => exact absurd rfl (h t e es)
  | _ => trivial

/-! ## What paths begin with -/

/-- What the paths of a key's leaves begin with: the key, and a point if it holds entries. -/
def lead : Key × Tree α → String
  | (k, map _ (_ :: _)) => k.text ++ "."
  | (k, _) => k.text

theorem toList_lead (k : Key) (v : Tree α) [Decidable (¬ v.IsLeaf)] :
    (lead (k, v)).toList = k.text.toList ++ if ¬ v.IsLeaf then ['.'] else [] := by
  rcases v.isLeaf_or_exists with h | ⟨t, e, es, rfl⟩
  · have hlead : lead (k, v) = k.text := by
      unfold lead
      split
      · rename_i heq
        cases heq
        exact absurd rfl (h _ _ _)
      · rename_i heq
        cases heq
        rfl
    rw [hlead, if_neg (not_not_intro h), List.append_nil]
  · rw [if_pos fun h => h t e es rfl, lead, String.toList_append]
    rfl

/-- The way to a leaf goes on with a point if entries are held. -/
theorem take_pointed_of_mem_branches {v : Tree α} [Decidable (¬ v.IsLeaf)]
    {b : List String × Tree α} (hb : b ∈ branches v) :
    (Path.pointed b.1).take 1 = if ¬ v.IsLeaf then ['.'] else [] := by
  rcases v.isLeaf_or_exists with h | ⟨t, e, es, rfl⟩
  · rw [branches_of_isLeaf h, List.mem_singleton] at hb
    rw [hb, if_neg (not_not_intro h)]
    rfl
  · obtain ⟨l, -, rest, hrest⟩ := exists_key_of_mem_entryBranches hb
    rw [hrest, if_pos fun h => h t e es rfl]
    rfl

/-- Different keys lead in the order in which the paths stand that begin with them. -/
theorem lead_lt_lead_iff_joined {s t : String} (hs : Path.IsPart s) (ht : Path.IsPart t)
    (hne : s ≠ t) {v w : Tree α} {b c : List String × Tree α} (hb : b ∈ branches v)
    (hc : c ∈ branches w) :
    lead (.str s, v) < lead (.str t, w) ↔ Path.joined (s :: b.1) < Path.joined (t :: c.1) := by
  classical
  have hlist : s.toList ≠ t.toList := fun h => hne (String.toList_inj.1 h)
  rw [String.lt_iff, toList_lead, toList_lead, ← take_pointed_of_mem_branches hb,
    ← take_pointed_of_mem_branches hc]
  exact (Path.append_lt_append_iff_take (Path.notMem_of_isPart hs) (Path.notMem_of_isPart ht) hlist
    (Path.pointed_eq b.1) (Path.pointed_eq c.1)).symm

/-! ## Leaves written in order -/

/-- The entries stand in the order of the paths below them. -/
abbrev InPathOrder (es : List (Key × Tree α)) : Prop :=
  ArrangedEntries (fun e f => lead e < lead f) es

theorem inPathOrder_iff {es : List (Key × Tree α)} :
    InPathOrder es ↔ (es.map lead).Pairwise (· < ·) ∧
      ∀ e ∈ es, e.2.Arranged fun e f => lead e < lead f := by
  rw [InPathOrder, arrangedEntries_iff, List.pairwise_map]

section Written

variable [Inhabited α]

/-- What is written below a new key has the written leaf alone. -/
theorem mem_branches_writeBelow_none {v : Tree α} (hv : v.IsLeaf) (ss : List String) :
    (ss, v) ∈ branches (writeBelow v ss none) := by
  cases ss with
  | nil =>
    rw [writeBelow, branches_of_isLeaf hv]
    exact List.mem_singleton_self _
  | cons s ss =>
    have hnone : ∀ b ∈ entryBranches ([] : List (Key × Tree α)), Path.Apart b.1 (s :: ss) :=
      fun b hb => absurd hb List.not_mem_nil
    have hone := entryBranches_writeEntries hv (List.cons_ne_nil s ss) hnone
    show (s :: ss, v) ∈ branches (map default (writeEntries v (s :: ss) []))
    rw [branches_map_of_ne_nil (writeEntries_ne_nil (List.cons_ne_nil s ss) [])]
    exact hone.mem_iff.2 List.mem_cons_self

/-- A leaf whose path comes after all others leaves entries in the order of their paths. -/
theorem inPathOrder_writeEntries {v : Tree α} (hv : v.IsLeaf) {segments : List String}
    (hs : ∀ s ∈ segments, Path.IsPart s) {es : List (Key × Tree α)}
    (hes : NamedEntries Path.IsPart es) (horder : InPathOrder es)
    (hapart : ∀ b ∈ entryBranches es, Path.Apart b.1 segments)
    (hafter : ∀ b ∈ entryBranches es, Path.joined b.1 < Path.joined segments) :
    InPathOrder (writeEntries v segments es) := by
  induction segments generalizing es with
  | nil => exact horder
  | cons s ss ih =>
    obtain ⟨hsegment, hrest⟩ := List.forall_mem_cons.1 hs
    rw [writeEntries_cons]
    cases hfind : Entries.find? (.str s) es with
    | none =>
      rw [Entries.insert_of_find?_eq_none hfind, inPathOrder_iff, List.map_append,
        List.pairwise_append, List.forall_mem_append]
      obtain ⟨hleads, hvalues⟩ := inPathOrder_iff.1 horder
      refine ⟨⟨hleads, List.pairwise_singleton _ _, ?_⟩, hvalues, ?_⟩
      · -- a new key comes last, as its path does
        simp only [List.forall_mem_map, List.forall_mem_singleton, List.map_cons, List.map_nil]
        rintro ⟨k, w⟩ he
        obtain ⟨t, rfl, ht⟩ := exists_of_mem_keys hes (List.mem_map_of_mem he)
        obtain ⟨b, hb⟩ := List.exists_mem_of_ne_nil _ (branches_ne_nil w)
        have hne : t ≠ s := by
          rintro rfl
          exact notMem_of_find?_eq_none hfind (List.mem_map_of_mem he)
        exact (lead_lt_lead_iff_joined ht hsegment hne hb (mem_branches_writeBelow_none hv ss)).2
          (hafter _ (mem_entryBranches he hb))
      · rw [List.forall_mem_singleton]
        cases ss with
        | nil => exact arranged_of_isLeaf hv
        | cons s' ss =>
          have hnew : InPathOrder (writeEntries v (s' :: ss) []) :=
            ih hrest trivial trivial nofun nofun
          exact hnew
    | some u =>
      obtain ⟨t, e, sub, rfl, hbelow⟩ := exists_map_of_apart hfind hapart
      obtain ⟨front, back, rfl, hinsert⟩ := Entries.exists_append_of_find? hfind
      have hss : ss ≠ [] := ne_nil_of_apart hbelow
      have hlater : ∀ b ∈ entryBranches (e :: sub), Path.joined b.1 < Path.joined ss := by
        intro b hb
        obtain ⟨k, -, rest, hb'⟩ := exists_key_of_mem_entryBranches hb
        exact (Path.joined_cons_lt_cons_iff (by simp [hb']) hss).1
          (hafter _ (mem_entryBranches (mem_of_find? hfind) hb))
      obtain ⟨hleads, hvalues⟩ := inPathOrder_iff.1 horder
      rw [List.forall_mem_append, List.forall_mem_cons] at hvalues
      obtain ⟨hfront, hheld, hback⟩ := hvalues
      have hwritten : InPathOrder (writeEntries v ss (e :: sub)) :=
        ih hrest (named_of_find? hes hfind) hheld hbelow hlater
      obtain ⟨e', sub', hsub'⟩ := List.exists_cons_of_ne_nil (writeEntries_ne_nil hss (e :: sub))
      have hbelow' : writeBelow v ss (some (map t (e :: sub))) =
          map t (writeEntries v ss (e :: sub)) := by
        obtain ⟨s', ss, rfl⟩ := List.exists_cons_of_ne_nil hss
        rfl
      rw [hinsert, inPathOrder_iff, List.forall_mem_append, List.forall_mem_cons, hbelow']
      refine ⟨?_, hfront, hwritten, hback⟩
      -- the key holds entries as before, so nothing changes in what the paths begin with
      rw [hsub']
      rwa [List.map_append, List.map_cons] at hleads ⊢

/-- Leaves that are written in the order of their paths, apart from each other, make up a tree whose
entries are in that order. -/
theorem inPathOrder_writeAll {leaves : List (List String × Tree α)}
    (hleaf : ∀ leaf ∈ leaves, leaf.2.IsLeaf)
    (hs : ∀ leaf ∈ leaves, leaf.1 ≠ [] ∧ ∀ s ∈ leaf.1, Path.IsPart s)
    (horder : leaves.Pairwise fun a b =>
      Path.Apart a.1 b.1 ∧ Path.joined a.1 < Path.joined b.1)
    {es : List (Key × Tree α)} (hes : NamedEntries Path.IsPart es) (hheld : InPathOrder es)
    (hlater : ∀ b ∈ entryBranches es, ∀ leaf ∈ leaves,
      Path.Apart b.1 leaf.1 ∧ Path.joined b.1 < Path.joined leaf.1) :
    NamedEntries Path.IsPart (writeAll leaves es) ∧ InPathOrder (writeAll leaves es) := by
  induction leaves generalizing es with
  | nil => exact ⟨hes, hheld⟩
  | cons leaf leaves ih =>
    obtain ⟨hfirst, hrest⟩ := List.forall_mem_cons.1 hleaf
    obtain ⟨⟨hne, hparts⟩, hsegments⟩ := List.forall_mem_cons.1 hs
    obtain ⟨hthen, horder⟩ := List.pairwise_cons.1 horder
    have hbefore : ∀ b ∈ entryBranches es, Path.Apart b.1 leaf.1 ∧
        Path.joined b.1 < Path.joined leaf.1 := fun b hb => hlater b hb leaf List.mem_cons_self
    have hone : (entryBranches (writeEntries leaf.2 leaf.1 es)).Perm (leaf :: entryBranches es) :=
      entryBranches_writeEntries hfirst hne fun b hb => (hbefore b hb).1
    refine ih hrest hsegments horder
      (namedEntries_writeEntries (named_of_isLeaf hfirst) hparts hes)
      (inPathOrder_writeEntries hfirst hparts hes hheld (fun b hb => (hbefore b hb).1)
        fun b hb => (hbefore b hb).2) fun b hb other hother => ?_
    rcases List.mem_cons.1 (hone.mem_iff.1 hb) with rfl | hb
    · exact hthen other hother
    · exact hlater b hb other (List.mem_cons_of_mem _ hother)

end Written

/-! ## The order of the keys -/

end Tree

/-- Of two different texts without points, each with a point after it or not, the first one comes
before the second if it goes on from the second with a character below a point that stands there, or
if it does so by itself and the second does not go on from it like that. -/
theorem Path.append_ite_lt_iff {a b : List Char} (ha : '.' ∉ a) (hb : '.' ∉ b) (hab : a ≠ b)
    (p q : Prop) [Decidable p] [Decidable q] :
    a ++ (if p then ['.'] else []) < b ++ (if q then ['.'] else []) ↔
      (q ∧ ∃ c cs, c < '.' ∧ a = b ++ c :: cs) ∨
        a < b ∧ ¬ (p ∧ ∃ c cs, c < '.' ∧ b = a ++ c :: cs) := by
  induction a generalizing b with
  | nil =>
    cases b with
    | nil => exact absurd rfl hab
    | cons d b =>
      have hd : ('.' : Char) ≠ d := fun h => hb (h ▸ List.mem_cons_self)
      by_cases hp : p
      · simp [hp, List.cons_lt_cons_iff, hd, hd.le_iff_lt]
      · simp [hp]
  | cons c a ih =>
    have hc : c ≠ '.' := fun h => ha (h ▸ List.mem_cons_self)
    cases b with
    | nil =>
      by_cases hq : q
      · simp [hq, List.cons_lt_cons_iff, hc]
      · simp [hq]
    | cons d b =>
      have hrest := ih (fun h => ha (List.mem_cons_of_mem _ h))
        (b := b) (fun h => hb (List.mem_cons_of_mem _ h))
      simp only [List.cons_append, List.cons_lt_cons_iff, List.cons.injEq]
      rcases lt_trichotomy c d with hcd | rfl | hcd
      · simp [hcd, hcd.ne, hcd.ne']
      · simp only [lt_irrefl, true_and, false_or]
        exact hrest fun h => hab (by rw [h])
      · simp [hcd.ne, hcd.ne', not_lt_of_gt hcd]

namespace Tree

variable {α : Type} {R S T : Key × Tree α → Key × Tree α → Prop}

/-- The first key goes on from the second one, which holds entries, with a character below the
point. -/
def Overtakes (e f : Key × Tree α) : Prop :=
  ¬ f.2.IsLeaf ∧ ∃ c cs, c < '.' ∧ e.1.text.toList = f.1.text.toList ++ c :: cs

/-- A key leads before another one if it overtakes it, or if it comes before it and is not
overtaken. -/
theorem lead_lt_lead_iff {s t : String} (hs : Path.IsPart s) (ht : Path.IsPart t) (hne : s ≠ t)
    (v w : Tree α) :
    lead (.str s, v) < lead (.str t, w) ↔
      Overtakes (.str s, v) (.str t, w) ∨ s < t ∧ ¬ Overtakes (.str t, w) (.str s, v) := by
  classical
  rw [String.lt_iff, toList_lead, toList_lead, String.lt_iff]
  exact Path.append_ite_lt_iff (Path.notMem_of_isPart hs) (Path.notMem_of_isPart ht)
    (fun h => hne (String.toList_inj.1 h)) _ _

mutual

/-- A relation of entries that follows from others between different keys of a mapping holds wherever
these hold. -/
theorem arranged_of_named (h : ∀ {s t : String} {v w : Tree α}, Path.IsPart s → Path.IsPart t →
      s ≠ t → R (.str s, v) (.str t, w) → S (.str s, v) (.str t, w) → T (.str s, v) (.str t, w)) :
    (t : Tree α) → t.Named Path.IsPart → t.Arranged R → t.Arranged S → t.Arranged T
  | map _ es, hnamed, hR, hS => arrangedEntries_of_named h es hnamed hR hS
  | atom _, _, _, _ => trivial
  | list _ _, _, _, _ => trivial
  | tuple _, _, _, _ => trivial
  | set _, _, _, _ => trivial

theorem arrangedEntries_of_named (h : ∀ {s t : String} {v w : Tree α}, Path.IsPart s →
      Path.IsPart t → s ≠ t → R (.str s, v) (.str t, w) → S (.str s, v) (.str t, w) →
        T (.str s, v) (.str t, w)) :
    (es : List (Key × Tree α)) → NamedEntries Path.IsPart es → ArrangedEntries R es →
      ArrangedEntries S es → ArrangedEntries T es
  | [], _, _, _ => trivial
  | (k, v) :: es, ⟨⟨s, hk, hs⟩, hnew, hv, hes⟩, ⟨hR, hRv, hRes⟩, ⟨hS, hSv, hSes⟩ => by
    refine ⟨?_, arranged_of_named h v hv hRv hSv, arrangedEntries_of_named h es hes hRes hSes⟩
    subst hk
    rintro ⟨l, w⟩ he
    have hl := List.mem_map_of_mem (f := (·.1)) he
    obtain ⟨t, rfl, ht⟩ := exists_of_mem_keys hes hl
    exact h hs ht (by rintro rfl; exact hnew hl) (hR _ he) (hS _ he)

end

/-- Entries in the order of the paths below them are in the order of their keys if and only if no
key overtakes one that comes after it. -/
theorem arrangedEntries_text_iff {es : List (Key × Tree α)} (hes : NamedEntries Path.IsPart es)
    (horder : InPathOrder es) :
    ArrangedEntries (fun e f => e.1.text < f.1.text) es ↔
      ArrangedEntries (fun e f => ¬ Overtakes e f) es := by
  constructor
  · refine arrangedEntries_of_named (fun {s t v w} _ _ _ _ hlt => ?_) es hes horder
    -- what goes on from a text comes after it
    rintro ⟨-, c, cs, -, heq⟩
    have hs : s.toList = t.toList ++ c :: cs := heq
    have hback : t.toList ++ [] < t.toList ++ c :: cs :=
      List.append_left_lt (List.nil_lt_cons c cs)
    rw [List.append_nil, ← hs] at hback
    exact lt_asymm (String.lt_iff.1 hlt) hback
  · refine arrangedEntries_of_named (fun {s t v w} hs ht hne hlead hnot => ?_) es hes horder
    exact ((lead_lt_lead_iff hs ht hne v w).1 hlead).resolve_left hnot |>.1

end Tree

end LayeredConfig
