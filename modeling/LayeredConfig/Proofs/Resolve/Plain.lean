import LayeredConfig.Proofs.Path.Branches
import LayeredConfig.Proofs.Path.Settled
import LayeredConfig.Proofs.Resolve.OnePass
import LayeredConfig.Proofs.Resolve.Runs
import LayeredConfig.Proofs.Value.Marks
import LayeredConfig.Layer.Merge

/-!
# Resolving what is settled

A value without placeholders is its own result, but for rows, which become lists:
no text in it is taken for a literal, and nothing is looked up or called.  So a
definition without placeholders has a copy of itself for its tree, however many
passes are allowed, if the paths of its leaves lead back to its keys.

* `resolveWith_of_settled` — a settled value is only copied.
* `Resolver.resolveLeaves_of_settled` — settled leaves are written as they are.
* `Resolver.resolveTree_of_settled` — a settled definition is its own tree.
-/

namespace LayeredConfig

/-! ## Values -/

section Values

variable {m : Type → Type} {α : Type} [Monad m] [LawfulMonad m] [Inhabited α]
  {text : String → m (Tree α)}

mutual

/-- A settled value is only copied, if texts without placeholders are left alone. -/
theorem resolveWith_of_settled
    (htext : ∀ s, Template.hasPlaceholder s.toList = false → text s = pure (.str s)) :
    (v : Value) → v.Settled → resolveWith text v = pure (v.copy.mapTag fun _ => default)
  | .atom a, h => by
    cases a with
    | str s => exact htext s (Tree.settled_str_iff.1 h)
    | _ => rfl
  | .list _ items, h => by
    have hitems := resolveItems_of_settled htext items (Tree.settled_list_iff.1 h)
    rw [resolveWith, hitems, pure_bind]
    rfl
  | .tuple items, h => by
    have hitems := resolveItems_of_settled htext items (Tree.settled_tuple_iff.1 h)
    rw [resolveWith, hitems, pure_bind]
    rfl
  | .map _ es, h => by
    have hes := resolveEntries_of_settled htext es (Tree.settled_map_iff.1 h)
    rw [resolveWith, hes, pure_bind]
    rfl
  | .set _, _ => rfl

theorem resolveItems_of_settled
    (htext : ∀ s, Template.hasPlaceholder s.toList = false → text s = pure (.str s)) :
    (items : List Value) → (∀ x ∈ items, x.Settled) → resolveItems text items =
      pure (Tree.mapTagItems (fun _ => default) (Tree.copyItems items))
  | [], _ => rfl
  | x :: xs, h => by
    obtain ⟨hx, hxs⟩ := List.forall_mem_cons.1 h
    rw [resolveItems, resolveWith_of_settled htext x hx, pure_bind,
      resolveItems_of_settled htext xs hxs, pure_bind]
    rfl

theorem resolveEntries_of_settled
    (htext : ∀ s, Template.hasPlaceholder s.toList = false → text s = pure (.str s)) :
    (es : List (Key × Value)) → (∀ e ∈ es, e.2.Settled) → resolveEntries text es =
      pure (Tree.mapTagEntries (fun _ => default) (Tree.copyEntries es))
  | [], _ => rfl
  | (k, v) :: es, h => by
    obtain ⟨hv, hes⟩ := List.forall_mem_cons.1 h
    rw [resolveEntries, resolveWith_of_settled htext v hv, pure_bind,
      resolveEntries_of_settled htext es hes, pure_bind]
    rfl

end

/-- An engine gives a settled value back as a copy, however many passes are left. -/
theorem Engine.resolve_of_settled {φ : Type} [MonadExcept (ResolveError φ) m] (e : Engine m α)
    (left : Nat) {v : Value} (h : v.Settled) :
    e.resolve left v = pure (v.copy.mapTag fun _ => default) :=
  resolveWith_of_settled (fun _ hs => e.resolveText_of_not_hasPlaceholder hs left) v h

end Values

/-! ## Copies -/

namespace Tree

mutual

/-- Copying the leaves of a plain tree copies the tree. -/
theorem graft_copy : (v : Value) → graft copy v = v.copy
  | map _ [] => rfl
  | map _ (e :: es) => congrArg (map ()) (graftEntries_copy (e :: es))
  | atom _ => rfl
  | list _ _ => rfl
  | tuple _ => rfl
  | set _ => rfl

theorem graftEntries_copy : (es : List (Key × Value)) → graftEntries copy es = copyEntries es
  | [] => rfl
  | (k, v) :: es => by rw [graftEntries, copyEntries, graft_copy v, graftEntries_copy es]

end

/-- A write into a tree without marks changes no marked container. -/
theorem writeRevision?_unmarked (v : Value) (segments : List String) (es : List (Key × Value)) :
    writeRevision? v.unmarked segments (mapTagEntries (fun _ => none) es) = none := by
  cases hrev : writeRevision? v.unmarked segments (mapTagEntries (fun _ => none) es) with
  | none => rfl
  | some rev =>
    have hnone := allMarks_writeRevision? (P := fun _ => False) (allMarks_unmarked v)
      (allMarks_unmarkedEntries es) hrev
    exact hnone.1.elim

end Tree

/-! ## Definitions -/

namespace Resolver

variable {σ φ : Type} (r : Resolver σ φ)

/-- Settled leaves are written as they are, and nothing else happens. -/
theorem resolveLeaves_of_settled {leaves : Flat Unit} (h : ∀ leaf ∈ leaves, leaf.2.Settled)
    (es : List (Key × Value)) (s : Scratch σ) :
    (r.resolveLeaves leaves (Tree.mapTagEntries (fun _ => none) es)).run s =
      (.ok (Tree.mapTagEntries (fun _ => none)
        (Tree.writeAll (leaves.map fun leaf => (Path.split leaf.1, leaf.2.copy)) es)), s) := by
  induction leaves generalizing es with
  | nil => rfl
  | cons leaf leaves ih =>
    obtain ⟨path, v⟩ := leaf
    obtain ⟨hv, hrest⟩ := List.forall_mem_cons.1 h
    have hvalue : r.resolveAt 0 v = pure v.copy.unmarked :=
      r.engine.resolve_of_settled (r.passesLeft 0) hv
    have hwrite : (r.writeLeaf (Tree.mapTagEntries (fun _ => none) es) path v.copy.unmarked).run
        s = (.ok (Tree.mapTagEntries (fun _ => none)
          (Tree.writeEntries v.copy (Path.split path) es)), s) := by
      rw [run_writeLeaf, Tree.writeRevision?_unmarked,
        Tree.mapTagEntries_writeEntries (fun _ => none) rfl]
      rfl
    rw [resolveLeaves, hvalue, pure_bind, Run.run_bind, hwrite]
    exact ih hrest (Tree.writeEntries v.copy (Path.split path) es)

/-- A settled definition has a copy of itself for its tree, if the paths of its leaves lead back to
its keys. -/
theorem resolveTree_of_settled {es : List (Key × Value)} (hes : Tree.Rooted es)
    (h : ∀ e ∈ es, e.2.Settled) (s : Scratch σ) :
    ∃ t, (r.resolveTree (.map () es)).run s =
      (.ok (.map none (Tree.mapTagEntries (fun _ => none) (Tree.copyEntries es))), t) := by
  have hflat : (Tree.map () es : Value).flatten "" = .ok (Tree.entryLeaves "" es) :=
    (Tree.flatten_of_areLegible () (Tree.areLegible_of_named es hes.named) "").trans
      (congrArg Except.ok (Tree.flattenEntries_eq_entryLeaves hes))
  have hleaves : ∀ leaf ∈ Tree.entryLeaves "" es, leaf.2.Settled := fun leaf hmem =>
    Tree.settled_of_mem_entryLeaves "" es h hmem
  have hwritten : Tree.writeAll ((Tree.entryLeaves "" es).map fun leaf =>
      (Path.split leaf.1, leaf.2.copy)) [] = Tree.copyEntries es := by
    calc Tree.writeAll ((Tree.entryLeaves "" es).map fun leaf =>
          (Path.split leaf.1, leaf.2.copy)) []
      _ = Tree.writeAll ((Tree.entryBranches es).map fun b => (b.1, b.2.copy)) [] := by
          rw [← Tree.entryLeaves_root hes, List.map_map]
          rfl
      _ = Tree.graftEntries Tree.copy es :=
          Tree.writeAll_entryBranches Tree.copy es hes.named fun _ _ => rfl
      _ = Tree.copyEntries es := Tree.graftEntries_copy es
  let start := begin (Tree.entryLeaves "" es).length s
  have hrun : (r.resolveLeaves (Tree.entryLeaves "" es) []).run start =
      (.ok (Tree.mapTagEntries (fun _ => none) (Tree.copyEntries es)), start) := by
    rw [← hwritten]
    exact r.resolveLeaves_of_settled hleaves [] start
  refine ⟨{ start with cache := none }, ?_⟩
  rw [run_resolveTree, hflat]
  dsimp only
  rw [hrun]

end Resolver

end LayeredConfig
