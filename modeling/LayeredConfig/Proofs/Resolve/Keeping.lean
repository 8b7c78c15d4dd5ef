import LayeredConfig.Function.Stock
import LayeredConfig.Proofs.Resolve.Noted
import LayeredConfig.Proofs.Value.Atoms

/-!
# Runs that keep to a kind of state

A run keeps to a kind of state if it gets from every state of the kind to a state of
the kind, by an error too.  The states here are those in which all that is held or
remembered is made of scalars that pass a test, and the functions are those that make
nothing else of arguments that are so made.

* `Run.Keeps` — runs that keep to a kind of state and have results of a kind.
* `Host.Retains` — functions that make of what they are given nothing that is not so made.
* `Stock.retains_host` — the stock functions are such functions.
* `Resolver.MadeOf` — what is required of a resolver.
-/

namespace LayeredConfig

variable {σ φ β γ ι : Type}

/-! ## Runs that keep a state -/

namespace Run

/-- From a state as told the run gets to a state as told, by an error too, and a result is as
told. -/
def Keeps (I : Scratch σ → Prop) (Q : β → Prop) (x : Run σ φ β) : Prop :=
  ∀ s, I s → I (x.run s).2 ∧ ∀ b, (x.run s).1 = .ok b → Q b

variable {I : Scratch σ → Prop} {P : β → Prop} {Q : γ → Prop}

theorem keeps_pure {b : β} (hb : P b) : (pure b : Run σ φ β).Keeps I P :=
  fun _ hs => ⟨hs, fun _ h => Except.ok.inj h ▸ hb⟩

theorem keeps_throw (e : ResolveError φ) : (throw e : Run σ φ β).Keeps I P :=
  fun _ hs => ⟨hs, nofun⟩

theorem keeps_ofExcept {ε : Type} (wrap : ε → ResolveError φ) (x : Except ε β) :
    (ResolveError.ofExcept wrap x : Run σ φ β).Keeps I fun b => x = .ok b := by
  cases x with
  | ok b => exact keeps_pure rfl
  | error e => exact keeps_throw _

theorem keeps_bind {x : Run σ φ β} {f : β → Run σ φ γ} (hx : x.Keeps I P)
    (hf : ∀ b, P b → (f b).Keeps I Q) : (x >>= f).Keeps I Q := by
  intro s hs
  have h := hx s hs
  rw [run_bind]
  generalize x.run s = xs at h ⊢
  obtain ⟨_ | b, t⟩ := xs
  · exact ⟨h.1, nofun⟩
  · exact hf b (h.2 b rfl) t h.1

theorem keeps_mapM {f : ι → Run σ φ β} {items : List ι} (h : ∀ i ∈ items, (f i).Keeps I P) :
    (items.mapM f).Keeps I fun bs => ∀ b ∈ bs, P b := by
  induction items with
  | nil => exact keeps_pure (by simp)
  | cons i items ih =>
    rw [List.mapM_cons]
    refine keeps_bind (h i List.mem_cons_self) fun b hb => ?_
    refine keeps_bind (ih fun j hj => h j (List.mem_cons_of_mem _ hj)) fun bs hbs => ?_
    exact keeps_pure (List.forall_mem_cons.2 ⟨hb, hbs⟩)

end Run

/-! ## States and functions -/

variable {p : Atom → Prop} {I : σ → Prop}

/-- The functions remember what they may, and the results that are held are made as told. -/
structure Scratch.Holds (p : Atom → Prop) (I : σ → Prop) (s : Scratch σ) : Prop where
  memory : I s.memory
  cache : ∀ c, s.cache = some c → ∀ e ∈ c, e.2.MadeOf p

theorem Scratch.holds_start {memory : σ} (h : I memory) : (Scratch.start memory).Holds p I :=
  ⟨h, nofun⟩

theorem Run.keeps_report (entry : LogEntry) :
    (report entry : Run σ φ Unit).Keeps (Scratch.Holds p I) fun _ => True :=
  fun _ hs => ⟨⟨hs.memory, hs.cache⟩, fun _ _ => trivial⟩

/-- Functions that remember what they may give, for arguments that are made as told, results that
are made as told, and remember what they may again. -/
structure Host.Retains (h : Host σ φ) (p : Atom → Prop) (I : σ → Prop) : Prop where
  memory {f : FnHandle} {args : List Shared} {m : σ} :
    I m → (∀ v ∈ args, v.MadeOf p) → I (h.call f args m).1
  result {f : FnHandle} {args : List Shared} {m : σ} {v : Shared} :
    I m → (∀ v ∈ args, v.MadeOf p) → (h.call f args m).2 = .ok v → v.MadeOf p
  revise {rev : Tree.Revision} {m : σ} : I m → rev.content.MadeOf p → I (h.revise rev m)

/-- All arguments that have reached a function so far are made as told. -/
def Notes.ArgumentsMadeOf (p : Atom → Prop) (n : Notes) : Prop :=
  ∀ c ∈ n.calls, ∀ v ∈ c.args, v.MadeOf p

/-- Functions that take note of their calls give no other results. -/
theorem Host.Retains.noting {h : Host σ φ} (hret : h.Retains p I) :
    h.noting.Retains p fun m => I m.1 ∧ m.2.ArgumentsMadeOf p where
  memory hm hargs := ⟨hret.memory hm.1 hargs, List.forall_mem_cons.2 ⟨hargs, hm.2⟩⟩
  result hm := hret.result hm.1
  revise hm hrev := ⟨hret.revise hm.1 hrev, hm.2⟩

namespace Stock

/-- A stock function gives a truth value, a text, a number, its arguments or the value that it
keeps. -/
theorem madeOf_of_result (hp : Atom.Common p) {f : Fn} {args : List Shared} {v : Shared}
    (hkept : f.kept.MadeOf p) (hargs : ∀ x ∈ args, x.MadeOf p) (h : f.result args = .ok v) :
    v.MadeOf p := by
  unfold Fn.result at h
  split at h
  case h_1 => exact Except.ok.inj h ▸ Tree.madeOf_atom_iff.2 (hp.bool _)
  case h_2 => exact Except.ok.inj h ▸ Tree.madeOf_str hp _
  case h_3 => cases h
  case h_4 => exact Except.ok.inj h ▸ Tree.madeOf_str hp _
  case h_5 xs _ _ _ =>
    cases hxs : (texts xs).mapError Fault.unwritable with
    | ok ss =>
      rw [hxs] at h
      exact Except.ok.inj h ▸ Tree.madeOf_str hp _
    | error e =>
      rw [hxs] at h
      cases h
  case h_6 => exact Except.ok.inj h ▸ Tree.madeOf_list_iff.2 hargs
  case h_7 => exact Except.ok.inj h ▸ hargs _ List.mem_cons_self
  case h_8 => exact Except.ok.inj h ▸ Tree.madeOf_atom_iff.2 (hp.int _)
  case h_9 => exact Except.ok.inj h ▸ hkept
  case h_10 => split at h <;> cases h
  case h_11 => cases h

/-- What all functions keep is made as told. -/
def Memory.KeepsMadeOf (p : Atom → Prop) (m : Memory) : Prop :=
  ∀ e ∈ m, e.2.kept.MadeOf p

theorem keepsMadeOf_callIn (id : Nat) (args : List Shared) {m : Memory} (hm : m.KeepsMadeOf p) :
    Memory.KeepsMadeOf p (callIn id args m).1 := by
  induction m with
  | nil => exact nofun
  | cons e m ih =>
    obtain ⟨hf, hrest⟩ := List.forall_mem_cons.1 hm
    unfold callIn
    split
    · exact List.forall_mem_cons.2 ⟨hf, hrest⟩
    · exact List.forall_mem_cons.2 ⟨hf, ih hrest⟩

theorem madeOf_of_callIn (hp : Atom.Common p) {id : Nat} {args : List Shared} {m : Memory}
    {v : Shared} (hm : m.KeepsMadeOf p) (hargs : ∀ x ∈ args, x.MadeOf p)
    (h : (callIn id args m).2 = .ok v) : v.MadeOf p := by
  induction m with
  | nil => cases h
  | cons e m ih =>
    obtain ⟨hf, hrest⟩ := List.forall_mem_cons.1 hm
    unfold callIn at h
    split at h
    · exact madeOf_of_result (f := { e.2 with calls := e.2.calls + 1 }) hp hf hargs h
    · exact ih hrest h

/-- The stock functions make of what they are given nothing that is not made of it, if what they
keep is so made. -/
theorem retains_host (hp : Atom.Common p) : host.Retains p (Memory.KeepsMadeOf p) where
  memory hm _ := keepsMadeOf_callIn _ _ hm
  result hm hargs h := madeOf_of_callIn hp hm hargs h
  revise hm hrev := List.forall_mem_map.2 fun e he => Tree.madeOf_revise hrev (hm e he)

end Stock

/-- What stands in the namespaces is made as told, and the functions keep to it. -/
structure Resolver.MadeOf (r : Resolver σ φ) (p : Atom → Prop) (I : σ → Prop) : Prop where
  common : Atom.Common p
  definition : r.registry.definition.MadeOf p
  others : ∀ e ∈ r.registry.others, e.2.MadeOf p
  host : r.host.Retains p I

end LayeredConfig
