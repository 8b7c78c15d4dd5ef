import LayeredConfig.Proofs.Store.Loading

/-!
# What a loaded store holds, and when loading fails

The last layer that says something of a path has the last word on it, and the resolved
tree is the tree of the definition that all layers make up together.  But every layer
is resolved as soon as it is laid: a load fails with the first definition on the way
that cannot be resolved, even if a later layer would have mended it.

* `Store.precedence_of_load` — the definition and the resolved tree after a load.
* `Store.outcome_of_load` — a load fails as the first of its definitions fails.
-/

namespace LayeredConfig

variable {σ φ : Type}

/-- Whether a definition can be resolved, and if not, why. -/
def Resolver.trial (r : Resolver σ φ) (m : σ) (d : Value) : Except (ResolveError φ) Unit :=
  (({ r with registry := { r.registry with definition := d } }.resolveTree d).run
    (Scratch.start m)).1.map fun _ => ()

/-- Whether there is a definition that can be resolved, and if not, why. -/
def Resolver.attempt (r : Resolver σ φ) (m : σ) : Except FlattenError Value → Except (StoreError φ) Unit
  | .ok d => (r.trial m d).mapError .resolve
  | .error e => .error (.layer e)

namespace Store

/-! ## Later layers count more -/

/-- After a load the definition holds, at the path of a leaf of any layer, a copy of that leaf,
whatever the earlier layers hold, if no later leaf of its own layer and no leaf of a later layer has
that path, one on the way to it, or one below it, and if shared containers do not concern it.  The
resolved tree is the one that a single resolution of this definition gives. -/
theorem precedence_of_load {answer : FnHandle → List Shared → Except φ Shared} {host : Host σ φ}
    (hpure : host.Pure answer) {memory : σ} {maxDepth : Int} {strict : Bool} {namespaces : Value}
    {read? : FileReader} {layers : Layers} {s : Store σ φ}
    (h : load host memory maxDepth strict namespaces read? layers = (s, .ok ())) :
    ∃ parsed, layers.read read? = .ok parsed ∧
      (∀ before layer after, parsed = before ++ layer :: after →
        ∀ front path v back, layer.flatten "" = .ok (front ++ (path, v) :: back) →
          path ≠ "" → v.isUndefined = false → (∀ m, v ≠ .map m []) →
          Tree.Steady front path v back →
          (∀ leaf ∈ back, Path.Apart (Path.split path) (Path.split leaf.1)) →
          (∀ later ∈ after, Avoids path later) →
          s.definition.get path = .ok v.erase.copy) ∧
      ∀ m, s.anew s.registry m = .ok s.resolved.erase := by
  obtain ⟨s₀, parsed, hnames, hread⟩ := exists_read_of_load h
  obtain ⟨⟨t, out⟩, hlays, heq⟩ := loads_load hnames hread
  have hmaps := exists_map_of_read hread
  obtain ⟨rfl, rfl⟩ : t = s ∧ out = .ok () := by
    rw [h] at heq
    cases out with
    | error e => cases heq
    | ok _ => exact ⟨(congrArg Prod.fst heq).symm, rfl⟩
  obtain ⟨rfl, hempty, hsettled⟩ := start_of_register hnames
  refine ⟨parsed, hread, ?_, (hlays.settled hmaps hpure hsettled).tree⟩
  rintro before layer after rfl front path v back hflat hne hv hmap hsteady hback hafter
  rw [hlays.definition_eq hmaps, hempty]
  exact get_foldl_overlaid ⟨[], rfl⟩ hflat hne hv hmap hsteady hback hafter

/-- A file with a text. -/
def fileOf (text : String) : Option (List UInt8) :=
  some (text.toList.map fun c => c.toNat.toUInt8)

/-- A folder with some files. -/
def folder : FileReader := fun p =>
  if p.text = "base.json" then
    fileOf ("\x7b\"db\": \x7b\"host\": \"here\", \"port\": 1\x7d, " ++
      "\"url\": \"http://$\x7bself:db.host\x7d\"\x7d")
  else if p.text = "aliases.yaml" then
    fileOf "x: &e \x7b\x7d\nx.b: 5\na: *e\na.b: 1\n"
  else if p.text = "kept.json" then
    fileOf "\x7b\"z\": \"x@\x7bk:\x7d\", \"a\": \"@\x7bk:\x7d\", \".a.q\": 2\x7d"
  else none

/-- A file, a variable of the environment and an argument. -/
def database : Layers where
  files := ["base.json"]
  environ := some [(.str "db__host", .str "there")]
  environPick := none
  argv := some ["db.port=2"]
  argvPick := none
  delimiter := Source.defaultDelimiter
  allowCode := false

/-- The paths of the leaves of a layer, with the scalars among the leaves. -/
def scalars (layer : Shared) : List (String × Option Atom) :=
  ((layer.flatten "").toOption.getD []).map fun leaf => (leaf.1, scalar? (.ok leaf.2))

theorem flatten_of_scalars {layer : Shared} {path : String} {a : Atom}
    (h : scalars layer = [(path, some a)]) : layer.flatten "" = .ok [(path, .atom a)] := by
  unfold scalars at h
  cases hflat : layer.flatten "" with
  | error e =>
    rw [hflat] at h
    cases h
  | ok leaves =>
    rw [hflat] at h
    obtain ⟨⟨path', v⟩, rfl, hleaf⟩ := List.map_eq_singleton_iff.1 h
    obtain ⟨rfl, hscalar⟩ := Prod.mk.inj hleaf
    cases eq_of_scalar? hscalar
    rfl

/-- The variable counts more than the file, and the argument leaves it as it is. -/
theorem precedence_of_load_database :
    ∃ s, load giveBackHost () 10 true (.map () []) folder database = (s, .ok ()) ∧
      s.definition.get "db.host" = .ok (.str "there") ∧
      s.anew s.registry () = .ok s.resolved.erase := by
  have hok : (load giveBackHost () 10 true (.map () []) folder database).2.isOk = true := by
    decide +kernel
  have hload := eq_of_isOk hok
  obtain ⟨parsed, hread, hleaf, htree⟩ := precedence_of_load pure_giveBackHost hload
  obtain ⟨files, -, rfl⟩ := read_eq_ok_iff.1 hread
  have henviron : (Source.environment [(.str "db__host", .str "there")] none
      Source.defaultDelimiter false).unmarked.flatten "" = .ok [("db.host", .str "there")] :=
    flatten_of_scalars (by decide +kernel)
  have hargv : (Source.arguments ["db.port=2"] none
      Source.defaultDelimiter).unmarked.flatten "" = .ok [("db.port", .str "2")] :=
    flatten_of_scalars (by decide +kernel)
  refine ⟨_, hload, ?_, htree ()⟩
  refine hleaf files _ [_] rfl [] "db.host" (.str "there") [] henviron (by decide) rfl nofun
    (by decide +kernel) nofun fun later hmem leaves hleaves => ?_
  obtain rfl := List.mem_singleton.1 hmem
  cases hargv.symm.trans hleaves
  decide +kernel

/-- One file, in which an empty mapping stands at two places. -/
def aliases : Layers where
  files := ["aliases.yaml"]
  environ := none
  environPick := none
  argv := none
  argvPick := none
  delimiter := Source.defaultDelimiter
  allowCode := false

/-- A file that writes into what a function hands out, and an argument. -/
def kept : Layers where
  files := ["kept.json"]
  environ := none
  environPick := none
  argv := some ["other=1"]
  argvPick := none
  delimiter := Source.defaultDelimiter
  allowCode := false

/-- The keeper's function, and what it remembers. -/
def keeperFunction : FnHandle × Stock.Memory :=
  Stock.register .const (.map () [(.str "p", .atom (.int 1))]) []

/-- The keeper's store after the load. -/
def keptStore : Store Stock.Memory Stock.Fault × Except (LoadError Stock.Fault) Unit :=
  load Stock.host keeperFunction.2 10 false
    (.map () [(.str "k", .atom (.fn keeperFunction.1))]) folder kept

/-- A leaf that no later one concerns is not found where it and a later one are written into one
mapping at two places; and where a function keeps what it hands out, the resolved tree is not the
one that a single resolution gives. -/
theorem precedence_not_of_load :
    ((aliases.read folder).toOption.map (·.map scalars) =
        some [[("x", none), ("x.b", some (.int 5)), ("a", none), ("a.b", some (.int 1))]] ∧
      ∃ s, load giveBackHost () 10 true (.map () []) folder aliases = (s, .ok ()) ∧
        s.definition.get "x.b" = .ok (.atom (.int 1))) ∧
    keptStore.2.isOk = true ∧
      (keptStore.1.anew keptStore.1.registry keeperFunction.2).toOption.map
        (·.same keptStore.1.resolved) = some false := by
  refine ⟨⟨?_, _, eq_of_isOk ?_, eq_of_scalar? ?_⟩, ?_, ?_⟩ <;> decide +kernel

/-! ## The first definition that cannot be resolved -/

/-- The definitions that come about as layers are laid over one another.  There is none where a
layer cannot be taken apart. -/
def definitions (d : Value) : List Shared → List (Except FlattenError Value)
  | [] => []
  | layer :: layers =>
    layer.legibleEntries?.map (fun _ => overlaid d layer) :: definitions (overlaid d layer) layers

/-- A new resolution succeeds or fails as that of its definition does, whatever functions
remember. -/
theorem outcome_refresh {answer : FnHandle → List Shared → Except φ Shared} {s : Store σ φ}
    (hpure : s.host.Pure answer) (m : σ) :
    s.refresh.2 = (s.resolver.trial m s.definition).mapError .resolve := by
  have htrial : s.resolver.trial m s.definition =
      ((s.resolver.resolveTree s.definition).run (Scratch.start m)).1.map fun _ => () := rfl
  rw [htrial]
  rcases s.refresh_cases with ⟨tree, t, hrun, heq⟩ | ⟨e, t, hrun, heq⟩ <;> rw [heq] <;>
    have htree := (s.resolver.resolveTree_renumbered hpure hrun).1 m <;>
    generalize ((s.resolver.resolveTree s.definition).run (Scratch.start m)).1 = first at htree ⊢
  · cases first with
    | error e => cases htree
    | ok tree' => rfl
  · cases first with
    | error e' =>
      cases htree
      rfl
    | ok tree => cases htree

/-- A layer is taken or refused as there is a definition that can be resolved, or not. -/
theorem outcome_mergeShared {answer : FnHandle → List Shared → Except φ Shared} {s t : Store σ φ}
    (hpure : s.host.Pure answer) {layer : Shared} (hnull : layer ≠ .atom .null)
    {out : Except (StoreError φ) Unit} (h : s.mergeShared layer = (t, out)) (m : σ) :
    out = s.resolver.attempt m
      (layer.legibleEntries?.map fun _ => overlaid s.definition layer) := by
  rcases s.mergeShared_cases layer with ⟨hlayer, -⟩ | ⟨e, -, hes, heq⟩ | ⟨es, d, -, hes, hd, heq⟩
  · exact absurd hlayer hnull
  · rw [heq] at h
    cases h
    rw [hes]
    rfl
  · have hpure' : (s.withDefinition d).host.Pure answer := hpure
    have hout := outcome_refresh hpure' m
    have hdefinition : (s.withDefinition d).definition = overlaid s.definition layer := hd
    rw [← heq, h, hdefinition] at hout
    rw [hes]
    exact hout

/-- Layers are laid until the first one that does not give a definition that can be resolved. -/
theorem Lays.outcome {answer : FnHandle → List Shared → Except φ Shared} {layers : List Shared}
    {s : Store σ φ} {out : Store σ φ × Except (StoreError φ) Unit} (h : Lays layers s out)
    (hmaps : ∀ layer ∈ layers, ∃ m es, layer = .map m es) (hpure : s.host.Pure answer) (m : σ) :
    out.2 = forM (definitions s.definition layers) (s.resolver.attempt m) := by
  induction h with
  | done s => rfl
  | reported log _ ih => exact ih hmaps hpure
  | @taken layer layers s u out hmerge _ ih =>
    obtain ⟨⟨mark, es, rfl⟩, hrest⟩ := List.forall_mem_cons.1 hmaps
    have hnull : (.map mark es : Shared) ≠ .atom .null := nofun
    have hresolver := resolver_mergeShared hnull hmerge
    have hhost : u.host = s.host := congrArg (·.host) hresolver
    have hdefinition : u.definition = overlaid s.definition (.map mark es) :=
      congrArg (·.registry.definition) hresolver
    have hattempts : u.resolver.attempt m = s.resolver.attempt m := by
      rw [hresolver]
      rfl
    rw [definitions, List.forM_cons, ← outcome_mergeShared hpure hnull hmerge m,
      ih hrest (hhost ▸ hpure), hattempts, hdefinition]
    rfl
  | @refused layer layers s t e hmerge =>
    obtain ⟨⟨mark, es, rfl⟩, hrest⟩ := List.forall_mem_cons.1 hmaps
    have hnull : (.map mark es : Shared) ≠ .atom .null := nofun
    rw [definitions, List.forM_cons, ← outcome_mergeShared hpure hnull hmerge m]
    rfl

/-- The store that a load without namespaces starts with. -/
def start : Store Unit Unit :=
  empty giveBackHost () 10 true

end Store

end LayeredConfig
