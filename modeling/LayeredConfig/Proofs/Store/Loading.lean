import LayeredConfig.Proofs.Layer.Precedence
import LayeredConfig.Proofs.Store.History
import LayeredConfig.Store.Load

/-!
# What a load does

A load reads its layers one by one and lays each over the definition, which is
resolved before the next one is read.  If all layers can be read, it ends as laying
them one after the other ends, but for what is reported in between.

* `Layers.read` — the layers in the order in which they are laid.
* `Store.Lays` — layers are laid over a store's definition until one is refused.
* `Store.loads_load` — a load lays its layers.
* `Store.exists_read_of_load` — a load that succeeds has read them all.
* `Store.Lays.settled` — layers that are all taken leave the store settled.
-/

namespace LayeredConfig

/-- The layers that a load reads: the files in order, then the environment, then the arguments. -/
def Layers.read (layers : Layers) (read? : FileReader) : Except Source.FileError (List Shared) := do
  let files ← layers.files.mapM fun path =>
    (Source.loadFile read? (FilePath.ofText path) layers.allowCode).2
  let others := (Store.environLayer? layers).toList ++ (Store.argvLayer? layers).toList
  return files ++ others.map Tree.unmarked

namespace Store

variable {σ φ : Type}

/-! ## One layer -/

@[simp] theorem resolver_refresh (s : Store σ φ) : s.refresh.1.resolver = s.resolver := by
  rcases s.refresh_cases with ⟨tree, t, -, h⟩ | ⟨e, t, -, h⟩ <;> rw [h] <;> rfl

/-- A layer that is taken changes nothing that a resolution depends on but the definition. -/
theorem resolver_mergeShared {s t : Store σ φ} {layer : Shared} (hnull : layer ≠ .atom .null)
    (h : s.mergeShared layer = (t, .ok ())) :
    t.resolver = { s.resolver with
      registry := { s.registry with definition := overlaid s.definition layer } } := by
  rcases s.mergeShared_cases layer with ⟨hlayer, -⟩ | ⟨e, -, -, heq⟩ | ⟨es, d, -, -, hd, heq⟩
  · exact absurd hlayer hnull
  · cases heq.symm.trans h
  · have hresolver := resolver_refresh (s.withDefinition d)
    rw [← heq, h] at hresolver
    rw [hresolver, ← hd]
    rfl

/-! ## Layers one after the other -/

/-- Layers are laid over a store's definition one after the other until one is refused, whatever is
reported in between. -/
inductive Lays : List Shared → Store σ φ → Store σ φ × Except (StoreError φ) Unit → Prop where
  /-- No layer is left. -/
  | done (s : Store σ φ) : Lays [] s (s, .ok ())
  /-- Something is reported. -/
  | reported {layers : List Shared} {s : Store σ φ} {out : Store σ φ × Except (StoreError φ) Unit}
      (log : List LogEntry) : Lays layers { s with log := log } out → Lays layers s out
  /-- A layer is taken. -/
  | taken {layer : Shared} {layers : List Shared} {s t : Store σ φ}
      {out : Store σ φ × Except (StoreError φ) Unit} :
    s.mergeShared layer = (t, .ok ()) → Lays layers t out → Lays (layer :: layers) s out
  /-- A layer is refused. -/
  | refused {layer : Shared} {layers : List Shared} {s t : Store σ φ} {e : StoreError φ} :
    s.mergeShared layer = (t, .error e) → Lays (layer :: layers) s (t, .error e)

namespace Lays

/-- Layers that follow others are laid where these are all taken. -/
theorem append {layers layers' : List Shared} {s t : Store σ φ}
    {out : Store σ φ × Except (StoreError φ) Unit} (h : Lays layers s (t, .ok ()))
    (h' : Lays layers' t out) : Lays (layers ++ layers') s out := by
  generalize hend : (t, Except.ok ()) = first at h
  induction h with
  | done s =>
    cases hend
    exact h'
  | reported log _ ih => exact .reported log (ih hend)
  | taken hmerge _ ih => exact .taken hmerge (ih hend)
  | refused hmerge => cases hend

/-- Layers that follow a refused one are not looked at. -/
theorem append_of_error {layers : List Shared} {s t : Store σ φ} {e : StoreError φ}
    (h : Lays layers s (t, .error e)) (layers' : List Shared) :
    Lays (layers ++ layers') s (t, .error e) := by
  generalize hend : (t, Except.error e) = first at h ⊢
  induction h with
  | done s => cases hend
  | reported log _ ih => exact .reported log (ih hend)
  | taken hmerge _ ih => exact .taken hmerge (ih hend)
  | refused hmerge => exact .refused hmerge

end Lays

/-- A step of loading ends as laying layers ends. -/
def Loads (layers : List Shared) (s : Store σ φ)
    (result : Store σ φ × Except (LoadError φ) Unit) : Prop :=
  ∃ out, Lays layers s out ∧ result = (out.1, out.2.mapError .store)

/-- One layer is laid. -/
theorem loads_mergeLayer (s : Store σ φ) (layer : Shared) :
    Loads [layer] s (s.mergeLayer layer) := by
  refine ⟨s.mergeShared layer, ?_, rfl⟩
  rcases h : s.mergeShared layer with ⟨t, e | _⟩
  · exact .refused h
  · exact .taken h (.done t)

/-- A layer is laid if there is one. -/
theorem loads_mergeLayer? (s : Store σ φ) (layer? : Option Value) :
    Loads (layer?.toList.map Tree.unmarked) s (s.mergeLayer? layer?) := by
  cases layer? with
  | none => exact ⟨(s, .ok ()), .done s, rfl⟩
  | some layer => exact loads_mergeLayer s layer.unmarked

/-- What goes on after layers have been laid lays the next ones. -/
theorem Loads.goOn {layers layers' : List Shared} {s : Store σ φ}
    {result : Store σ φ × Except (LoadError φ) Unit} (h : Loads layers s result)
    {next : Store σ φ → Store σ φ × Except (LoadError φ) Unit}
    (hnext : ∀ t, Loads layers' t (next t)) : Loads (layers ++ layers') s (goOn result next) := by
  obtain ⟨⟨t, e | _⟩, hlays, rfl⟩ := h
  · exact ⟨(t, .error e), hlays.append_of_error layers', rfl⟩
  · obtain ⟨out, hlays', heq⟩ := hnext t
    exact ⟨out, hlays.append hlays', heq⟩

/-- What goes on to the end has not failed before. -/
theorem exists_of_goOn {t : Store σ φ} {out : Store σ φ × Except (LoadError φ) Unit}
    {next : Store σ φ → Store σ φ × Except (LoadError φ) Unit}
    (h : goOn out next = (t, .ok ())) : ∃ s, out = (s, .ok ()) ∧ next s = (t, .ok ()) := by
  obtain ⟨s, e | _⟩ := out
  · cases h
  · exact ⟨s, rfl, h⟩

theorem foldl_report (entries : List LogEntry) (s : Store σ φ) :
    entries.foldl report s = { s with log := entries.reverse ++ s.log } := by
  induction entries generalizing s with
  | nil => rfl
  | cons e entries ih =>
    rw [List.foldl_cons, ih, report, List.reverse_cons, List.append_assoc]
    rfl

/-! ## Files -/

/-- All steps succeed with the results that are listed. -/
theorem mapM_eq_ok_iff {ε ι β : Type} {f : ι → Except ε β} {items : List ι} {bs : List β} :
    items.mapM f = .ok bs ↔ List.Forall₂ (fun i b => f i = .ok b) items bs := by
  induction items generalizing bs with
  | nil =>
    rw [List.mapM_nil, List.forall₂_nil_left_iff]
    exact ⟨fun h => by cases h; rfl, fun h => by rw [h]; rfl⟩
  | cons i items ih =>
    rw [List.mapM_cons, List.forall₂_cons_left_iff]
    constructor
    · intro h
      cases hfirst : f i with
      | error e =>
        rw [hfirst] at h
        cases h
      | ok b =>
        rw [hfirst] at h
        cases hrest : items.mapM f with
        | error e =>
          rw [hrest] at h
          cases h
        | ok rest =>
          rw [hrest] at h
          cases h
          exact ⟨b, rest, rfl, ih.1 hrest, rfl⟩
    · rintro ⟨b, rest, hfirst, hrest, rfl⟩
      rw [hfirst, ih.2 hrest]
      rfl

/-- Every file is read and gives a layer. -/
abbrev FilesRead (read? : FileReader) (allowCode : Bool) : List String → List Shared → Prop :=
  List.Forall₂ fun path layer =>
    (Source.loadFile read? (FilePath.ofText path) allowCode).2 = .ok layer

/-- A file that cannot be read ends the load; any other one is laid. -/
theorem mergeFile_cases (s : Store σ φ) (read? : FileReader) (p : FilePath) (allowCode : Bool) :
    (∃ e t, (Source.loadFile read? p allowCode).2 = .error e ∧
      s.mergeFile read? p allowCode = (t, .error (.file e))) ∨
    ∃ layer log, (Source.loadFile read? p allowCode).2 = .ok layer ∧
      s.mergeFile read? p allowCode = ({ s with log := log } : Store σ φ).mergeLayer layer := by
  unfold mergeFile
  rcases Source.loadFile read? p allowCode with ⟨entries, e | layer⟩
  · exact Or.inl ⟨e, _, rfl, rfl⟩
  · exact Or.inr ⟨layer, entries.reverse ++ s.log, rfl, by rw [← foldl_report]⟩

/-- Files that can all be read are laid one after the other. -/
theorem loads_mergeFiles {read? : FileReader} {allowCode : Bool} {paths : List String}
    {layers : List Shared} (h : FilesRead read? allowCode paths layers) (s : Store σ φ) :
    Loads layers s (mergeFiles read? allowCode paths s) := by
  induction h generalizing s with
  | nil => exact ⟨(s, .ok ()), .done s, rfl⟩
  | @cons path layer paths layers hread _ ih =>
    rw [mergeFiles]
    rcases (s.report (mergingEntry path)).mergeFile_cases read? (FilePath.ofText path) allowCode
      with ⟨e, t, herror, -⟩ | ⟨layer', log, hok, hmerge⟩
    · rw [hread] at herror
      cases herror
    · rw [hread] at hok
      cases hok
      obtain ⟨out, hlays, hlayer⟩ := loads_mergeLayer
        { s.report (mergingEntry path) with log := log } layer
      have hfirst : Loads [layer] s (out.1, out.2.mapError .store) :=
        ⟨out, .reported log hlays, rfl⟩
      rw [hmerge, hlayer]
      exact hfirst.goOn ih

/-- Files that are all laid have all been read. -/
theorem exists_read_of_mergeFiles {read? : FileReader} {allowCode : Bool} {paths : List String}
    {s t : Store σ φ} (h : mergeFiles read? allowCode paths s = (t, .ok ())) :
    ∃ layers, FilesRead read? allowCode paths layers := by
  induction paths generalizing s with
  | nil => exact ⟨[], .nil⟩
  | cons path paths ih =>
    rw [mergeFiles] at h
    obtain ⟨u, hfirst, hrest⟩ := exists_of_goOn h
    rcases (s.report (mergingEntry path)).mergeFile_cases read? (FilePath.ofText path) allowCode
      with ⟨e, t', -, hmerge⟩ | ⟨layer, log, hread, -⟩
    · rw [hmerge] at hfirst
      cases hfirst
    · obtain ⟨layers, hlayers⟩ := ih hrest
      exact ⟨layer :: layers, .cons hread hlayers⟩

/-! ## All layers -/

/-- The environment and the arguments, without the files. -/
def otherLayers (layers : Layers) : List Shared :=
  ((environLayer? layers).toList ++ (argvLayer? layers).toList).map Tree.unmarked

theorem read_eq_ok_iff {layers : Layers} {read? : FileReader} {parsed : List Shared} :
    layers.read read? = .ok parsed ↔ ∃ files,
      FilesRead read? layers.allowCode layers.files files ∧
        parsed = files ++ otherLayers layers := by
  rw [Layers.read]
  cases hfiles : layers.files.mapM fun path =>
      (Source.loadFile read? (FilePath.ofText path) layers.allowCode).2 with
  | error e =>
    refine ⟨nofun, ?_⟩
    rintro ⟨files, hread, -⟩
    rw [mapM_eq_ok_iff.2 hread] at hfiles
    cases hfiles
  | ok files =>
    constructor
    · intro h
      cases h
      exact ⟨files, mapM_eq_ok_iff.1 hfiles, rfl⟩
    · rintro ⟨files', hread, rfl⟩
      rw [mapM_eq_ok_iff.2 hread] at hfiles
      cases hfiles
      rfl

/-- Layers that can all be read are laid one after the other. -/
theorem loads_loadLayers {layers : Layers} {read? : FileReader} {parsed : List Shared}
    (h : layers.read read? = .ok parsed) (s : Store σ φ) :
    Loads parsed s (s.loadLayers read? layers) := by
  obtain ⟨files, hread, rfl⟩ := read_eq_ok_iff.1 h
  rw [otherLayers, List.map_append]
  exact (loads_mergeFiles hread s).goOn fun t =>
    (loads_mergeLayer? t (environLayer? layers)).goOn fun u =>
      loads_mergeLayer? u (argvLayer? layers)

/-- Layers that are all laid have all been read. -/
theorem exists_read_of_loadLayers {layers : Layers} {read? : FileReader} {s t : Store σ φ}
    (h : s.loadLayers read? layers = (t, .ok ())) : ∃ parsed, layers.read read? = .ok parsed := by
  obtain ⟨u, hfiles, -⟩ := exists_of_goOn h
  obtain ⟨files, hread⟩ := exists_read_of_mergeFiles hfiles
  exact ⟨_, read_eq_ok_iff.2 ⟨files, hread, rfl⟩⟩

/-- A load with namespaces that are taken lays its layers, if these can all be read. -/
theorem loads_load {host : Host σ φ} {memory : σ} {maxDepth : Int} {strict : Bool}
    {namespaces : Value} {s : Store σ φ}
    (hnames : (empty host memory maxDepth strict).register namespaces = (s, .ok ()))
    {layers : Layers} {read? : FileReader} {parsed : List Shared}
    (hread : layers.read read? = .ok parsed) :
    Loads parsed s (load host memory maxDepth strict namespaces read? layers) := by
  have hcreate : create host memory maxDepth strict (.atom .null) namespaces = (s, .ok ()) := by
    rw [create, hnames]
    rfl
  rw [load, hcreate]
  exact loads_loadLayers hread s

/-- A load that succeeds has taken its namespaces and read all its layers. -/
theorem exists_read_of_load {host : Host σ φ} {memory : σ} {maxDepth : Int} {strict : Bool}
    {namespaces : Value} {layers : Layers} {read? : FileReader} {t : Store σ φ}
    (h : load host memory maxDepth strict namespaces read? layers = (t, .ok ())) :
    ∃ s parsed, (empty host memory maxDepth strict).register namespaces = (s, .ok ()) ∧
      layers.read read? = .ok parsed := by
  rw [load, create] at h
  rcases hnames : (empty host memory maxDepth strict).register namespaces with ⟨s, e | _⟩
  · rw [hnames] at h
    cases h
  · rw [hnames] at h
    obtain ⟨parsed, hread⟩ := exists_read_of_loadLayers h
    exact ⟨s, parsed, rfl, hread⟩

/-- The store that a load starts with has no definitions yet, and it is settled. -/
theorem start_of_register {host : Host σ φ} {memory : σ} {maxDepth : Int} {strict : Bool}
    {namespaces : Value} {s : Store σ φ}
    (h : (empty host memory maxDepth strict).register namespaces = (s, .ok ())) :
    s.host = host ∧ s.definition = .map () [] ∧ s.Settled s.registry := by
  have hdefinition := Registry.definition_run_update namespaces
    ⟨(empty host memory maxDepth strict).namespaces, (empty host memory maxDepth strict).log⟩
  unfold register at h
  rcases hup : (Registry.update namespaces).run
    ⟨(empty host memory maxDepth strict).namespaces, (empty host memory maxDepth strict).log⟩
    with ⟨e | _, after⟩ <;> rw [hup] at h hdefinition
  · cases h
  · cases h
    exact ⟨rfl, congrArg Definition.value hdefinition,
      settled_empty host memory maxDepth strict hdefinition _⟩

/-! ## Layers are mappings -/

theorem exists_map_of_asMapping {p : FilePath} {v layer : Shared}
    (h : Source.asMapping p v = .ok layer) : ∃ m es, layer = .map m es := by
  unfold Source.asMapping at h
  split at h
  · cases h
    exact ⟨none, [], rfl⟩
  · cases h
    exact ⟨_, _, rfl⟩
  · cases h

theorem exists_map_of_loadFile {read? : FileReader} {p : FilePath} {allowCode : Bool}
    {layer : Shared} (h : (Source.loadFile read? p allowCode).2 = .ok layer) :
    ∃ m es, layer = .map m es := by
  unfold Source.loadFile Source.loadFileWith at h
  split at h
  · cases h
  · split at h
    · cases h
    · rename_i format _ _ bytes _
      cases hvalue : Source.readAs Yaml.readBytes format p allowCode bytes with
      | error e =>
        rw [hvalue] at h
        cases h
      | ok v =>
        rw [hvalue] at h
        exact exists_map_of_asMapping h

theorem exists_map_of_mem_otherLayers {layers : Layers} {layer : Shared}
    (h : layer ∈ otherLayers layers) : ∃ m es, layer = .map m es := by
  obtain ⟨v, hv, rfl⟩ := List.mem_map.1 h
  have hmap : ∃ t es, v = .map t es := by
    rcases List.mem_append.1 hv with hv | hv
    · obtain ⟨environ, -, rfl⟩ := Option.map_eq_some_iff.1 (Option.mem_toList.1 hv)
      exact ⟨_, _, rfl⟩
    · obtain ⟨argv, -, rfl⟩ := Option.map_eq_some_iff.1 (Option.mem_toList.1 hv)
      exact ⟨_, _, rfl⟩
  obtain ⟨t, es, rfl⟩ := hmap
  exact ⟨none, _, rfl⟩

theorem exists_map_of_filesRead {read? : FileReader} {allowCode : Bool} {paths : List String}
    {layers : List Shared} (h : FilesRead read? allowCode paths layers) :
    ∀ layer ∈ layers, ∃ m es, layer = .map m es := by
  induction h with
  | nil => exact nofun
  | cons hfirst _ ih => exact List.forall_mem_cons.2 ⟨exists_map_of_loadFile hfirst, ih⟩

/-- The layers that are read are mappings. -/
theorem exists_map_of_read {layers : Layers} {read? : FileReader} {parsed : List Shared}
    (h : layers.read read? = .ok parsed) : ∀ layer ∈ parsed, ∃ m es, layer = .map m es := by
  obtain ⟨files, hread, rfl⟩ := read_eq_ok_iff.1 h
  exact List.forall_mem_append.2
    ⟨exists_map_of_filesRead hread, fun _ hmem => exists_map_of_mem_otherLayers hmem⟩

/-! ## The store after its layers -/

/-- The definition after layers that are all taken. -/
theorem Lays.definition_eq {layers : List Shared} {s t : Store σ φ}
    (h : Lays layers s (t, .ok ())) (hmaps : ∀ layer ∈ layers, ∃ m es, layer = .map m es) :
    t.definition = layers.foldl overlaid s.definition := by
  generalize hend : (t, Except.ok ()) = out at h
  induction h with
  | done s =>
    cases hend
    rfl
  | reported log _ ih => exact ih hmaps hend
  | @taken layer layers s u out hmerge _ ih =>
    obtain ⟨⟨m, es, rfl⟩, hrest⟩ := List.forall_mem_cons.1 hmaps
    have hnull : (.map m es : Shared) ≠ .atom .null := nofun
    have hu : u.definition = overlaid s.definition (.map m es) :=
      congrArg (·.registry.definition) (resolver_mergeShared hnull hmerge)
    rw [ih hrest hend, hu, List.foldl_cons]
  | refused hmerge => cases hend

/-- Layers that are all taken leave the store settled. -/
theorem Lays.settled {answer : FnHandle → List Shared → Except φ Shared} {layers : List Shared}
    {s t : Store σ φ} (h : Lays layers s (t, .ok ()))
    (hmaps : ∀ layer ∈ layers, ∃ m es, layer = .map m es) (hpure : s.host.Pure answer)
    (hs : s.Settled s.registry) : t.Settled t.registry := by
  generalize hend : (t, Except.ok ()) = out at h
  induction h with
  | done s =>
    cases hend
    exact hs
  | reported log _ ih => exact ih hmaps hpure ⟨hs.tree, hs.marks⟩ hend
  | @taken layer layers s u out hmerge _ ih =>
    obtain ⟨⟨m, es, rfl⟩, hrest⟩ := List.forall_mem_cons.1 hmaps
    have hnull : (.map m es : Shared) ≠ .atom .null := nofun
    have hhost : u.host = s.host := congrArg (·.host) (resolver_mergeShared hnull hmerge)
    rcases s.mergeShared_cases (.map m es) with
      ⟨hlayer, -⟩ | ⟨e, -, -, heq⟩ | ⟨fs, d, -, -, -, heq⟩
    · exact absurd hlayer hnull
    · cases heq.symm.trans hmerge
    · have hold : (s.withDefinition d).Settled s.registry := ⟨hs.tree, hs.marks⟩
      have hpure' : (s.withDefinition d).host.Pure answer := hpure
      rw [heq] at hmerge
      rcases settled_refresh hpure' hold with ⟨-, hsettled⟩ | ⟨e, he, -⟩
      · have hregistry := registry_refresh (s.withDefinition d)
        rw [hmerge] at hsettled hregistry
        rw [← hregistry] at hsettled
        exact ih hrest (hhost ▸ hpure) hsettled hend
      · rw [hmerge] at he
        cases he
  | refused hmerge => cases hend

end Store

end LayeredConfig
