import Batiste.ScoutCaches

/-! Which files the graph of a new scout has as nodes. -/
namespace Batiste
namespace RecursiveScout

open NodePath TreeSitterAdapter DepthFirst

variable {Symbol : Type} {host : Host} {fs : FileSystem} {options : ScoutOptions}
  {adapter : Adapter Symbol}

/-! ## Files that exist -/

theorem mem_files_of_isFile {path : String} (h : isFile fs path = true) :
    path ∈ fs.map Prod.fst := by
  by_contra hnone
  rw [← Dict.get?_eq_none] at hnone
  simp [isFile, hnone] at h

theorem resolveWithExtensions_isFile {basePath path : String}
    (h : resolveWithExtensions host fs options basePath = some path) : isFile fs path = true := by
  rw [resolveWithExtensions] at h
  split at h
  · rename_i hfile
    rwa [← Option.some.inj h]
  · dsimp only at h
    split at h
    · rename_i hfound
      rw [← Option.some.inj h]
      exact List.find?_some hfound
    · exact List.find?_some h

theorem resolveImport_isFile {importPath fromFile path : String}
    (h : resolveImport host fs options importPath fromFile = some path) :
    isFile fs path = true := by
  rw [resolveImport] at h
  split at h
  · exact absurd h (by simp)
  split at h
  · exact resolveWithExtensions_isFile h
  split at h
  · exact resolveWithExtensions_isFile h
  · exact absurd h (by simp)

theorem dependenciesOf_isFile {imports : List ImportStatement} {filePath path : String}
    (h : path ∈ dependenciesOf host fs options imports filePath) : isFile fs path = true := by
  unfold dependenciesOf at h
  refine List.foldlRecOn imports _ (motive := fun found => ∀ p ∈ found, isFile fs p = true)
    (by simp) ?_ path h
  intro found hfound statement _ p hp
  split at hp
  · next resolved hresolved =>
    split at hp
    · exact hfound p hp
    · rcases List.mem_append.mp hp with hp | hp
      · exact hfound p hp
      · rw [List.mem_singleton.mp hp]
        exact resolveImport_isFile hresolved
  · exact hfound p hp

theorem importsOf_exist {filePath path : String}
    (h : path ∈ importsOf host fs options adapter filePath) : path ∈ fs.map Prod.fst :=
  mem_files_of_isFile (dependenciesOf_isFile h)

/-! ## Entry points -/

/-- The entry points that exist, resolved. -/
def resolvedEntries (host : Host) (fs : FileSystem) (entryPoints : List String) : List String :=
  (entryPoints.map fun entry => resolve host.cwd [entry]).filter (existsSync fs)

theorem resolvedEntries_exist {entryPoints : List String} {path : String}
    (h : path ∈ resolvedEntries host fs entryPoints) : path ∈ fs.map Prod.fst := by
  have hexists := List.of_mem_filter h
  by_contra hnone
  rw [← Dict.get?_eq_none] at hnone
  simp [existsSync, hnone] at hexists

theorem foldlM_walkEntry {C : Type} {isSupported : String → Bool}
    {parse : C → String → ParseResult Symbol × C} {fuel : ℕ} (entryPoints : List String)
    (w : WalkState Symbol C) :
    entryPoints.foldlM (walkEntry host fs options isSupported parse fuel) w =
      (resolvedEntries host fs entryPoints).foldlM
        (walkDependencies host fs options isSupported parse fuel [] 0) w := by
  induction entryPoints generalizing w with
  | nil => rfl
  | cons entry entryPoints ih =>
    rw [List.foldlM_cons, walkEntry, resolvedEntries, List.map_cons, List.filter_cons]
    split
    · rw [List.foldlM_cons]
      exact congrArg _ (funext fun v => ih v)
    · exact ih w

/-! ## The graph -/

theorem linkDependents_keys (nodes : Dict (DependencyNode Symbol)) :
    (linkDependents nodes).map Prod.fst = nodes.map Prod.fst := by
  have hone : ∀ (filePath dep : String) (linked : Dict (DependencyNode Symbol)),
      (addDependent filePath linked dep).map Prod.fst = linked.map Prod.fst := by
    intro filePath dep linked
    rw [addDependent, Dict.mapKey, List.map_map]
    apply List.map_congr_left
    intro e _
    rw [Function.comp_apply]
    split <;> rfl
  have hnode : ∀ (filePath : String) (deps : List String)
      (linked : Dict (DependencyNode Symbol)),
      (deps.foldl (addDependent filePath) linked).map Prod.fst = linked.map Prod.fst := by
    intro filePath deps
    induction deps with
    | nil => exact fun linked => rfl
    | cons dep deps ih => exact fun linked => (ih _).trans (hone filePath dep linked)
  have hall : ∀ entries linked : Dict (DependencyNode Symbol),
      (entries.foldl (fun linked entry =>
        entry.2.dependencies.foldl (addDependent entry.1) linked) linked).map Prod.fst =
          linked.map Prod.fst := by
    intro entries
    induction entries with
    | nil => exact fun linked => rfl
    | cons entry entries ih => exact fun linked => (ih _).trans (hnode _ _ linked)
  exact hall nodes nodes

/-- While the entries for the files in range are up to date, the graph is the one that is built
without caches. -/
theorem buildDependencyGraph_forget (options : ScoutOptions) {scout : Scout Symbol}
    (entryPoints : List String)
    (h : Serves host fs scout.adapter
      (InRange host fs options scout.adapter (resolvedEntries host fs entryPoints)) scout) :
    (buildDependencyGraph host fs options scout entryPoints).map Prod.fst =
      (buildWith host fs options (isSupported host scout.adapter)
        (freshParse host fs scout.adapter) (fuelFor fs) () entryPoints).map Prod.fst ∧
    ∀ graph scout', buildDependencyGraph host fs options scout entryPoints = some (graph, scout') →
      Serves host fs scout.adapter
        (InRange host fs options scout.adapter (resolvedEntries host fs entryPoints)) scout' := by
  have hwalk := foldlM_map (f := WalkState.forget)
    (I := fun v : WalkState Symbol (Scout Symbol) => Serves host fs scout.adapter
      (InRange host fs options scout.adapter (resolvedEntries host fs entryPoints)) v.caches)
    (fun v entry hentry hv => walk_forget (fuelFor fs) 0 []
      ⟨entry, hentry, .nil entry⟩ hv)
    (s := { nodes := [], visited := [], circularDeps := [], caches := scout }) h
  rw [buildDependencyGraph, buildWith, buildWith, foldlM_walkEntry, foldlM_walkEntry]
  refine ⟨?_, ?_⟩
  · have hgraph := congrArg (Option.map toGraph) hwalk.1
    rw [Option.map_map] at hgraph
    rw [Option.map_map, Option.map_map]
    exact hgraph
  · intro graph scout' hgraph
    obtain ⟨w, hw, heq⟩ := Option.map_eq_some_iff.mp hgraph
    rw [← (Prod.mk.inj heq).2]
    exact hwalk.2 w hw

/-! ## A new scout -/

/-- A scout whose adapter has these strategies and whose caches are empty. -/
def newScout (strategies : Dict (LanguageStrategy Symbol)) : Scout Symbol :=
  { adapter := { legacyByExt := strategies, cache := [] }, parseCache := [] }

theorem newScout_sound (strategies : Dict (LanguageStrategy Symbol)) :
    Sound (newScout strategies) :=
  ⟨fun _ _ h => absurd h (by simp [newScout]), fun _ _ h => absurd h (by simp [newScout])⟩

theorem newScout_upToDate (strategies : Dict (LanguageStrategy Symbol)) (path : String) :
    UpToDate host fs (newScout strategies) path :=
  ⟨fun _ h => absurd h (by simp [newScout]), fun _ _ _ _ _ _ h => absurd h (by simp [newScout])⟩

theorem newScout_serves (host : Host) (fs : FileSystem) (strategies : Dict (LanguageStrategy Symbol))
    (X : String → Prop) :
    Serves host fs (newScout strategies).adapter X (newScout strategies) :=
  ⟨newScout_sound strategies, rfl, fun path _ => newScout_upToDate strategies path⟩

theorem tooDeep_mono (options : ScoutOptions) (m n : ℕ) (hmn : m ≤ n)
    (h : options.tooDeep n = false) : options.tooDeep m = false := by
  rw [ScoutOptions.tooDeep] at h ⊢
  split at h
  · rename_i maxDepth _
    cases maxDepth with
    | finite value =>
      simp only [JsNumber.ltNat, decide_eq_false_iff_not, not_lt] at h ⊢
      exact le_trans (by exact_mod_cast hmn) h
    | nan => rfl
    | infinity negative => exact h
  · rfl

/-- Without caches the walk ends, and its nodes are the supported files that a depth-first walk
over the import graph visits. -/
theorem buildWith_visits (host : Host) (fs : FileSystem) (options : ScoutOptions)
    (adapter : Adapter Symbol) (entryPoints : List String) :
    ∃ graph seen, (buildWith host fs options (isSupported host adapter)
        (freshParse host fs adapter) (fuelFor fs) () entryPoints).map Prod.fst = some graph ∧
      visitAll (importsOf host fs options adapter) options.tooDeep (fuelFor fs)
        (resolvedEntries host fs entryPoints) = some seen ∧
      ∀ path, path ∈ graph.nodes.map Prod.fst ↔
        path ∈ seen ∧ isSupported host adapter path = true := by
  obtain ⟨seen, hseen⟩ := visitAll_total (importsOf host fs options adapter) options.tooDeep
    (fs.map Prod.fst) (fuelFor fs) (fun _ _ _ hb => importsOf_exist hb) (fun _ ha => resolvedEntries_exist ha)
    (by rw [List.length_map, fuelFor]; exact Nat.lt_succ_self _)
  have hwalk := foldlM_map (f := WalkState.visited) (I := Keyed (isSupported host adapter))
    (fun v entry (_ : entry ∈ resolvedEntries host fs entryPoints) hv =>
      walk_visits options fs (fuelFor fs) 0 [] hv)
    (s := { nodes := [], visited := [], circularDeps := [], caches := () })
    (fun path => by simp)
  have hsome := hwalk.1.trans hseen
  obtain ⟨w, hw, hvisited⟩ := Option.map_eq_some_iff.mp hsome
  refine ⟨toGraph w, seen, ?_, hseen, fun path => ?_⟩
  · rw [buildWith, foldlM_walkEntry, hw]
    rfl
  · rw [toGraph, linkDependents_keys, hwalk.2 w hw path, hvisited]

/-- The nodes are the supported files that a chain of at most `maxDepth` imports leads to from an
entry point. -/
def NodesExact (host : Host) (fs : FileSystem) (options : ScoutOptions) (adapter : Adapter Symbol)
    (entryPoints : List String) (graph : DependencyGraph Symbol) : Prop :=
  ∀ path, path ∈ graph.nodes.map Prod.fst ↔
    InRange host fs options adapter (resolvedEntries host fs entryPoints) path

/-- Wherever the walk drops a file because it was visited before, the supported files that the rest
of the depth allows from there have been visited too, or are among the extra ones. -/
abbrev NothingLost (host : Host) (fs : FileSystem) (options : ScoutOptions)
    (adapter : Adapter Symbol) (extra : String → Prop) (entryPoints : List String) : Prop :=
  KeepsAll (importsOf host fs options adapter) options.tooDeep
    (fun path => isSupported host adapter path = true) extra (fuelFor fs)
    (resolvedEntries host fs entryPoints)

/-- A language whose files are the names of what they import. -/
def nameLanguage : LanguageStrategy Unit where
  languageId := "names"
  extensions := [".ts"]
  parse source := .ok
    { hasError := false
      symbols := []
      imports := source.map fun u =>
        { modulePath := "./" ++ String.singleton (Char.ofNat u.toNat), importedSymbols := []
          isDefault := true, isNamespace := false, line := 1 } }

def plainHost : Host where
  cwd := "/"
  lowerCase := id

/-- `e` imports `a` and `b`, `a` imports `b`, and `b` imports `g`. -/
def diamondFiles : FileSystem :=
  [("/e.ts", .file [97, 98]), ("/a.ts", .file [98]), ("/b.ts", .file [103]), ("/g.ts", .file [])]

end RecursiveScout
end Batiste
