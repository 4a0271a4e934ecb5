import Batiste.CycleSearch
import Batiste.PathQueue
import Batiste.ScoutReach

/-! The cycles a scout reports and the import paths it finds. -/
namespace Batiste
namespace RecursiveScout

open NodePath TreeSitterAdapter DepthFirst

variable {Symbol C : Type} {host : Host} {fs : FileSystem} {options : ScoutOptions}

/-! ## The walk over whatever the caches answer -/

section Run

variable {isSupported : String → Bool} {parse : C → String → ParseResult Symbol × C}

/-- `nodes.get(file)?.dependencies` -/
def dependenciesIn (nodes : Dict (DependencyNode Symbol)) (file : String) : List String :=
  match nodes.get? file with
  | some node => node.dependencies
  | none => []

/-- A later state of the walk: what was visited stays, with its node. -/
structure Grows (w w' : WalkState Symbol C) : Prop where
  visited : w.visited ⊆ w'.visited
  nodes : ∀ file ∈ w.visited, w'.nodes.get? file = w.nodes.get? file

theorem Grows.refl (w : WalkState Symbol C) : Grows w w :=
  ⟨List.Subset.refl _, fun _ _ => rfl⟩

theorem Grows.trans {w₁ w₂ w₃ : WalkState Symbol C} (h₁ : Grows w₁ w₂) (h₂ : Grows w₂ w₃) :
    Grows w₁ w₃ := by
  refine ⟨List.Subset.trans h₁.visited h₂.visited, fun file hfile => ?_⟩
  rw [h₂.nodes file (h₁.visited hfile), h₁.nodes file hfile]

theorem Grows.dependenciesIn {w w' : WalkState Symbol C} (h : Grows w w') {file : String}
    (hfile : file ∈ w.visited) : dependenciesIn w'.nodes file = dependenciesIn w.nodes file := by
  rw [RecursiveScout.dependenciesIn, h.nodes file hfile]
  rfl

theorem record_grows (host : Host) (fs : FileSystem) (options : ScoutOptions)
    {w : WalkState Symbol C} {file : String} (hnew : file ∉ w.visited)
    (parsed : ParseResult Symbol) (caches : C) :
    Grows w (w.record host fs options file parsed caches) := by
  refine ⟨List.subset_append_left _ _, fun other hother => ?_⟩
  have hne : other ≠ file := by
    rintro rfl
    exact hnew hother
  rw [WalkState.record, Dict.get?_set, if_neg hne]

/-- Whatever the walk parses, its nodes stay the supported files among the visited ones. -/
theorem walk_grows {fuel depth : ℕ} {currentPath : List String} {w w' : WalkState Symbol C}
    {file : String} (hw : Keyed isSupported w)
    (h : walkDependencies host fs options isSupported parse fuel currentPath depth w file =
      some w') : Keyed isSupported w' ∧ Grows w w' := by
  induction fuel generalizing currentPath depth w w' file with
  | zero => exact absurd h (by simp [walkDependencies])
  | succ fuel ih =>
    rw [walkDependencies] at h
    split at h
    · rw [← Option.some.inj h]
      exact ⟨hw, .refl w⟩
    split at h
    · rw [← Option.some.inj h]
      exact ⟨hw, List.Subset.refl _, fun _ _ => rfl⟩
    split at h
    · rw [← Option.some.inj h]
      exact ⟨hw, .refl w⟩
    rename_i hnew
    split at h
    case isTrue hsupported =>
      refine foldlM_invariant (I := fun v => Keyed isSupported v ∧ Grows w v) ?_ ?_ h
      · exact fun s t dep _ hs ht => (ih hs.1 ht).imp_right hs.2.trans
      · exact ⟨hw.record host fs options hsupported _ _,
          record_grows host fs options hnew _ _⟩
    case isFalse hsupported =>
      rw [← Option.some.inj h]
      exact ⟨hw.skip (by simpa using hsupported), List.subset_append_left _ _, fun _ _ => rfl⟩

/-- What the walk has reported. -/
def WalkState.report (w : WalkState Symbol C) : Report String := ⟨w.visited, w.circularDeps⟩

/-- A pass of the walk is one over the edges that its nodes have in the end. -/
theorem foldlM_explores {step : WalkState Symbol C → String → Option (WalkState Symbol C)}
    {step' : Report String → String → Option (Report String)} {next : String → List String}
    {files : List String} {w w' : WalkState Symbol C}
    (hstep : ∀ s t, ∀ file ∈ files, Keyed isSupported s → step s file = some t →
      (Keyed isSupported t ∧ Grows s t) ∧
        ((∀ x ∈ t.visited, next x = dependenciesIn t.nodes x) → step' s.report file = some t.report))
    (hw : Keyed isSupported w) (h : files.foldlM step w = some w')
    (hnext : ∀ x ∈ w'.visited, next x = dependenciesIn w'.nodes x) :
    files.foldlM step' w.report = some w'.report := by
  induction files generalizing w with
  | nil =>
    obtain rfl : w = w' := by simpa using h
    rfl
  | cons file files ih =>
    obtain ⟨t, ht, hrest⟩ := foldlM_cons_iff.mp h
    obtain ⟨⟨hkeyed, -⟩, hfirst⟩ := hstep w t file List.mem_cons_self hw ht
    have hlater : ∀ s u, ∀ other ∈ files, Keyed isSupported s → step s other = some u →
        (Keyed isSupported u ∧ Grows s u) ∧
          ((∀ x ∈ u.visited, next x = dependenciesIn u.nodes x) →
            step' s.report other = some u.report) :=
      fun s u other hother => hstep s u other (List.mem_cons_of_mem file hother)
    have hgrows : Keyed isSupported w' ∧ Grows t w' :=
      foldlM_invariant (I := fun v => Keyed isSupported v ∧ Grows t v)
        (fun s u other hother hs hu => ((hlater s u other hother hs.1 hu).1).imp_right hs.2.trans)
        ⟨hkeyed, .refl t⟩ hrest
    have hnext' : ∀ x ∈ t.visited, next x = dependenciesIn t.nodes x := fun x hx => by
      rw [hnext x (hgrows.2.visited hx), hgrows.2.dependenciesIn hx]
    exact foldlM_cons_iff.mpr ⟨t.report, hfirst hnext', ih hlater hkeyed hrest⟩

theorem walk_explores {next : String → List String} {fuel depth : ℕ} {currentPath : List String}
    {w w' : WalkState Symbol C} {file : String} (hw : Keyed isSupported w)
    (h : walkDependencies host fs options isSupported parse fuel currentPath depth w file = some w')
    (hnext : ∀ x ∈ w'.visited, next x = dependenciesIn w'.nodes x) :
    explore next options.tooDeep fuel currentPath depth w.report file = some w'.report := by
  induction fuel generalizing currentPath depth w w' file with
  | zero => exact absurd h (by simp [walkDependencies])
  | succ fuel ih =>
    obtain ⟨hkeyed, hgrows⟩ := walk_grows hw h
    rw [walkDependencies] at h
    rw [explore]
    split at h
    case isTrue hdeep => rw [if_pos hdeep, Option.some.inj h]
    rename_i hdeep
    rw [if_neg hdeep]
    split at h
    case isTrue hback =>
      rw [if_pos hback, ← Option.some.inj h]
      rfl
    rename_i hback
    rw [if_neg hback]
    by_cases hvisited : file ∈ w.visited
    · rw [if_pos hvisited] at h
      rw [if_pos (show file ∈ w.report.visited from hvisited), Option.some.inj h]
    rw [if_neg hvisited] at h
    rw [if_neg (show file ∉ w.report.visited from hvisited)]
    split at h
    case isTrue hsupported =>
      have hrecorded := hw.record host fs options hsupported (parse w.caches file).1
        (parse w.caches file).2
      have hlater : Keyed isSupported w' ∧
          Grows (w.record host fs options file (parse w.caches file).1 (parse w.caches file).2) w' :=
        foldlM_invariant (I := fun v => Keyed isSupported v ∧ Grows _ v)
          (fun s t dep _ hs ht => (walk_grows hs.1 ht).imp_right hs.2.trans)
          ⟨hrecorded, .refl _⟩ h
      have hself : file ∈ (w.record host fs options file (parse w.caches file).1
          (parse w.caches file).2).visited := List.mem_append_right _ (List.mem_singleton_self file)
      have hedges : next file =
          dependenciesOf host fs options (parse w.caches file).1.imports file := by
        rw [hnext file (hlater.2.visited hself), hlater.2.dependenciesIn hself, dependenciesIn,
          WalkState.record, Dict.get?_set, if_pos rfl]
      rw [hedges]
      exact foldlM_explores (fun s t dep _ hs ht => ⟨walk_grows hs ht, ih hs ht⟩) hrecorded h hnext
    case isFalse hsupported =>
      obtain rfl := Option.some.inj h
      have hnone : w.nodes.get? file = none :=
        Dict.get?_eq_none.mpr fun hkey => hsupported ((hw file).mp hkey).2
      have hedges : next file = [] := by
        rw [hnext file (List.mem_append_right _ (List.mem_singleton_self file)), dependenciesIn, hnone]
      rw [hedges]
      rfl

/-- The walk ends, whatever it parses. -/
theorem walk_total {fuel depth : ℕ} {currentPath : List String} {w : WalkState Symbol C}
    {file : String} (hw : Keyed isSupported w) (hfile : file ∈ fs.map Prod.fst)
    (hfuel : room (fs.map Prod.fst) w.visited < fuel) :
    ∃ w', walkDependencies host fs options isSupported parse fuel currentPath depth w file =
      some w' ∧ Keyed isSupported w' ∧ room (fs.map Prod.fst) w'.visited < fuel := by
  suffices hends : ∃ w', walkDependencies host fs options isSupported parse fuel currentPath depth w
      file = some w' by
    obtain ⟨w', hw'⟩ := hends
    obtain ⟨hkeyed, hgrows⟩ := walk_grows hw hw'
    exact ⟨w', hw', hkeyed, lt_of_le_of_lt (room_anti hgrows.visited) hfuel⟩
  induction fuel generalizing currentPath depth w file with
  | zero => exact absurd hfuel (Nat.not_lt_zero _)
  | succ fuel ih =>
    rw [walkDependencies]
    split
    · exact ⟨w, rfl⟩
    split
    · exact ⟨_, rfl⟩
    split
    · exact ⟨w, rfl⟩
    rename_i hnew
    split
    case isFalse => exact ⟨_, rfl⟩
    case isTrue hsupported =>
      have hless : room (fs.map Prod.fst) (w.visited ++ [file]) < fuel :=
        lt_of_lt_of_le (room_lt hfile hnew) (Nat.lt_succ_iff.mp hfuel)
      have hstep : ∀ s : WalkState Symbol C,
          ∀ dep ∈ dependenciesOf host fs options (parse w.caches file).1.imports file,
          Keyed isSupported s ∧ room (fs.map Prod.fst) s.visited < fuel →
            ∃ t, walkDependencies host fs options isSupported parse fuel (currentPath ++ [file])
                (depth + 1) s dep = some t ∧
              Keyed isSupported t ∧ room (fs.map Prod.fst) t.visited < fuel := by
        rintro s dep hdep ⟨hs, hroom⟩
        obtain ⟨t, ht⟩ := ih hs (mem_files_of_isFile (dependenciesOf_isFile hdep)) hroom
        obtain ⟨hkeyed, hgrows⟩ := walk_grows hs ht
        exact ⟨t, ht, hkeyed, lt_of_le_of_lt (room_anti hgrows.visited) hroom⟩
      obtain ⟨w', hw', -⟩ := foldlM_total hstep ⟨hw.record host fs options hsupported _ _, hless⟩
      exact ⟨w', hw'⟩

/-- A walk whose parses do not depend on the caches records what they say. -/
theorem walk_dependencies {imports : String → List String}
    (hparse : ∀ caches file, dependenciesOf host fs options (parse caches file).1.imports file =
      imports file)
    {fuel depth : ℕ} {currentPath : List String} {w w' : WalkState Symbol C} {file : String}
    (h : walkDependencies host fs options isSupported parse fuel currentPath depth w file = some w')
    (hw : ∀ e ∈ w.nodes, e.2.dependencies = imports e.1) :
    ∀ e ∈ w'.nodes, e.2.dependencies = imports e.1 := by
  induction fuel generalizing currentPath depth w w' file with
  | zero => exact absurd h (by simp [walkDependencies])
  | succ fuel ih =>
    rw [walkDependencies] at h
    split at h
    · rwa [← Option.some.inj h]
    split at h
    · rwa [← Option.some.inj h]
    split at h
    · rwa [← Option.some.inj h]
    split at h
    case isFalse => rwa [← Option.some.inj h]
    case isTrue =>
      refine foldlM_invariant (I := fun v : WalkState Symbol C =>
        ∀ e ∈ v.nodes, e.2.dependencies = imports e.1) (fun s t dep _ hs ht => ih ht hs) ?_ h
      intro e he
      rcases Dict.mem_set he with ⟨hold, -⟩ | rfl
      · exact hw e hold
      · exact hparse w.caches file

end Run

/-! ## The graph -/

@[simp] theorem dependenciesIn_addDependent (filePath dep : String)
    (nodes : Dict (DependencyNode Symbol)) :
    dependenciesIn (addDependent filePath nodes dep) = dependenciesIn nodes := by
  funext file
  rw [dependenciesIn, dependenciesIn, addDependent, Dict.get?_mapKey]
  by_cases hdep : file = dep
  · rw [if_pos hdep]
    cases nodes.get? file with
    | none => rfl
    | some node =>
      rw [Option.map_some]
      dsimp only
      split <;> rfl
  · rw [if_neg hdep]

@[simp] theorem dependenciesIn_linkDependents (nodes : Dict (DependencyNode Symbol)) :
    dependenciesIn (linkDependents nodes) = dependenciesIn nodes := by
  refine List.foldlRecOn nodes _
    (motive := fun linked => dependenciesIn linked = dependenciesIn nodes) rfl ?_
  intro linked hlinked entry _
  refine List.foldlRecOn entry.2.dependencies _
    (motive := fun linked => dependenciesIn linked = dependenciesIn nodes) hlinked ?_
  intro linked hlinked dep _
  rw [dependenciesIn_addDependent, hlinked]

theorem toGraph_dependenciesOf (w : WalkState Symbol C) (file : String) :
    (toGraph w).dependenciesOf file = dependenciesIn w.nodes file :=
  congrFun (dependenciesIn_linkDependents w.nodes) file

/-- The walk over the entry points. -/
def walkAll (host : Host) (fs : FileSystem) (options : ScoutOptions) (isSupported : String → Bool)
    (parse : C → String → ParseResult Symbol × C) (caches : C) (entryPoints : List String) :
    Option (WalkState Symbol C) :=
  (resolvedEntries host fs entryPoints).foldlM
    (walkDependencies host fs options isSupported parse (fuelFor fs) [] 0)
    { nodes := [], visited := [], circularDeps := [], caches }

theorem buildWith_eq (host : Host) (fs : FileSystem) (options : ScoutOptions)
    (isSupported : String → Bool) (parse : C → String → ParseResult Symbol × C) (caches : C)
    (entryPoints : List String) :
    buildWith host fs options isSupported parse (fuelFor fs) caches entryPoints =
      (walkAll host fs options isSupported parse caches entryPoints).map
        fun w => (toGraph w, w.caches) := by
  rw [buildWith, foldlM_walkEntry, walkAll]

/-- The walk ends with a graph that a depth-first walk over the graph's own edges reports on,
whatever the caches answered. -/
theorem walkAll_explores (host : Host) (fs : FileSystem) (options : ScoutOptions)
    (isSupported : String → Bool) (parse : C → String → ParseResult Symbol × C) (caches : C)
    (entryPoints : List String) :
    ∃ w : WalkState Symbol C, Keyed isSupported w ∧
      walkAll host fs options isSupported parse caches entryPoints = some w ∧
      exploreAll (toGraph w).dependenciesOf options.tooDeep (fuelFor fs)
        (resolvedEntries host fs entryPoints) = some w.report := by
  have hempty : Keyed isSupported
      { nodes := [], visited := [], circularDeps := [], caches : WalkState Symbol C } :=
    fun path => by simp
  have hroom : room (fs.map Prod.fst) [] < fuelFor fs := by
    refine lt_of_le_of_lt (List.length_filter_le _ _) ?_
    rw [List.length_map]
    exact Nat.lt_succ_self _
  have hstep : ∀ s : WalkState Symbol C, ∀ entry ∈ resolvedEntries host fs entryPoints,
      Keyed isSupported s ∧ room (fs.map Prod.fst) s.visited < fuelFor fs →
        ∃ t, walkDependencies host fs options isSupported parse (fuelFor fs) [] 0 s entry = some t ∧
          Keyed isSupported t ∧ room (fs.map Prod.fst) t.visited < fuelFor fs :=
    fun s entry hentry hs => walk_total hs.1 (resolvedEntries_exist hentry) hs.2
  obtain ⟨w, hw, hkeyed, -⟩ := foldlM_total hstep ⟨hempty, hroom⟩
  refine ⟨w, hkeyed, hw, ?_⟩
  exact foldlM_explores (fun s t entry _ hs ht => ⟨walk_grows hs ht, walk_explores hs ht⟩) hempty
    hw fun file _ => toGraph_dependenciesOf w file

/-! ## Cycles -/

/-- The files the graph leads to from the entry points. -/
def reachableFiles (host : Host) (fs : FileSystem) (entryPoints : List String)
    (graph : DependencyGraph Symbol) : Set String :=
  { file | InReach graph.dependenciesOf (resolvedEntries host fs entryPoints) file }

/-- A path through fewer files than the limit allows is not too deep. -/
theorem tooDeep_of_ncard {R : String → Prop} (hfinite : { file | R file }.Finite)
    (hsize : options.tooDeep { file | R file }.ncard = false) (path : List String)
    (hnodup : path.Nodup) (hpath : ∀ file ∈ path, R file) : options.tooDeep path.length = false := by
  refine tooDeep_mono options _ _ ?_ hsize
  rw [← List.toFinset_card_of_nodup hnodup, ← Set.ncard_coe_finset]
  refine Set.ncard_le_ncard (fun file hfile => hpath file ?_) hfinite
  simpa using hfile

theorem reachableFiles_finite (host : Host) (fs : FileSystem) (entryPoints : List String)
    (graph : DependencyGraph Symbol) : (reachableFiles host fs entryPoints graph).Finite := by
  have hedge : ∀ file, ∀ dep ∈ graph.dependenciesOf file,
      dep ∈ graph.nodes.flatMap fun entry => entry.2.dependencies := by
    intro file dep hdep
    rw [DependencyGraph.dependenciesOf] at hdep
    split at hdep
    · rename_i node hnode
      exact List.mem_flatMap.mpr ⟨_, Dict.mem_of_get? hnode, hdep⟩
    · exact absurd hdep List.not_mem_nil
  refine (List.finite_toSet (resolvedEntries host fs entryPoints ++
    graph.nodes.flatMap fun entry => entry.2.dependencies)).subset ?_
  rintro file ⟨entry, hentry, n, hchain⟩
  exact hchain.closed (fun _ _ dep hdep => List.mem_append_right _ (hedge _ dep hdep))
    (List.mem_append_left _ hentry)

/-- Cycles are reported as the edges of the graph have them: at all where there are any and the
files are not more than the limit allows, and only such. -/
structure CyclesExact (host : Host) (fs : FileSystem) (options : ScoutOptions)
    (entryPoints : List String) (graph : DependencyGraph Symbol) : Prop where
  silent : options.tooDeep (reachableFiles host fs entryPoints graph).ncard = false →
    (graph.circularDeps = [] ↔ Acyclic graph.dependenciesOf (resolvedEntries host fs entryPoints))
  genuine : ∀ cycle ∈ graph.circularDeps, IsCycle graph.dependenciesOf cycle ∧
    ∀ file ∈ cycle, file ∈ reachableFiles host fs entryPoints graph

theorem cyclesExact_of_explores {entryPoints : List String} {w : WalkState Symbol C} {fuel : ℕ}
    (h : exploreAll (toGraph w).dependenciesOf options.tooDeep fuel
      (resolvedEntries host fs entryPoints) = some w.report) :
    CyclesExact host fs options entryPoints (toGraph w) := by
  refine ⟨fun hsize => ?_, fun cycle hcycle => exploreAll_genuine h cycle hcycle⟩
  exact exploreAll_silent_iff h (tooDeep_of_ncard (reachableFiles_finite _ _ _ _) hsize)

/-- The edges of the graph are the imports of the files. -/
def EdgesExact (host : Host) (fs : FileSystem) (options : ScoutOptions) (adapter : Adapter Symbol)
    (entryPoints : List String) (graph : DependencyGraph Symbol) : Prop :=
  options.tooDeep (reachableFiles host fs entryPoints graph).ncard = false →
    ∀ file ∈ reachableFiles host fs entryPoints graph,
      graph.dependenciesOf file = importsOf host fs options adapter file

theorem buildWith_edgesExact (host : Host) (fs : FileSystem) (options : ScoutOptions)
    (adapter : Adapter Symbol) (entryPoints : List String) {graph : DependencyGraph Symbol}
    (h : (buildWith host fs options (isSupported host adapter) (freshParse host fs adapter)
      (fuelFor fs) () entryPoints).map Prod.fst = some graph) :
    EdgesExact host fs options adapter entryPoints graph := by
  obtain ⟨w, hkeyed, hwalk, hexplore⟩ := walkAll_explores host fs options
    (isSupported host adapter) (freshParse host fs adapter) () entryPoints
  rw [buildWith_eq, hwalk] at h
  obtain rfl : toGraph w = graph := Option.some.inj h
  intro hsize file hfile
  have hvisited : file ∈ w.visited :=
    exploreAll_covers hexplore (tooDeep_of_ncard (reachableFiles_finite _ _ _ _) hsize) hfile
  have hparse : ∀ (caches : Unit) (file : String),
      dependenciesOf host fs options (freshParse host fs adapter caches file).1.imports file =
        importsOf host fs options adapter file := fun _ _ => rfl
  have hnodes : ∀ e ∈ w.nodes, e.2.dependencies = importsOf host fs options adapter e.1 := by
    refine foldlM_invariant (I := fun v : WalkState Symbol Unit =>
      ∀ e ∈ v.nodes, e.2.dependencies = importsOf host fs options adapter e.1) ?_ ?_ hwalk
    · exact fun s t entry _ hs ht => walk_dependencies hparse ht hs
    · exact fun e he => absurd he List.not_mem_nil
  rw [toGraph_dependenciesOf, dependenciesIn]
  cases hnode : w.nodes.get? file with
  | some node => exact hnodes _ (Dict.mem_of_get? hnode)
  | none =>
    have hunsupported : isSupported host adapter file = false := by
      rw [Bool.eq_false_iff]
      exact fun hsupported => Dict.get?_eq_none.mp hnode ((hkeyed file).mpr ⟨hvisited, hsupported⟩)
    exact (importsOf_unsupported hunsupported).symm

/-! ## Import paths -/

theorem findLoop_eq (toFile : String) (graph : DependencyGraph Symbol) (fuel : ℕ)
    (visited : List String) (queue : List (String × List String)) :
    findLoop toFile graph fuel visited queue =
      PathQueue.search graph.dependenciesOf toFile fuel visited queue := by
  induction fuel generalizing visited queue with
  | zero => rfl
  | succ fuel ih =>
    cases queue with
    | nil => rfl
    | cons e queue =>
      obtain ⟨file, path⟩ := e
      rw [findLoop, PathQueue.search, PathQueue.extensions, DependencyGraph.dependenciesOf]
      cases graph.nodes.get? file with
      | some node => simp only [ih]
      | none => simp [ih]

/-- How many edges the files have that were not expanded. -/
def edgesLeft (nodes : Dict (DependencyNode Symbol)) (visited : List String) : ℕ :=
  ((nodes.filter fun entry => entry.1 ∉ visited).map
    fun entry => entry.2.dependencies.length).sum

theorem edgesLeft_cons (entry : String × DependencyNode Symbol)
    (nodes : Dict (DependencyNode Symbol)) (visited : List String) :
    edgesLeft (entry :: nodes) visited =
      (if entry.1 ∈ visited then 0 else entry.2.dependencies.length) + edgesLeft nodes visited := by
  rw [edgesLeft, List.filter_cons]
  by_cases hvisited : entry.1 ∈ visited
  · simp [hvisited, edgesLeft]
  · simp [hvisited, edgesLeft]

theorem edgesLeft_anti (nodes : Dict (DependencyNode Symbol)) {visited seen : List String}
    (h : visited ⊆ seen) : edgesLeft nodes seen ≤ edgesLeft nodes visited := by
  induction nodes with
  | nil => exact le_rfl
  | cons entry nodes ih =>
    rw [edgesLeft_cons, edgesLeft_cons]
    by_cases hvisited : entry.1 ∈ visited
    · rw [if_pos hvisited, if_pos (h hvisited)]
      omega
    · rw [if_neg hvisited]
      split <;> omega

/-- The edges of a file are no longer left when it is expanded. -/
theorem edgesLeft_expand (nodes : Dict (DependencyNode Symbol)) (visited : List String)
    (file : String) (hnew : file ∉ visited) :
    (dependenciesIn nodes file).length + edgesLeft nodes (visited ++ [file]) ≤
      edgesLeft nodes visited := by
  induction nodes with
  | nil => exact le_rfl
  | cons entry nodes ih =>
    rw [dependenciesIn, Dict.get?_cons, edgesLeft_cons, edgesLeft_cons]
    by_cases hfile : entry.1 = file
    · have hless := edgesLeft_anti nodes (List.subset_append_left visited [file])
      rw [if_pos hfile, hfile, if_neg hnew, if_pos (by simp)]
      dsimp only
      omega
    · have hiff : entry.1 ∈ visited ++ [file] ↔ entry.1 ∈ visited := by simp [hfile]
      rw [dependenciesIn] at ih
      rw [if_neg hfile]
      simp only [hiff]
      omega

/-- The search ends for every graph, with a shortest path or with none. -/
theorem findImportPath_answers (fromFile toFile : String) (graph : DependencyGraph Symbol) :
    ∃ answer, findImportPath fromFile toFile graph = some answer ∧
      PathQueue.Answers graph.dependenciesOf fromFile toFile answer := by
  have hfuel : [(fromFile, [fromFile])].length + edgesLeft graph.nodes [] <
      (graph.nodes.map fun entry => entry.2.dependencies.length).sum + 2 := by
    simp only [edgesLeft, List.not_mem_nil, not_false_eq_true, decide_true, List.filter_true,
      List.length_singleton]
    omega
  obtain ⟨answer, hanswer⟩ := PathQueue.search_total graph.dependenciesOf toFile
    (edgesLeft_expand graph.nodes) hfuel
  rw [findImportPath, findLoop_eq]
  exact ⟨answer, hanswer, PathQueue.search_answers PathQueue.ready_start hanswer⟩

/-! ## Any scout and any graph -/

/-- Cycles are reported and import paths are found as the graph has them, by any scout; and where
its caches are up to date, the graph has the imports of the files. -/
theorem cycles_and_paths_exact (host : Host) (fs : FileSystem) (options : ScoutOptions) :
    (∀ (scout : Scout Symbol) (entryPoints : List String), ∃ graph scout',
      buildDependencyGraph host fs options scout entryPoints = some (graph, scout') ∧
        CyclesExact host fs options entryPoints graph ∧
        (Serves host fs scout.adapter
            (InRange host fs options scout.adapter (resolvedEntries host fs entryPoints)) scout →
          EdgesExact host fs options scout.adapter entryPoints graph)) ∧
    ∀ (graph : DependencyGraph Symbol) (fromFile toFile : String), ∃ answer,
      findImportPath fromFile toFile graph = some answer ∧
        PathQueue.Answers graph.dependenciesOf fromFile toFile answer := by
  refine ⟨fun scout entryPoints => ?_, fun graph fromFile toFile =>
    findImportPath_answers fromFile toFile graph⟩
  obtain ⟨w, -, hwalk, hexplore⟩ := walkAll_explores host fs options
    (isSupported host scout.adapter) (parseFile host fs) scout entryPoints
  have hbuild : buildDependencyGraph host fs options scout entryPoints =
      some (toGraph w, w.caches) := by
    rw [buildDependencyGraph, buildWith_eq, hwalk]
    rfl
  refine ⟨toGraph w, w.caches, hbuild, cyclesExact_of_explores hexplore, fun hserves => ?_⟩
  refine buildWith_edgesExact host fs options scout.adapter entryPoints ?_
  rw [← (buildDependencyGraph_forget options entryPoints hserves).1, hbuild]
  rfl

/-- Two entry points, a file that imports itself and a cycle of two: each cycle is reported. -/
example : (buildDependencyGraph plainHost
    [("/a.ts", .file [98]), ("/b.ts", .file [97, 98]), ("/c.ts", .file [97])] {}
    (newScout [(".ts", nameLanguage)]) ["/c.ts", "/a.ts"]).map (fun built => built.1.circularDeps) =
      some [["/a.ts", "/b.ts", "/a.ts"], ["/b.ts", "/b.ts"]] := by
  decide +kernel

end RecursiveScout
end Batiste
