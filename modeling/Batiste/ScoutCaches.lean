import Batiste.DepthFirst
import Batiste.RecursiveScout

/-! When the caches of a scout do not show: each entry says what it was made from, and while that
is still what a fresh instance would parse, the walk is that of a fresh instance. -/
namespace Batiste
namespace RecursiveScout

open TreeSitterAdapter DepthFirst

variable {Symbol : Type} {host : Host} {fs : FileSystem} {options : ScoutOptions}

/-! ## What a fresh instance parses -/

/-- The parse of a file from what was read, with the strategy for its extension. -/
def parsedFrom (strategy : Option (LanguageStrategy Symbol)) (read : Except String Source)
    (filePath : String) : ParseResult Symbol :=
  match strategy with
  | none => unsupported filePath
  | some strategy =>
    match read with
    | .ok source => parseWith strategy source filePath
    | .error message =>
      { filePath, language := strategy.languageId, symbols := [], imports := []
        errors := ["Failed to read file: " ++ message] }

def parsed (host : Host) (fs : FileSystem) (adapter : Adapter Symbol) (filePath : String) :
    ParseResult Symbol :=
  parsedFrom (getStrategyForFile host adapter filePath) (readFile fs filePath) filePath

/-- The import graph of the current files: what a file depends on. -/
def importsOf (host : Host) (fs : FileSystem) (options : ScoutOptions) (adapter : Adapter Symbol)
    (filePath : String) : List String :=
  dependenciesOf host fs options (parsed host fs adapter filePath).imports filePath

theorem importsOf_unsupported {adapter : Adapter Symbol} {filePath : String}
    (h : isSupported host adapter filePath = false) :
    importsOf host fs options adapter filePath = [] := by
  rw [isSupported, Option.isSome_eq_false_iff, Option.isNone_iff_eq_none] at h
  rw [importsOf, parsed, h]
  rfl

/-! ## Entries -/

/-- Every entry is the parse of what it says it was made from. -/
structure Sound (scout : Scout Symbol) : Prop where
  parses : ∀ path entry, scout.adapter.cache.get? path = some entry →
    entry.result = parseWith entry.strategy entry.source path ∧
      entry.sourceHash = hashSource entry.source
  files : ∀ path entry, scout.parseCache.get? path = some entry →
    entry.result = parsedFrom entry.strategy entry.read path

/-- The entry of the adapter that the hash of a source would accept was made from this source with
this strategy. -/
def Genuine (adapter : Adapter Symbol) (strategy : LanguageStrategy Symbol) (source : Source)
    (path : String) : Prop :=
  ∀ entry, adapter.cache.get? path = some entry → entry.sourceHash = hashSource source →
    entry.source = source ∧ entry.strategy = strategy

/-- What the scout has for a file was made from its current contents with its current strategy,
and so was what the adapter would take for the file. -/
structure UpToDate (host : Host) (fs : FileSystem) (scout : Scout Symbol) (path : String) :
    Prop where
  file : ∀ entry, scout.parseCache.get? path = some entry →
    entry.read = readFile fs path ∧ entry.strategy = getStrategyForFile host scout.adapter path
  parse : scout.parseCache.get? path = none → ∀ strategy source,
    getStrategyForFile host scout.adapter path = some strategy → readFile fs path = .ok source →
      Genuine scout.adapter strategy source path

/-- A source is parsed by the adapter as it would be without the cache. -/
theorem parseSource_eq {scout : Scout Symbol} (hsound : Sound scout)
    {strategy : Option (LanguageStrategy Symbol)} {resolved : LanguageStrategy Symbol}
    {source : Source} {path : String}
    (hresolved : strategy.or (getStrategyForFile host scout.adapter path) = some resolved)
    (hgenuine : Genuine scout.adapter resolved source path) :
    (parseSource host scout.adapter source path strategy).1 = parseWith resolved source path := by
  rw [parseSource, hresolved]
  simp only [cachedResult]
  cases hentry : scout.adapter.cache.get? path with
  | none => rfl
  | some entry =>
    by_cases hhash : entry.sourceHash = hashSource source
    · obtain ⟨hsource, hstrategy⟩ := hgenuine entry hentry hhash
      simp only [hhash, if_true]
      rw [(hsound.parses path entry hentry).1, hsource, hstrategy]
    · simp only [hhash, if_false]

theorem parseSource_adapter (host : Host) (adapter : Adapter Symbol) (source : Source)
    (path : String) (strategy : Option (LanguageStrategy Symbol)) :
    (parseSource host adapter source path strategy).2 = adapter ∨
      ∃ resolved, (parseSource host adapter source path strategy).2 =
        cacheParse adapter resolved source path := by
  rw [parseSource]
  split
  · exact Or.inl rfl
  · split
    · exact Or.inl rfl
    · exact Or.inr ⟨_, rfl⟩

theorem cacheParse_get? (adapter : Adapter Symbol) (strategy : LanguageStrategy Symbol)
    (source : Source) (path other : String) :
    (cacheParse adapter strategy source path).cache.get? other = adapter.cache.get? other ∨
      other = path ∧ (cacheParse adapter strategy source path).cache.get? other =
        some ⟨parseWith strategy source path, hashSource source, source, strategy⟩ := by
  rw [cacheParse]
  split
  · rw [Dict.get?_set]
    split
    case isTrue h => exact Or.inr ⟨h, rfl⟩
    case isFalse => exact Or.inl rfl
  · exact Or.inl rfl

@[simp] theorem cacheParse_legacyByExt (adapter : Adapter Symbol)
    (strategy : LanguageStrategy Symbol) (source : Source) (path : String) :
    (cacheParse adapter strategy source path).legacyByExt = adapter.legacyByExt := by
  rw [cacheParse]
  split <;> rfl

/-- What a parse leaves in the adapter: nothing new, or a sound entry of its path. -/
structure Extends (host : Host) (adapter adapter' : Adapter Symbol) (path : String) : Prop where
  strategies : adapter'.legacyByExt = adapter.legacyByExt
  entry : ∀ other e, adapter'.cache.get? other = some e →
    adapter.cache.get? other = some e ∨ other = path ∧
      e.result = parseWith e.strategy e.source path ∧ e.sourceHash = hashSource e.source

theorem Extends.refl (adapter : Adapter Symbol) (path : String) :
    Extends host adapter adapter path := ⟨rfl, fun _ _ h => Or.inl h⟩

theorem parseSource_extends (host : Host) (adapter : Adapter Symbol) (source : Source)
    (path : String) (strategy : Option (LanguageStrategy Symbol)) :
    Extends host adapter (parseSource host adapter source path strategy).2 path := by
  rcases parseSource_adapter host adapter source path strategy with hsame | ⟨resolved, hnew⟩
  · rw [hsame]
    exact .refl adapter path
  · rw [hnew]
    refine ⟨cacheParse_legacyByExt adapter resolved source path, fun other e he => ?_⟩
    rcases cacheParse_get? adapter resolved source path other with hold | ⟨hpath, hentry⟩
    · exact Or.inl (hold ▸ he)
    · rw [hentry] at he
      obtain rfl := Option.some.inj he
      exact Or.inr ⟨hpath, rfl, rfl⟩

theorem adapter_parseFile_extends (host : Host) (fs : FileSystem) (adapter : Adapter Symbol)
    (path : String) :
    Extends host adapter (TreeSitterAdapter.parseFile host fs adapter path).2 path := by
  rw [TreeSitterAdapter.parseFile]
  split
  · exact .refl adapter path
  · split
    · exact parseSource_extends host adapter _ path _
    · exact .refl adapter path

theorem adapter_parseFile_eq {scout : Scout Symbol} (hsound : Sound scout) {path : String}
    (hgenuine : ∀ strategy source, getStrategyForFile host scout.adapter path = some strategy →
      readFile fs path = .ok source → Genuine scout.adapter strategy source path) :
    (TreeSitterAdapter.parseFile host fs scout.adapter path).1 =
      parsed host fs scout.adapter path := by
  rw [TreeSitterAdapter.parseFile, parsed]
  cases hstrategy : getStrategyForFile host scout.adapter path with
  | none => rfl
  | some strategy =>
    cases hread : readFile fs path with
    | error message => rfl
    | ok source => exact parseSource_eq hsound rfl (hgenuine strategy source hstrategy hread)

theorem getStrategyForFile_congr (host : Host) {adapter adapter' : Adapter Symbol}
    (h : adapter'.legacyByExt = adapter.legacyByExt) (path : String) :
    getStrategyForFile host adapter' path = getStrategyForFile host adapter path := by
  rw [getStrategyForFile, h]
  rfl

theorem parsed_congr {adapter adapter' : Adapter Symbol}
    (h : adapter'.legacyByExt = adapter.legacyByExt) (path : String) :
    parsed host fs adapter' path = parsed host fs adapter path := by
  rw [parsed, getStrategyForFile_congr host h]
  rfl

/-! ## `parseFile` of the scout -/

theorem parseFile_of_cached {scout : Scout Symbol} {path : String} {entry : CachedFile Symbol}
    (h : scout.parseCache.get? path = some entry) :
    parseFile host fs scout path = (entry.result, scout) := by
  rw [parseFile, h]

theorem parseFile_of_new {scout : Scout Symbol} {path : String}
    (h : scout.parseCache.get? path = none) :
    parseFile host fs scout path =
      ((TreeSitterAdapter.parseFile host fs scout.adapter path).1,
        { adapter := (TreeSitterAdapter.parseFile host fs scout.adapter path).2
          parseCache := scout.parseCache.set path
            { result := (TreeSitterAdapter.parseFile host fs scout.adapter path).1
              read := readFile fs path
              strategy := getStrategyForFile host scout.adapter path } }) := by
  rw [parseFile, h]

theorem parseFile_strategies (scout : Scout Symbol) (path : String) :
    (parseFile host fs scout path).2.adapter.legacyByExt = scout.adapter.legacyByExt := by
  cases h : scout.parseCache.get? path with
  | some entry => rw [parseFile_of_cached h]
  | none =>
    rw [parseFile_of_new h]
    exact (adapter_parseFile_extends host fs scout.adapter path).strategies

/-- A file whose entries are up to date is parsed as a fresh instance would parse it. -/
theorem parseFile_eq {scout : Scout Symbol} (hsound : Sound scout) {path : String}
    (h : UpToDate host fs scout path) :
    (parseFile host fs scout path).1 = parsed host fs scout.adapter path := by
  cases hcached : scout.parseCache.get? path with
  | some entry =>
    obtain ⟨hread, hstrategy⟩ := h.file entry hcached
    rw [parseFile_of_cached hcached, hsound.files path entry hcached, hread, hstrategy]
    rfl
  | none =>
    rw [parseFile_of_new hcached]
    exact adapter_parseFile_eq hsound (h.parse hcached)

theorem Sound.extends {scout : Scout Symbol} (hsound : Sound scout) {adapter' : Adapter Symbol}
    {path : String} (h : Extends host scout.adapter adapter' path) :
    Sound { scout with adapter := adapter' } := by
  refine ⟨fun other e he => ?_, hsound.files⟩
  rcases h.entry other e he with hold | ⟨rfl, hnew⟩
  · exact hsound.parses other e hold
  · exact hnew

/-- The parse of a file from the file system, whether its entries are up to date or not. -/
theorem parseFile_upToDate {scout : Scout Symbol} {path other : String}
    (h : UpToDate host fs scout other) :
    UpToDate host fs (parseFile host fs scout path).2 other := by
  cases hcached : scout.parseCache.get? path with
  | some entry => rwa [parseFile_of_cached hcached]
  | none =>
    have hextends := adapter_parseFile_extends host fs scout.adapter path
    have hstrategy := getStrategyForFile_congr host hextends.strategies
    rw [parseFile_of_new hcached]
    constructor
    · intro entry hentry
      rw [Dict.get?_set] at hentry
      split at hentry
      case isTrue hother =>
        obtain rfl := Option.some.inj hentry
        exact ⟨by rw [hother], by rw [hstrategy, hother]⟩
      case isFalse => rw [hstrategy]; exact h.file entry hentry
    · intro hnone strategy source hfile hread entry hentry hhash
      rw [Dict.get?_set] at hnone
      split at hnone
      case isTrue => exact absurd hnone (by simp)
      case isFalse hother =>
        rw [hstrategy] at hfile
        rcases hextends.entry other entry hentry with hold | ⟨hpath, -⟩
        · exact h.parse hnone strategy source hfile hread entry hold hhash
        · exact absurd hpath hother

theorem parseFile_sound {scout : Scout Symbol} (hsound : Sound scout) {path : String}
    (h : UpToDate host fs scout path) : Sound (parseFile host fs scout path).2 := by
  have heq := parseFile_eq hsound h
  cases hcached : scout.parseCache.get? path with
  | some entry => rwa [parseFile_of_cached hcached]
  | none =>
    rw [parseFile_of_new hcached] at heq ⊢
    have hextends := adapter_parseFile_extends host fs scout.adapter path
    refine ⟨(hsound.extends hextends).parses, fun other entry hentry => ?_⟩
    rw [Dict.get?_set] at hentry
    split at hentry
    case isTrue hother =>
      obtain rfl := Option.some.inj hentry
      rw [hother]
      exact heq
    case isFalse => exact hsound.files other entry hentry

/-! ## The walk without caches -/

variable {adapter : Adapter Symbol}

/-- Parsing every file as a fresh instance would. -/
def freshParse (host : Host) (fs : FileSystem) (adapter : Adapter Symbol) (_ : Unit)
    (filePath : String) : ParseResult Symbol × Unit :=
  (parsed host fs adapter filePath, ())

def WalkState.forget {C : Type} (w : WalkState Symbol C) : WalkState Symbol Unit :=
  { w with caches := () }

/-- The scout still has the strategies, and its entries for some files are up to date. -/
structure Serves (host : Host) (fs : FileSystem) (adapter : Adapter Symbol) (X : String → Prop)
    (scout : Scout Symbol) : Prop where
  sound : Sound scout
  strategies : scout.adapter.legacyByExt = adapter.legacyByExt
  upToDate : ∀ path, X path → UpToDate host fs scout path

theorem Serves.parseFile {X : String → Prop} {scout : Scout Symbol}
    (h : Serves host fs adapter X scout) {path : String} (hpath : X path) :
    (parseFile host fs scout path).1 = parsed host fs adapter path ∧
      Serves host fs adapter X (parseFile host fs scout path).2 := by
  refine ⟨?_, parseFile_sound h.sound (h.upToDate path hpath), ?_, ?_⟩
  · rw [parseFile_eq h.sound (h.upToDate path hpath), parsed_congr h.strategies]
  · rw [parseFile_strategies, h.strategies]
  · exact fun other hother => parseFile_upToDate (h.upToDate other hother)

/-- A supported file that a chain of imports within the limit leads to from one of the entries. -/
abbrev InRange (host : Host) (fs : FileSystem) (options : ScoutOptions) (adapter : Adapter Symbol)
    (entries : List String) : String → Prop :=
  Reached (importsOf host fs options adapter) options.tooDeep
    (fun path => isSupported host adapter path = true) entries

/-- While the entries for the files in range are up to date, the walk is the one without caches. -/
theorem walk_forget {entries : List String} (fuel depth : ℕ) (currentPath : List String)
    {w : WalkState Symbol (Scout Symbol)} {filePath : String}
    (hfrom : ∃ entry ∈ entries, Chain (importsOf host fs options adapter) depth entry filePath)
    (hw : Serves host fs adapter (InRange host fs options adapter entries) w.caches) :
    (walkDependencies host fs options (isSupported host adapter) (parseFile host fs) fuel
        currentPath depth w filePath).map WalkState.forget =
      walkDependencies host fs options (isSupported host adapter) (freshParse host fs adapter) fuel
        currentPath depth w.forget filePath ∧
    ∀ w', walkDependencies host fs options (isSupported host adapter) (parseFile host fs) fuel
        currentPath depth w filePath = some w' →
      Serves host fs adapter (InRange host fs options adapter entries) w'.caches := by
  induction fuel generalizing currentPath depth w filePath with
  | zero => exact ⟨rfl, fun w' h => absurd h (by simp [walkDependencies])⟩
  | succ fuel ih =>
    have hsame : ∀ v : WalkState Symbol (Scout Symbol), v.caches = w.caches →
        ∀ w', some v = some w' →
          Serves host fs adapter (InRange host fs options adapter entries) w'.caches := by
      rintro v hv w' hw'
      rw [← Option.some.inj hw', hv]
      exact hw
    rw [walkDependencies, walkDependencies]
    split
    · exact ⟨rfl, hsame w rfl⟩
    rename_i hdepth
    split
    · exact ⟨rfl, hsame _ rfl⟩
    by_cases hvisited : filePath ∈ w.visited
    · rw [if_pos hvisited, if_pos (show filePath ∈ w.forget.visited from hvisited)]
      exact ⟨rfl, hsame w rfl⟩
    rw [if_neg hvisited, if_neg (show filePath ∉ w.forget.visited from hvisited)]
    split
    case isFalse => exact ⟨rfl, hsame _ rfl⟩
    case isTrue hsupported =>
      obtain ⟨entry, hentry, hchain⟩ := hfrom
      have hrange : InRange host fs options adapter entries filePath :=
        ⟨entry, hentry, hsupported, depth, hchain, by simpa using hdepth⟩
      obtain ⟨hparse, hserves⟩ := hw.parseFile hrange
      simp only [freshParse, hparse]
      refine foldlM_map (f := WalkState.forget)
        (I := fun v => Serves host fs adapter (InRange host fs options adapter entries) v.caches)
        (fun v b hb hv => ih _ _ ⟨entry, hentry, hchain.snoc hb⟩ hv) ?_
      exact hserves

/-- The nodes are the supported files that were visited. -/
def Keyed {C : Type} (isSupported : String → Bool) (w : WalkState Symbol C) : Prop :=
  ∀ path, path ∈ w.nodes.map Prod.fst ↔ path ∈ w.visited ∧ isSupported path = true

theorem Keyed.record {C : Type} {isSupported : String → Bool} {w : WalkState Symbol C}
    (hw : Keyed isSupported w) (host : Host) (fs : FileSystem) (options : ScoutOptions) {file : String}
    (hsupported : isSupported file = true) (parsed : ParseResult Symbol) (caches : C) :
    Keyed isSupported (w.record host fs options file parsed caches) := by
  intro path
  rw [WalkState.record, Dict.mem_keys_set, hw path, List.mem_append, List.mem_singleton]
  constructor
  · rintro (rfl | ⟨hpath, hsup⟩)
    · exact ⟨Or.inr rfl, hsupported⟩
    · exact ⟨Or.inl hpath, hsup⟩
  · rintro ⟨hpath | rfl, hsup⟩
    · exact Or.inr ⟨hpath, hsup⟩
    · exact Or.inl rfl

theorem Keyed.skip {C : Type} {isSupported : String → Bool} {w : WalkState Symbol C}
    (hw : Keyed isSupported w) {file : String}
    (hsupported : isSupported file = false) :
    Keyed isSupported { w with visited := w.visited ++ [file] } := by
  intro path
  rw [hw path, List.mem_append, List.mem_singleton]
  constructor
  · exact fun h => ⟨Or.inl h.1, h.2⟩
  · rintro ⟨hpath | rfl, hsup⟩
    · exact ⟨hpath, hsup⟩
    · exact absurd hsup (by simp [hsupported])

/-- The walk visits what a depth-first walk over the import graph visits. -/
theorem walk_visits (options : ScoutOptions) (fs : FileSystem) (fuel depth : ℕ)
    (currentPath : List String) {w : WalkState Symbol Unit}
    {filePath : String} (hw : Keyed (isSupported host adapter) w) :
    (walkDependencies host fs options (isSupported host adapter) (freshParse host fs adapter) fuel
        currentPath depth w filePath).map WalkState.visited =
      visit (importsOf host fs options adapter) options.tooDeep fuel currentPath depth w.visited
        filePath ∧
    ∀ w', walkDependencies host fs options (isSupported host adapter) (freshParse host fs adapter)
        fuel currentPath depth w filePath = some w' → Keyed (isSupported host adapter) w' := by
  induction fuel generalizing currentPath depth w filePath with
  | zero => exact ⟨rfl, fun w' h => absurd h (by simp [walkDependencies])⟩
  | succ fuel ih =>
    have hsame : ∀ v : WalkState Symbol Unit, v.visited = w.visited → v.nodes = w.nodes →
        ∀ w', some v = some w' → Keyed (isSupported host adapter) w' := by
      intro v hv hnodes w' hw' path
      rw [← Option.some.inj hw', hv, hnodes]
      exact hw path
    rw [walkDependencies, visit]
    split
    · exact ⟨rfl, hsame w rfl rfl⟩
    split
    · exact ⟨rfl, hsame _ rfl rfl⟩
    split
    · exact ⟨rfl, hsame w rfl rfl⟩
    rename_i hvisited
    split
    case isTrue hsupported =>
      exact foldlM_map (f := WalkState.visited) (I := Keyed (isSupported host adapter))
        (fun v b _ hv => ih _ _ hv) (hw.record host fs options hsupported _ _)
    case isFalse hsupported =>
      rw [importsOf_unsupported (by simpa using hsupported)]
      refine ⟨rfl, fun w' hw' => ?_⟩
      rw [← Option.some.inj hw']
      exact hw.skip (by simpa using hsupported)

end RecursiveScout
end Batiste
