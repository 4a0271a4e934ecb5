import Batiste.ScoutReach
import Batiste.Transition

/-! One adapter and one scout that live as long as the server: files are edited, strategies are
registered, and the caches are asked again and again. -/
namespace Batiste
namespace ParseCacheRuns

open TreeSitterAdapter RecursiveScout DepthFirst Transition

variable {Symbol : Type} (host : Host) (options : ScoutOptions)

/-- The files, and the scout with its adapter. -/
structure World (Symbol : Type) where
  fs : FileSystem
  scout : Scout Symbol

inductive Query (Symbol : Type)
  | parseSource (source : Source) (filePath : String) (strategy : Option (LanguageStrategy Symbol))
  | parseFile (filePath : String)
  | buildDependencyGraph (entryPoints : List String)

inductive Action (Symbol : Type)
  | write (path : String) (entry : Entry)
  | remove (path : String)
  | registerStrategy (strategy : LanguageStrategy Symbol)
  | query (query : Query Symbol)
  | clearCache
  | invalidateCache (filePath : String)
  | clearScoutCache

/-- What a query returns; the time that parsing took is left out. -/
inductive Answer (Symbol : Type)
  | parse (result : ParseResult Symbol)
  | graph (graph : Option (DependencyGraph Symbol))

def World.withAdapter (w : World Symbol) (adapter : Adapter Symbol) : World Symbol :=
  { w with scout := { w.scout with adapter } }

/-- What a query returns, and what it leaves in the caches. -/
def ask (w : World Symbol) : Query Symbol → Answer Symbol × World Symbol
  | .parseSource source filePath strategy =>
    let (result, adapter) := parseSource host w.scout.adapter source filePath strategy
    (.parse result, w.withAdapter adapter)
  | .parseFile filePath =>
    let (result, adapter) := TreeSitterAdapter.parseFile host w.fs w.scout.adapter filePath
    (.parse result, w.withAdapter adapter)
  | .buildDependencyGraph entryPoints =>
    match buildDependencyGraph host w.fs options w.scout entryPoints with
    | some (graph, scout) => (.graph (some graph), { w with scout })
    | none => (.graph none, w)

def step (w : World Symbol) : Action Symbol → Option (World Symbol)
  | .write path entry => some { w with fs := w.fs.set path entry }
  | .remove path => some { w with fs := w.fs.erase path }
  | .registerStrategy strategy =>
    some (w.withAdapter (registerStrategy host w.scout.adapter strategy))
  | .query query => some (ask host options w query).2
  | .clearCache => some (w.withAdapter (clearCache w.scout.adapter))
  | .invalidateCache filePath =>
    some (w.withAdapter (invalidateCache w.scout.adapter filePath))
  | .clearScoutCache => some { w with scout := RecursiveScout.clearCache w.scout }

/-- New instances with the strategies registered so far, on the same files. -/
def World.fresh (w : World Symbol) : World Symbol :=
  { w with scout := newScout w.scout.adapter.legacyByExt }

/-- A query step is answered as new instances would answer it. -/
def Transparent (w : World Symbol) : Action Symbol → Prop
  | .query query => (ask host options w query).1 = (ask host options w.fresh query).1
  | _ => True

/-- What a query takes from the caches was made from the source, or the current contents of the
file, with the strategy that a new instance would use. -/
def Current (w : World Symbol) : Action Symbol → Prop
  | .query (.parseSource source filePath strategy) =>
    ∀ resolved, strategy.or (getStrategyForFile host w.scout.adapter filePath) = some resolved →
      Genuine w.scout.adapter resolved source filePath
  | .query (.parseFile filePath) =>
    ∀ strategy source, getStrategyForFile host w.scout.adapter filePath = some strategy →
      readFile w.fs filePath = .ok source → Genuine w.scout.adapter strategy source filePath
  | .query (.buildDependencyGraph entryPoints) =>
    ∀ path, InRange host w.fs options w.scout.adapter
        (resolvedEntries host w.fs entryPoints) path →
      UpToDate host w.fs w.scout path
  | _ => True

variable {host options}

/-! ## One query -/

theorem genuine_fresh (w : World Symbol) (strategy : LanguageStrategy Symbol) (source : Source)
    (path : String) : Genuine w.fresh.scout.adapter strategy source path :=
  fun _ h => absurd h (by simp [World.fresh, newScout])

theorem parsed_fresh (w : World Symbol) (path : String) :
    parsed host w.fs w.fresh.scout.adapter path = parsed host w.fs w.scout.adapter path :=
  parsed_congr rfl path

/-- A graph is built from caches as it is built without them. -/
theorem ask_build_eq {w : World Symbol} {entryPoints : List String}
    (h : Serves host w.fs w.scout.adapter (InRange host w.fs options w.scout.adapter
      (resolvedEntries host w.fs entryPoints)) w.scout) :
    (ask host options w (.buildDependencyGraph entryPoints)).1 =
      .graph ((buildWith host w.fs options (isSupported host w.scout.adapter)
        (freshParse host w.fs w.scout.adapter) (fuelFor w.fs) () entryPoints).map Prod.fst) := by
  rw [← (buildDependencyGraph_forget options entryPoints h).1, ask]
  cases buildDependencyGraph host w.fs options w.scout entryPoints <;> rfl

theorem ask_eq_fresh {w : World Symbol} (hsound : Sound w.scout) {query : Query Symbol}
    (hcurrent : Current host options w (.query query)) :
    (ask host options w query).1 = (ask host options w.fresh query).1 := by
  have hfresh : Sound w.fresh.scout := newScout_sound _
  cases query with
  | parseSource source filePath strategy =>
    show Answer.parse (parseSource host w.scout.adapter source filePath strategy).1 =
      .parse (parseSource host w.fresh.scout.adapter source filePath strategy).1
    congr 1
    cases hresolved : strategy.or (getStrategyForFile host w.scout.adapter filePath) with
    | none =>
      have hresolved' : strategy.or (getStrategyForFile host w.fresh.scout.adapter filePath) =
        none := hresolved
      rw [parseSource, hresolved, parseSource, hresolved']
    | some resolved =>
      rw [parseSource_eq hsound hresolved (hcurrent resolved hresolved),
        parseSource_eq hfresh hresolved (genuine_fresh w resolved source filePath)]
  | parseFile filePath =>
    show Answer.parse (TreeSitterAdapter.parseFile host w.fs w.scout.adapter filePath).1 =
      .parse (TreeSitterAdapter.parseFile host w.fs w.fresh.scout.adapter filePath).1
    rw [adapter_parseFile_eq hsound hcurrent,
      adapter_parseFile_eq hfresh fun strategy source _ _ => genuine_fresh w strategy source filePath,
      parsed_fresh]
  | buildDependencyGraph entryPoints =>
    rw [ask_build_eq ⟨hsound, rfl, hcurrent⟩, ask_build_eq (newScout_serves host _ _ _)]
    rfl

/-! ## Runs -/

theorem sound_of_adapter {scout : Scout Symbol} (h : Sound scout) {adapter' : Adapter Symbol}
    (hcache : ∀ path entry, adapter'.cache.get? path = some entry →
      scout.adapter.cache.get? path = some entry) :
    Sound { scout with adapter := adapter' } :=
  ⟨fun path entry hentry => h.parses path entry (hcache path entry hentry), h.files⟩

/-- A step that meets the condition leaves sound entries. -/
theorem step_sound {w w' : World Symbol} {a : Action Symbol} (hsound : Sound w.scout)
    (hcurrent : Current host options w a) (h : step host options w a = some w') :
    Sound w'.scout := by
  cases a with
  | write path entry =>
    rw [← Option.some.inj h]
    exact hsound
  | remove path =>
    rw [← Option.some.inj h]
    exact hsound
  | registerStrategy strategy =>
    rw [← Option.some.inj h]
    exact sound_of_adapter hsound fun _ _ hentry => hentry
  | clearCache =>
    rw [← Option.some.inj h]
    exact sound_of_adapter hsound fun _ _ hentry => absurd hentry (by simp [TreeSitterAdapter.clearCache])
  | invalidateCache filePath =>
    rw [← Option.some.inj h]
    refine sound_of_adapter hsound fun path entry hentry => ?_
    rw [invalidateCache, Dict.get?_erase] at hentry
    split at hentry
    · exact absurd hentry (by simp)
    · exact hentry
  | clearScoutCache =>
    rw [← Option.some.inj h]
    exact ⟨hsound.parses, fun _ _ hentry => absurd hentry (by simp [RecursiveScout.clearCache])⟩
  | query query =>
    rw [← Option.some.inj h]
    cases query with
    | parseSource source filePath strategy =>
      exact hsound.extends (parseSource_extends host _ source filePath strategy)
    | parseFile filePath => exact hsound.extends (adapter_parseFile_extends host _ _ filePath)
    | buildDependencyGraph entryPoints =>
      have hserves := (buildDependencyGraph_forget options entryPoints ⟨hsound, rfl, hcurrent⟩).2
      rw [ask]
      cases hbuild : buildDependencyGraph host w.fs options w.scout entryPoints with
      | none => exact hsound
      | some built => exact (hserves built.1 built.2 hbuild).sound

/-- The caches of new instances, with any strategies and on any files. -/
def start (fs : FileSystem) (strategies : Dict (LanguageStrategy Symbol)) : World Symbol :=
  { fs, scout := newScout strategies }

/-- In every run whose queries take only what is current from the caches, every query is answered
as new instances would answer it. -/
theorem answers_transparent {fs : FileSystem} {strategies : Dict (LanguageStrategy Symbol)}
    {as : List (Action Symbol)}
    (h : Each (step host options) (start fs strategies) as fun _ w a => Current host options w a) :
    Each (step host options) (start fs strategies) as fun _ w a =>
      Transparent host options w a := by
  intro pre a post w has hw
  have hbefore : Each (step host options) (start fs strategies) pre
      fun _ w a => Current host options w a := by
    rw [has] at h
    exact h.initial
  have hsound : Sound w.scout := by
    refine run_history (I := fun _ w => Sound w.scout) (newScout_sound strategies) ?_ hbefore hw
    exact fun _ v b v' _ hv hb hstep => step_sound hv hb hstep
  have hcurrent := h pre a post w has hw
  cases a with
  | query query => exact ask_eq_fresh hsound hcurrent
  | _ => trivial

/-! ## Stale answers -/

/-- A language whose files are their own one symbol. -/
def textLanguage : LanguageStrategy Source where
  languageId := "text"
  extensions := [".ts"]
  parse source := .ok { hasError := false, symbols := [source], imports := [] }

def oldFile : World Source := start [("/a.ts", .file [1])] [(".ts", textLanguage)]

/-- The symbols of the nodes of a graph. -/
def Answer.symbols : Answer Symbol → List (List Symbol)
  | .graph (some built) => built.nodes.map fun node => node.2.symbols
  | _ => []

def buildOld : Query Source := .buildDependencyGraph ["/a.ts"]

/-- A scout that has built a graph does not see an edit of its file. -/
theorem edit_not_seen : ¬ ∀ (fs : FileSystem) (strategies : Dict (LanguageStrategy Source))
    (as : List (Action Source)), Each (step plainHost {}) (start fs strategies) as fun _ w a =>
      Transparent plainHost {} w a := by
  intro h
  obtain ⟨w, hw⟩ : ∃ w, run (step plainHost {}) oldFile
      [.query buildOld, .write "/a.ts" (.file [2])] = some w := ⟨_, rfl⟩
  have hsame : (ask plainHost {} w buildOld).1 = (ask plainHost {} w.fresh buildOld).1 :=
    h _ _ [.query buildOld, .write "/a.ts" (.file [2]), .query buildOld]
      [.query buildOld, .write "/a.ts" (.file [2])] (.query buildOld) [] w rfl hw
  have hsymbols := congrArg Answer.symbols hsame
  obtain rfl := Option.some.inj hw
  exact absurd hsymbols (by decide +kernel)

/-- The first graph of a scout. -/
theorem answers_transparent_once :
    Each (step plainHost {}) (start [("/a.ts", .file [1])] [(".ts", textLanguage)])
      [.query buildOld] fun _ w a => Transparent plainHost {} w a := by
  refine answers_transparent ?_
  refine each_cons ?_ rfl (each_nil _ _)
  exact fun path _ => newScout_upToDate _ path

end ParseCacheRuns
end Batiste
