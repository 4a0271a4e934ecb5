import Batiste.Chronicle

/-! The watcher of files: changes are gathered until none has come for a while, and told at once. -/
namespace Batiste
namespace FileWatcher

open Chronicle Transition

/-- The wait, ms; the relative path of a file that `watch` names; the patterns that are ignored. -/
structure Options where
  debounceMs : ℕ
  relativePath : String → String
  shouldIgnore : String → Bool

/-- What was seen and told, with the time. -/
inductive Entry
  | change (time : ℕ) (path : String)
  | batch (time : ℕ) (paths : List String)
  | stopped
  deriving DecidableEq

structure State where
  watching : Bool := false
  pendingChanges : List String := []
  debounceTimer : Option ℕ := none
  /-- The timers that run, with their deadlines. -/
  timers : List (ℕ × ℕ) := []
  nextTimer : ℕ := 0
  clock : ℕ := 0
  log : List Entry := []

inductive Action
  /-- `watch` may throw. -/
  | start (opened : Bool)
  | stop
  | change (filename : Option String)
  | fire (timer : ℕ)
  | elapse (ms : ℕ)

section Machine

variable (opts : Options)

/-- A path once. -/
def addPath (paths : List String) (path : String) : List String :=
  if path ∈ paths then paths else paths ++ [path]

/-- `clearTimeout(this.debounceTimer)` -/
def clearTimer (s : State) : State :=
  { s with timers := s.timers.filter fun timer => some timer.1 ≠ s.debounceTimer }

def scheduleFlush (s : State) : State :=
  let cleared := clearTimer s
  { cleared with
    debounceTimer := some s.nextTimer
    timers := cleared.timers ++ [(s.nextTimer, s.clock + opts.debounceMs)]
    nextTimer := s.nextTimer + 1 }

def handleChange (filename : String) (s : State) : State :=
  let path := opts.relativePath filename
  if opts.shouldIgnore path then s
  else
    scheduleFlush opts { s with
      pendingChanges := addPath s.pendingChanges path
      log := s.log ++ [.change s.clock path] }

def flush (s : State) : State :=
  if s.pendingChanges = [] then s
  else
    { s with
      pendingChanges := []
      debounceTimer := none
      log := s.log ++ [.batch s.clock s.pendingChanges] }

def stop (s : State) : State :=
  { clearTimer s with
    debounceTimer := none
    pendingChanges := []
    watching := false
    log := s.log ++ [.stopped] }

/-- Nothing comes from a watcher that is closed; a timer fires at its deadline or later. -/
def step (s : State) : Action → Option State
  | .start opened => some (if s.watching then s else { s with watching := opened })
  | .stop => some (stop s)
  | .change filename =>
    if s.watching then
      some (((filename.filter fun name => name ≠ "").map fun name => handleChange opts name s).getD s)
    else none
  | .fire timer =>
    if s.timers.any fun t => t.1 = timer ∧ t.2 ≤ s.clock then
      some (flush { s with timers := s.timers.filter fun t => t.1 ≠ timer })
    else none
  | .elapse ms => some { s with clock := s.clock + ms }

end Machine

/-! ## What the log says -/

def gather (paths : List String) : Entry → List String
  | .change _ path => addPath paths path
  | .batch _ _ => []
  | .stopped => []

/-- The paths that changed since the last batch or stop. -/
def since (log : List Entry) : List String := log.foldl gather []

@[simp] theorem since_snoc (log : List Entry) (e : Entry) :
    since (log ++ [e]) = gather (since log) e := by
  rw [since, List.foldl_append]
  rfl

variable (opts : Options)

/-- A batch tells what changed since the last one, after a wait in which nothing did. -/
def Justified (before : List Entry) : Entry → Prop
  | .change _ path => opts.shouldIgnore path = false
  | .batch time paths =>
    paths = since before ∧ paths ≠ [] ∧
      ∀ t path, Entry.change t path ∈ before → t + opts.debounceMs ≤ time
  | .stopped => True

/-- One timer runs while changes wait, and its deadline is behind all of them. -/
structure Waiting (s : State) (timer deadline : ℕ) : Prop where
  timers : s.timers = [(timer, deadline)]
  debounceTimer : s.debounceTimer = some timer
  quiet : ∀ t path, Entry.change t path ∈ s.log → t + opts.debounceMs ≤ deadline
  soon : deadline ≤ s.clock + opts.debounceMs

structure Inv (s : State) : Prop where
  told : Told (Justified opts) s.log
  pending : s.pendingChanges = since s.log
  past : ∀ t path, Entry.change t path ∈ s.log → t ≤ s.clock
  idle : s.pendingChanges = [] → s.timers = []
  waiting : s.pendingChanges ≠ [] → ∃ timer deadline, Waiting opts s timer deadline

variable {opts} {s : State}

theorem addPath_ne_nil (paths : List String) (path : String) : addPath paths path ≠ [] := by
  unfold addPath
  split_ifs with hmem
  · exact List.ne_nil_of_mem hmem
  · simp

theorem mem_addPath {paths : List String} {path p : String} :
    p ∈ addPath paths path ↔ p ∈ paths ∨ p = path := by
  unfold addPath
  split_ifs with hmem
  · exact ⟨.inl, fun h => h.elim id fun heq => heq ▸ hmem⟩
  · simp

/-- The timer that runs is the one that is cleared. -/
theorem Inv.clearTimer (h : Inv opts s) : (clearTimer s).timers = [] := by
  unfold FileWatcher.clearTimer
  by_cases hpending : s.pendingChanges = []
  · simp [h.idle hpending]
  · obtain ⟨timer, deadline, hwait⟩ := h.waiting hpending
    simp [hwait.timers, hwait.debounceTimer]

theorem Inv.change (h : Inv opts s) (filename : String) : Inv opts (handleChange opts filename s) := by
  unfold handleChange
  dsimp only
  split_ifs with hignore
  · exact h
  · have hcleared := h.clearTimer
    unfold FileWatcher.clearTimer at hcleared
    unfold scheduleFlush FileWatcher.clearTimer
    simp only at hcleared ⊢
    rw [hcleared, List.nil_append]
    constructor
    · exact h.told.snoc (Bool.eq_false_iff.mpr hignore)
    · simp only [since_snoc, gather, h.pending]
    · intro t path hmem
      rcases List.mem_append.mp hmem with hmem | hmem
      · exact h.past t path hmem
      · obtain ⟨rfl, -⟩ := Entry.change.inj (List.mem_singleton.mp hmem)
        exact le_refl _
    · intro hnil
      exact absurd hnil (addPath_ne_nil _ _)
    · intro _
      refine ⟨_, _, rfl, rfl, fun t path hmem => ?_, le_refl _⟩
      rcases List.mem_append.mp hmem with hmem | hmem
      · exact Nat.add_le_add_right (h.past t path hmem) _
      · obtain ⟨rfl, -⟩ := Entry.change.inj (List.mem_singleton.mp hmem)
        exact le_refl _

theorem Inv.stop (h : Inv opts s) : Inv opts (stop s) := by
  have hcleared := h.clearTimer
  refine ⟨h.told.snoc trivial, by simp [FileWatcher.stop, gather], fun t path hmem => ?_,
    fun _ => hcleared, fun hne => absurd rfl hne⟩
  rcases List.mem_append.mp hmem with hmem | hmem
  · exact h.past t path hmem
  · cases List.mem_singleton.mp hmem

/-- What a timer tells when it fires. -/
theorem Inv.fire (h : Inv opts s) {timer : ℕ}
    (hdue : (s.timers.any fun t => t.1 = timer ∧ t.2 ≤ s.clock) = true) :
    flush { s with timers := s.timers.filter fun t => t.1 ≠ timer } =
      { s with
        timers := [], pendingChanges := [], debounceTimer := none
        log := s.log ++ [.batch s.clock s.pendingChanges] } ∧
      Justified opts s.log (.batch s.clock s.pendingChanges) := by
  have hpending : s.pendingChanges ≠ [] := by
    intro hnil
    rw [h.idle hnil] at hdue
    cases hdue
  obtain ⟨running, deadline, hwait⟩ := h.waiting hpending
  rw [hwait.timers] at hdue ⊢
  obtain ⟨rfl, hpast⟩ : running = timer ∧ deadline ≤ s.clock := by simpa using hdue
  refine ⟨?_, h.pending, hpending, fun t path hmem => (hwait.quiet t path hmem).trans hpast⟩
  rw [flush, if_neg hpending]
  simp

theorem Inv.elapse (h : Inv opts s) (ms : ℕ) : Inv opts { s with clock := s.clock + ms } := by
  refine ⟨h.told, h.pending, fun t path hmem => (h.past t path hmem).trans (Nat.le_add_right _ _),
    h.idle, fun hne => ?_⟩
  obtain ⟨timer, deadline, hwait⟩ := h.waiting hne
  refine ⟨timer, deadline, hwait.timers, hwait.debounceTimer, hwait.quiet, ?_⟩
  have hsoon := hwait.soon
  change deadline ≤ s.clock + ms + opts.debounceMs
  omega

theorem inv_step {t : State} {a : Action} (h : Inv opts s) (hs : step opts s a = some t) :
    Inv opts t := by
  cases a with
  | start opened =>
    obtain rfl := Option.some.inj hs
    split_ifs
    · exact h
    · exact ⟨h.told, h.pending, h.past, h.idle, fun hne => by
        obtain ⟨timer, deadline, hwait⟩ := h.waiting hne
        exact ⟨timer, deadline, hwait.timers, hwait.debounceTimer, hwait.quiet, hwait.soon⟩⟩
  | stop =>
    obtain rfl := Option.some.inj hs
    exact h.stop
  | change filename =>
    rw [step] at hs
    split_ifs at hs
    obtain rfl := Option.some.inj hs
    cases filename.filter fun name => name ≠ "" with
    | none => exact h
    | some name => exact h.change name
  | fire timer =>
    rw [step] at hs
    split_ifs at hs with hdue
    obtain rfl := Option.some.inj hs
    obtain ⟨hflush, hjustified⟩ := h.fire hdue
    rw [hflush]
    refine ⟨h.told.snoc hjustified, by simp [gather], fun t path hmem => ?_, fun _ => rfl,
      fun hne => absurd rfl hne⟩
    rcases List.mem_append.mp hmem with hmem | hmem
    · exact h.past t path hmem
    · cases List.mem_singleton.mp hmem
  | elapse ms =>
    obtain rfl := Option.some.inj hs
    exact h.elapse ms

theorem inv_initial : Inv opts {} :=
  ⟨told_nil, rfl, fun _ _ hmem => absurd hmem List.not_mem_nil, fun _ => rfl,
    fun hne => absurd rfl hne⟩

/-! ## No change is lost -/

/-- A change waits, or a batch that came later has told it, or the watcher was stopped. -/
theorem change_told {log pre post : List Entry} {time : ℕ} {path : String}
    (h : Told (Justified opts) log) (hlog : log = pre ++ .change time path :: post) :
    path ∈ since log ∨ (∃ t paths, Entry.batch t paths ∈ post ∧ path ∈ paths) ∨
      Entry.stopped ∈ post := by
  induction post using List.reverseRecOn generalizing log with
  | nil =>
    left
    rw [hlog, since_snoc]
    exact mem_addPath.mpr (.inr rfl)
  | append_singleton post e ih =>
    have hsnoc : log = (pre ++ .change time path :: post) ++ [e] := by simp [hlog]
    have htold : Told (Justified opts) (pre ++ .change time path :: post) := by
      rw [hsnoc] at h
      exact h.initial
    rcases ih htold rfl with hwaits | ⟨t, paths, hbatch, hpath⟩ | hstopped
    · rw [hsnoc, since_snoc]
      cases e with
      | change t p => exact .inl (mem_addPath.mpr (.inl hwaits))
      | batch t paths =>
        obtain ⟨hpaths, -, -⟩ := h _ _ [] hsnoc
        exact .inr (.inl ⟨t, paths, by simp, hpaths ▸ hwaits⟩)
      | stopped => exact .inr (.inr (by simp))
    · exact .inr (.inl ⟨t, paths, List.mem_append_left _ hbatch, hpath⟩)
    · exact .inr (.inr (List.mem_append_left _ hstopped))

/-- Whatever happens in whatever order: a batch tells exactly what changed since the last one, when
nothing has changed for the wait; a change is told by a later batch unless it still waits or the
watcher was stopped; and what waits is told after the wait if nothing else comes. -/
theorem changes_told (opts : Options) (s : State) (h : Reachable (step opts) {} s) :
    Told (Justified opts) s.log ∧
      (∀ pre time path post, s.log = pre ++ .change time path :: post →
        path ∈ s.pendingChanges ∨ (∃ t paths, Entry.batch t paths ∈ post ∧ path ∈ paths) ∨
          Entry.stopped ∈ post) ∧
      (s.pendingChanges ≠ [] → ∃ timer t,
        run (step opts) s [.elapse opts.debounceMs, .fire timer] = some t ∧ t.pendingChanges = [] ∧
          t.log = s.log ++ [.batch (s.clock + opts.debounceMs) s.pendingChanges]) := by
  have hinv : Inv opts s := h.invariant (fun _ _ _ hs hstep => inv_step hs hstep) inv_initial
  refine ⟨hinv.told, fun pre time path post hlog => ?_, fun hne => ?_⟩
  · rw [hinv.pending]
    exact change_told hinv.told hlog
  · obtain ⟨timer, deadline, hwait⟩ := hinv.waiting hne
    have hdue : (s.timers.any fun t => t.1 = timer ∧ t.2 ≤ s.clock + opts.debounceMs) = true := by
      simp [hwait.timers, hwait.soon]
    have hlater := hinv.elapse opts.debounceMs
    obtain ⟨hflush, -⟩ := hlater.fire hdue
    have hfire := congrArg some hflush
    refine ⟨timer, _, run_cons_iff.mpr ⟨_, rfl, run_cons_iff.mpr ⟨_, (if_pos hdue).trans hfire, rfl⟩⟩,
      rfl, rfl⟩

def anyFile : Options := ⟨500, fun filename => filename, fun _ => false⟩

/-- A file that is saved twice in a tenth of a second. -/
def savedTwice : List Action :=
  [.start true, .change (some "a.ts"), .elapse 100, .change (some "a.ts")]

theorem savedTwice_told : ∃ s timer t, run (step anyFile) {} savedTwice = some s ∧
    run (step anyFile) s [.elapse 500, .fire timer] = some t ∧
      t.log = [.change 0 "a.ts", .change 100 "a.ts", .batch 600 ["a.ts"]] := by
  have hrun : run (step anyFile) {} savedTwice = some
      { watching := true, pendingChanges := ["a.ts"], debounceTimer := some 1, timers := [(1, 600)],
        nextTimer := 2, clock := 100, log := [.change 0 "a.ts", .change 100 "a.ts"] } := by rfl
  obtain ⟨timer, t, ht, -, hlog⟩ := (changes_told anyFile _ ⟨_, hrun⟩).2.2 (by simp)
  exact ⟨_, timer, t, hrun, ht, hlog⟩

end FileWatcher
end Batiste
