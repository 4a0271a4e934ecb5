import Mathlib.Data.Int.Order.Basic
import Mathlib.Order.Nat

/-! The audit emitter of the Drive overlay: passes that walk the folders while files change.
Times are milliseconds. -/
namespace Batiste
namespace AuditEmitter

inductive Folder
  | mk (name : String) (files : List String) (folders : List Folder)

def Folder.name : Folder → String
  | .mk name _ _ => name

def Folder.files : Folder → List String
  | .mk _ files _ => files

def Folder.folders : Folder → List Folder
  | .mk _ _ folders => folders

structure Metadata where
  name : String
  owner : Option String
  mime : String
  size_bytes : ℕ
  deriving DecidableEq, Repr

structure File where
  metadata : Metadata
  lastUpdated : ℤ
  deriving DecidableEq, Repr

structure Event where
  ts : ℤ
  event : String := "file.changed"
  agency_slug : String
  actor : String
  path : String
  file_id : String
  mime : String
  size_bytes : ℕ
  sha256 : Option String := none
  generator : String := "governance-vault-apps-script-v0.1.0"
  deriving DecidableEq, Repr

/-- A ledger line, with the number of the pass that appended it. -/
structure Line where
  event : Event
  pass : ℕ
  deriving DecidableEq, Repr

/-- A pass under way: its high-water mark, the folders still on the stack with their paths, the
rest of the files of the folder it is in, and the events it has not appended yet. -/
structure Pass where
  sinceMs : ℤ
  stack : List (List String × Folder)
  path : List String
  fileIt : List String
  events : List Event

/-- `passes` counts the passes started, `finished` is the number of the last one that ended, and
`updatedIn` the count at a file's last update. -/
structure State where
  now : ℤ
  files : String → File
  lastAuditRun : Option ℤ := none
  ledger : List Line := []
  pass : Option Pass := none
  passes : ℕ := 0
  finished : ℕ := 0
  updatedIn : String → ℕ := fun _ => 0

inductive Action
  | advance (ms : ℕ)
  | update (file : String) (metadata : Metadata)
  | start
  | pop
  | look
  | append
  | finish
  | fail

variable (AGENCY_SLUG : String) (overlay : Folder)

def fileEvent (path : List String) (id : String) (file : File) : Event where
  ts := file.lastUpdated
  agency_slug := AGENCY_SLUG
  actor := file.metadata.owner.getD "unknown"
  path := "/".intercalate path ++ "/" ++ file.metadata.name
  file_id := id
  mime := file.metadata.mime
  size_bytes := file.metadata.size_bytes

/-- Take the top folder of the stack, but not the audit directory. -/
def popFolder (p : Pass) : Pass :=
  match p.stack with
  | [] => p
  | (path, folder) :: rest =>
    if folder.name = ".audit" then { p with stack := rest }
    else
      { p with
        stack := (folder.folders.map fun sub => (path ++ [sub.name], sub)).reverse ++ rest
        path := path
        fileIt := folder.files }

/-- The next file of the folder, as it is now. -/
def lookAt (files : String → File) (p : Pass) : Pass :=
  match p.fileIt with
  | [] => p
  | id :: rest =>
    if (files id).lastUpdated ≤ p.sinceMs then { p with fileIt := rest }
    else
      { p with
        fileIt := rest
        events := p.events ++ [fileEvent AGENCY_SLUG p.path id (files id)] }

def day : ℤ := 24 * 3600 * 1000

/-- An action that the code is not at leaves the state. -/
def step (s : State) : Action → State
  | .advance ms => { s with now := s.now + ms }
  | .update id metadata =>
    { s with
      files := Function.update s.files id ⟨metadata, s.now⟩
      updatedIn := Function.update s.updatedIn id s.passes }
  | .start =>
    match s.pass with
    | some _ => s
    | none =>
      { s with
        passes := s.passes + 1
        pass := some
          { sinceMs := s.lastAuditRun.getD (s.now - day)
            stack := [([], overlay)]
            path := []
            fileIt := []
            events := [] } }
  | .pop =>
    match s.pass with
    | some p => if p.fileIt = [] then { s with pass := some (popFolder p) } else s
    | none => s
  | .look =>
    match s.pass with
    | some p => { s with pass := some (lookAt AGENCY_SLUG s.files p) }
    | none => s
  | .append =>
    match s.pass with
    | some p =>
      match p.stack, p.fileIt, p.events with
      | [], [], event :: events =>
        { s with
          ledger := s.ledger ++ [⟨event, s.passes⟩]
          pass := some { p with events := events } }
      | _, _, _ => s
    | none => s
  | .finish =>
    match s.pass with
    | some p =>
      match p.stack, p.fileIt, p.events with
      | [], [], [] =>
        { s with
          lastAuditRun := some s.now
          pass := none
          finished := s.passes }
      | _, _, _ => s
    | none => s
  | .fail => { s with pass := none }

def run (s : State) (actions : List Action) : State :=
  actions.foldl (step AGENCY_SLUG overlay) s

/-- The files that a walk from the folder comes to. -/
inductive Visible : Folder → String → Prop
  | own {folder : Folder} {id : String} (hname : folder.name ≠ ".audit")
      (h : id ∈ folder.files) : Visible folder id
  | sub {folder sub : Folder} {id : String} (hname : folder.name ≠ ".audit")
      (hsub : sub ∈ folder.folders) (h : Visible sub id) : Visible folder id

/-- The last update of the file is in the ledger, from a pass that started after it. -/
def Recorded (s : State) (id : String) : Prop :=
  ∃ line ∈ s.ledger, line.event.file_id = id ∧ line.event.ts = (s.files id).lastUpdated ∧
    s.updatedIn id < line.pass

/-- Once a pass that started after the last update of a file has ended, the update is recorded. -/
def NothingLost (s : State) : Prop :=
  ∀ id, Visible overlay id → s.updatedIn id < s.finished → Recorded s id

/-- Files change between passes, after the mark; the first pass comes within a day. -/
def Quiet (s : State) : Action → Prop
  | .update _ _ => s.pass = none ∧ ∀ mark ∈ s.lastAuditRun, mark < s.now
  | .start => s.pass = none → s.lastAuditRun = none →
      ∀ id, Visible overlay id → s.now - day < (s.files id).lastUpdated
  | _ => True

def QuietRun : State → List Action → Prop
  | _, [] => True
  | s, action :: actions =>
    Quiet overlay s action ∧ QuietRun (step AGENCY_SLUG overlay s action) actions

variable {AGENCY_SLUG overlay}

/-! ## A pass -/

/-- The walk still comes to the file. -/
def Ahead (p : Pass) (id : String) : Prop :=
  id ∈ p.fileIt ∨ ∃ entry ∈ p.stack, Visible entry.2 id

def Collected (p : Pass) (id : String) (ts : ℤ) : Prop :=
  ∃ event ∈ p.events, event.file_id = id ∧ event.ts = ts

def Told (s : State) (id : String) : Prop :=
  ∃ line ∈ s.ledger, line.event.file_id = id ∧ line.event.ts = (s.files id).lastUpdated ∧
    line.pass = s.passes

structure PassInv (overlay : Folder) (s : State) (p : Pass) : Prop where
  current : s.finished < s.passes
  updatedIn : ∀ id, s.updatedIn id < s.passes
  behind : ∀ id, Visible overlay id → (s.files id).lastUpdated ≤ p.sinceMs →
    s.updatedIn id < s.finished
  covered : ∀ id, Visible overlay id → p.sinceMs < (s.files id).lastUpdated →
    Ahead p id ∨ Collected p id (s.files id).lastUpdated ∨ Told s id

structure Inv (overlay : Folder) (s : State) : Prop where
  finished : s.finished ≤ s.passes
  updatedIn : ∀ id, s.updatedIn id ≤ s.passes
  kept : NothingLost overlay s
  fresh : ∀ mark ∈ s.lastAuditRun, ∀ id, Visible overlay id → s.finished ≤ s.updatedIn id →
    mark < (s.files id).lastUpdated
  pass : ∀ p ∈ s.pass, PassInv overlay s p

theorem ahead_popFolder {p : Pass} {id : String} (hit : p.fileIt = []) (h : Ahead p id) :
    Ahead (popFolder p) id := by
  rcases h with hfile | ⟨entry, hentry, hvisible⟩
  · rw [hit] at hfile
    cases hfile
  · unfold popFolder
    cases hstack : p.stack with
    | nil =>
      rw [hstack] at hentry
      cases hentry
    | cons top rest =>
      obtain ⟨path, folder⟩ := top
      rw [hstack] at hentry
      simp only
      split_ifs with hname
      · rcases List.mem_cons.mp hentry with rfl | hrest
        · cases hvisible with
          | own hne _ => exact absurd hname hne
          | sub hne _ _ => exact absurd hname hne
        · exact .inr ⟨entry, hrest, hvisible⟩
      · rcases List.mem_cons.mp hentry with rfl | hrest
        · cases hvisible with
          | own _ hmem => exact .inl hmem
          | @sub _ sub _ _ hsub hin =>
            refine .inr ⟨(path ++ [sub.name], sub), List.mem_append_left _ ?_, hin⟩
            exact List.mem_reverse.mpr (List.mem_map.mpr ⟨sub, hsub, rfl⟩)
        · exact .inr ⟨entry, List.mem_append_right _ hrest, hvisible⟩

theorem covered_lookAt {files : String → File} {p : Pass} {id : String}
    (hnew : p.sinceMs < (files id).lastUpdated)
    (h : Ahead p id ∨ Collected p id (files id).lastUpdated) :
    Ahead (lookAt AGENCY_SLUG files p) id ∨
      Collected (lookAt AGENCY_SLUG files p) id (files id).lastUpdated := by
  unfold lookAt
  cases hit : p.fileIt with
  | nil => exact h
  | cons next rest =>
    simp only
    split_ifs with hold
    · rcases h with (hfile | hstack) | hcollected
      · rw [hit] at hfile
        rcases List.mem_cons.mp hfile with rfl | hrest
        · exact absurd hold (not_le.mpr hnew)
        · exact .inl (.inl hrest)
      · exact .inl (.inr hstack)
      · exact .inr hcollected
    · rcases h with (hfile | hstack) | ⟨event, hevent, hid, hts⟩
      · rw [hit] at hfile
        rcases List.mem_cons.mp hfile with rfl | hrest
        · exact .inr ⟨_, List.mem_append_right _ (List.mem_singleton.mpr rfl), rfl, rfl⟩
        · exact .inl (.inl hrest)
      · exact .inl (.inr hstack)
      · exact .inr ⟨event, List.mem_append_left _ hevent, hid, hts⟩

theorem sinceMs_popFolder (p : Pass) : (popFolder p).sinceMs = p.sinceMs := by
  unfold popFolder
  split
  · rfl
  · split_ifs <;> rfl

theorem events_popFolder (p : Pass) : (popFolder p).events = p.events := by
  unfold popFolder
  split
  · rfl
  · split_ifs <;> rfl

theorem sinceMs_lookAt (files : String → File) (p : Pass) :
    (lookAt AGENCY_SLUG files p).sinceMs = p.sinceMs := by
  unfold lookAt
  split
  · rfl
  · split_ifs <;> rfl

/-! ## Runs -/

theorem Inv.update {s : State} (hs : Inv overlay s) {id : String} {metadata : Metadata}
    (hq : Quiet overlay s (.update id metadata)) :
    Inv overlay (step AGENCY_SLUG overlay s (.update id metadata)) := by
  obtain ⟨hidle, hlate⟩ := hq
  have hat : ∀ other, other ≠ id →
      (step AGENCY_SLUG overlay s (.update id metadata)).files other = s.files other ∧
        (step AGENCY_SLUG overlay s (.update id metadata)).updatedIn other = s.updatedIn other :=
    fun other hne => ⟨Function.update_of_ne hne _ _, Function.update_of_ne hne _ _⟩
  have hself : (step AGENCY_SLUG overlay s (.update id metadata)).files id = ⟨metadata, s.now⟩ ∧
      (step AGENCY_SLUG overlay s (.update id metadata)).updatedIn id = s.passes :=
    ⟨Function.update_self _ _ _, Function.update_self _ _ _⟩
  refine ⟨hs.finished, fun other => ?_, fun other hvisible hlt => ?_,
    fun mark hmark other hvisible hle => ?_, fun p hp => ?_⟩
  · by_cases hother : other = id
    · rw [hother, hself.2]
      exact le_rfl
    · rw [(hat other hother).2]
      exact hs.updatedIn other
  · by_cases hother : other = id
    · rw [hother, hself.2] at hlt
      exact absurd hs.finished (not_le.mpr hlt)
    · rw [(hat other hother).2] at hlt
      obtain ⟨line, hline, hid, hts, hpass⟩ := hs.kept other hvisible hlt
      refine ⟨line, hline, hid, ?_, ?_⟩
      · rw [(hat other hother).1]
        exact hts
      · rw [(hat other hother).2]
        exact hpass
  · by_cases hother : other = id
    · rw [hother, hself.1]
      exact hlate mark hmark
    · rw [(hat other hother).1]
      rw [(hat other hother).2] at hle
      exact hs.fresh mark hmark other hvisible hle
  · rw [Option.mem_def] at hp
    exact absurd (hidle.symm.trans hp) (by simp)

theorem Inv.start {s : State} (hs : Inv overlay s) (hq : Quiet overlay s .start) :
    Inv overlay (step AGENCY_SLUG overlay s .start) := by
  simp only [step]
  cases hpass : s.pass with
  | some p =>
    simp only
    exact hs
  | none =>
    refine ⟨Nat.le_succ_of_le hs.finished, fun id => Nat.le_succ_of_le (hs.updatedIn id), hs.kept,
      hs.fresh, fun p hp => ?_⟩
    obtain rfl := Option.some.inj hp
    refine ⟨Nat.lt_succ_of_le hs.finished, fun id => Nat.lt_succ_of_le (hs.updatedIn id),
      fun id hvisible hold => ?_, fun id hvisible _ => ?_⟩
    · cases hmark : s.lastAuditRun with
      | none =>
        rw [hmark] at hold
        exact absurd hold (not_le.mpr (hq hpass hmark id hvisible))
      | some mark =>
        rw [hmark] at hold
        by_contra hlt
        exact absurd hold (not_le.mpr (hs.fresh mark hmark id hvisible (not_lt.mp hlt)))
    · exact .inl (.inr ⟨([], overlay), List.mem_singleton.mpr rfl, hvisible⟩)

/-- Within a pass nothing but the pass changes. -/
theorem Inv.with_pass {s : State} (hs : Inv overlay s) {p p' : Pass} (hp : s.pass = some p)
    (hsince : p'.sinceMs = p.sinceMs)
    (hcovered : ∀ id, p.sinceMs < (s.files id).lastUpdated →
      Ahead p id ∨ Collected p id (s.files id).lastUpdated →
        Ahead p' id ∨ Collected p' id (s.files id).lastUpdated) :
    Inv overlay { s with pass := some p' } := by
  have hinv := hs.pass p hp
  refine ⟨hs.finished, hs.updatedIn, hs.kept, hs.fresh, fun q hq => ?_⟩
  obtain rfl := Option.some.inj hq
  refine ⟨hinv.current, hinv.updatedIn, fun id hvisible hold => ?_, fun id hvisible hnew => ?_⟩
  · exact hinv.behind id hvisible (hsince ▸ hold)
  · have hnew' : p.sinceMs < (s.files id).lastUpdated := hsince ▸ hnew
    rcases hinv.covered id hvisible hnew' with hahead | hcollected | htold
    · exact or_assoc.mp (.inl (hcovered id hnew' (.inl hahead)))
    · exact or_assoc.mp (.inl (hcovered id hnew' (.inr hcollected)))
    · exact .inr (.inr htold)

theorem Inv.pop {s : State} (hs : Inv overlay s) :
    Inv overlay (step AGENCY_SLUG overlay s .pop) := by
  simp only [step]
  cases hpass : s.pass with
  | none => exact hs
  | some p =>
    simp only
    split_ifs with hit
    · refine hs.with_pass hpass (sinceMs_popFolder p) fun id _ h => ?_
      rcases h with hahead | hcollected
      · exact .inl (ahead_popFolder hit hahead)
      · rw [Collected, events_popFolder]
        exact .inr hcollected
    · exact hs

theorem Inv.look {s : State} (hs : Inv overlay s) :
    Inv overlay (step AGENCY_SLUG overlay s .look) := by
  simp only [step]
  cases hpass : s.pass with
  | none => exact hs
  | some p => exact hs.with_pass hpass (sinceMs_lookAt s.files p) fun id hnew => covered_lookAt hnew

theorem Recorded.append {s s' : State} {id : String} {line : Line} (h : Recorded s id)
    (hledger : s'.ledger = s.ledger ++ [line]) (hfiles : s'.files = s.files)
    (hupdated : s'.updatedIn = s.updatedIn) : Recorded s' id := by
  obtain ⟨old, hold, hid, hts, hpass⟩ := h
  refine ⟨old, ?_, hid, ?_, ?_⟩
  · rw [hledger]
    exact List.mem_append_left _ hold
  · rw [hfiles]
    exact hts
  · rw [hupdated]
    exact hpass

theorem Inv.append {s : State} (hs : Inv overlay s) :
    Inv overlay (step AGENCY_SLUG overlay s .append) := by
  simp only [step]
  cases hpass : s.pass with
  | none => exact hs
  | some p =>
    have hinv := hs.pass p hpass
    simp only
    split
    case h_2 => exact hs
    case h_1 event events hstack hit hevents =>
      refine ⟨hs.finished, hs.updatedIn, fun id hvisible hlt =>
        (hs.kept id hvisible hlt).append rfl rfl rfl, hs.fresh, fun q hq => ?_⟩
      obtain rfl := Option.some.inj hq
      refine ⟨hinv.current, hinv.updatedIn, hinv.behind, fun id hvisible hnew => ?_⟩
      rcases hinv.covered id hvisible hnew with hahead | ⟨e, he, hid, hts⟩ | htold
      · exact .inl hahead
      · rw [hevents] at he
        rcases List.mem_cons.mp he with rfl | hrest
        · exact .inr (.inr ⟨⟨e, s.passes⟩, List.mem_append_right _ (by simp), hid, hts, rfl⟩)
        · exact .inr (.inl ⟨e, hrest, hid, hts⟩)
      · obtain ⟨line, hline, htold⟩ := htold
        exact .inr (.inr ⟨line, List.mem_append_left _ hline, htold⟩)

theorem Inv.finish {s : State} (hs : Inv overlay s) :
    Inv overlay (step AGENCY_SLUG overlay s .finish) := by
  simp only [step]
  cases hpass : s.pass with
  | none => exact hs
  | some p =>
    have hinv := hs.pass p hpass
    simp only
    split
    case h_2 => exact hs
    case h_1 hstack hit hevents =>
      refine ⟨le_rfl, hs.updatedIn, fun id hvisible _ => ?_, fun _ _ id _ hle => ?_, by simp⟩
      · by_cases hold : (s.files id).lastUpdated ≤ p.sinceMs
        · exact hs.kept id hvisible (hinv.behind id hvisible hold)
        · rcases hinv.covered id hvisible (not_le.mp hold) with hahead | ⟨e, he, -⟩ | htold
          · rcases hahead with hfile | ⟨entry, hentry, -⟩
            · rw [hit] at hfile
              cases hfile
            · rw [hstack] at hentry
              cases hentry
          · rw [hevents] at he
            cases he
          · obtain ⟨line, hline, hid, hts, hpasses⟩ := htold
            exact ⟨line, hline, hid, hts, hpasses ▸ hinv.updatedIn id⟩
      · exact absurd (hinv.updatedIn id) (not_lt.mpr hle)

theorem Inv.step {s : State} (hs : Inv overlay s) {action : Action}
    (hq : Quiet overlay s action) : Inv overlay (step AGENCY_SLUG overlay s action) := by
  cases action with
  | advance ms => exact ⟨hs.finished, hs.updatedIn, hs.kept, hs.fresh, fun p hp =>
      ⟨(hs.pass p hp).current, (hs.pass p hp).updatedIn, (hs.pass p hp).behind,
        (hs.pass p hp).covered⟩⟩
  | update id metadata => exact hs.update hq
  | start => exact hs.start hq
  | pop => exact hs.pop
  | look => exact hs.look
  | append => exact hs.append
  | finish => exact hs.finish
  | fail => exact ⟨hs.finished, hs.updatedIn, hs.kept, hs.fresh, by simp [AuditEmitter.step]⟩

theorem inv_run {s : State} (hs : Inv overlay s) {actions : List Action}
    (hq : QuietRun AGENCY_SLUG overlay s actions) :
    Inv overlay (run AGENCY_SLUG overlay s actions) := by
  induction actions generalizing s with
  | nil => exact hs
  | cons action actions ih => exact ih (hs.step hq.1) hq.2

/-- Nothing is lost in a run from before the first pass whose updates are all quiet. -/
theorem nothingLost_run (now : ℤ) (files : String → File) {actions : List Action}
    (hq : QuietRun AGENCY_SLUG overlay { now := now, files := files } actions) :
    NothingLost overlay (run AGENCY_SLUG overlay { now := now, files := files } actions) := by
  have hinit : Inv overlay { now := now, files := files } :=
    ⟨le_rfl, fun _ => le_rfl, fun _ _ h => absurd h (lt_irrefl 0), by simp, by simp⟩
  exact (inv_run hinit hq).kept

def vault : Folder := .mk "overlay" ["doc"] []

def contract : Metadata := ⟨"contract.pdf", some "ana@firm.example", "application/pdf", 2048⟩

def unchanged : String → File := fun _ => ⟨contract, 0⟩

theorem later_update_recorded :
    NothingLost vault (run "acme" vault { now := 1000, files := unchanged }
      [.start, .pop, .look, .append, .finish, .advance 5, .update "doc" contract, .start, .pop,
        .look, .append, .finish]) := by
  refine nothingLost_run 1000 unchanged ⟨?_, trivial, trivial, trivial, trivial, trivial, ⟨rfl, ?_⟩,
    ?_, trivial, trivial, trivial, trivial, trivial⟩
  · intro _ _ id _
    have hlate : (1000 : ℤ) - day < 0 := by decide
    exact hlate
  · intro mark hmark
    obtain rfl := Option.some.inj hmark
    decide
  · intro _ hmark
    cases hmark

/-- An update behind the walk's back, before the new mark. -/
theorem update_in_pass_lost :
    ¬ ∀ (AGENCY_SLUG : String) (overlay : Folder) (now : ℤ) (files : String → File)
      (actions : List Action),
      NothingLost overlay (run AGENCY_SLUG overlay { now := now, files := files } actions) := by
  intro h
  obtain ⟨line, hline, -, hts, -⟩ := h "acme" vault 1000 unchanged
    [.start, .pop, .look, .append, .update "doc" contract, .advance 5, .finish, .start, .pop,
      .look, .finish] "doc" (.own (by decide) (by decide)) (by decide)
  obtain rfl : line = ⟨fileEvent "acme" [] "doc" (unchanged "doc"), 1⟩ :=
    List.mem_singleton.mp hline
  exact absurd hts (by decide)

end AuditEmitter
end Batiste
