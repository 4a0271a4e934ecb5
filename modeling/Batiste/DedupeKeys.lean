import Batiste.ActionWrites
import Batiste.MergeContents
import Batiste.TaskCalls

/-! The key of `manage_task create`: which open tasks carry it, over runs of calls in which
creations with a key are interleaved. -/
namespace Batiste
namespace DedupeKeys

open JsonText TaskActions TaskMerge ManageTask StoreProgram
open TaskManager (Clocks Call)
open TaskReconciler (Records)

/-- `dedupeKey`, unless it is empty. -/
def keyOf (args : TaskArgs) : Option String := args.dedupeKey.filter fun key => key ≠ ""

/-- A creation with a key. -/
structure Creation where
  host : CallHost
  args : TaskArgs
  key : String
  keyed : keyOf args = some key

/-- Where a creation is between two operations of the store. -/
inductive Stage
  | scanning
  | finding
  | inserting (parentId : Option String)
  | reading
  | patching (task : Task)
  | readingBack
  | ended (result : Except Failure Reply)

section Stages

variable (h : Handler) (c : Creation)

def newTask (parentId : Option String) : Task :=
  { id := c.host.uuid, parentId, label := c.args.label.getD "", status := .pending
    context := { toolOutputs := some [], metadata := some [] } }

/-- The task with the metadata of the creation. -/
def keyedTask (task : Task) : Task :=
  (Call.patchTask { metadata := some (createMeta h c.host c.args) }).apply (c.host.clock 1) task

/-- The stage after a scan that finds no task. -/
def Creation.proceeds : Stage :=
  match c.args.parentId.filter fun parentId => parentId ≠ "" with
  | none => .inserting none
  | some _ => .finding

/-- The next operation on the store, and the stage after it. -/
def advance (s : Records) : Stage → Option (Records × Stage)
  | .scanning =>
    match findExisting h c.args (c.args.label.getD "") s.board.rows with
    | some task => some (s, .ended (.ok (.existing task.id)))
    | none => some (s, c.proceeds)
  | .finding =>
    match needParent c.args s.board with
    | .error failure => some (s, .ended (.error failure))
    | .ok parentId => some (s, .inserting parentId)
  | .inserting parentId =>
    some ({ s with board := s.board.save (c.host.clock 0).database (newTask c parentId) }, .reading)
  | .reading =>
    match s.board.get c.host.uuid with
    | none => some (s, .ended (.error (.error (TaskManager.notFound c.host.uuid))))
    | some task => some (s, .patching task)
  | .patching task =>
    some ({ s with board := s.board.save (c.host.clock 1).database (keyedTask h c task) },
      .readingBack)
  | .readingBack => some (s, .ended (.ok (.created c.host.uuid)))
  | .ended _ => none

end Stages

/-- The scan found no task, and the key is not yet on the board. -/
def Stage.underway : Stage → Bool
  | .finding | .inserting _ | .reading | .patching _ => true
  | .scanning | .readingBack | .ended _ => false

/-- The records, and the creations that have begun. -/
structure State where
  records : Records
  calls : ℕ → Option (Creation × Stage)

/-- A call that nothing runs next to, the begin of a creation, or its next operation. -/
inductive Event
  | call (host : CallHost) (raw : Dict Json)
  | start (k : ℕ) (c : Creation)
  | access (k : ℕ)

def step (h : Handler) (s : State) : Event → Option State
  | .call host raw => some { s with records := (handleTool h host raw s.records).1 }
  | .start k c =>
    if (s.calls k).isNone then
      some { s with calls := Function.update s.calls k (some (c, .scanning)) }
    else none
  | .access k =>
    (s.calls k).bind fun call => (advance h call.1 s.records call.2).map fun r =>
      ⟨r.1, Function.update s.calls k (some (call.1, r.2))⟩

/-- The row is open and has the key. -/
structure Carries (b : Board) (key : String) (row : Task) : Prop where
  mem : row ∈ b.rows
  isOpen : isOpen row = true
  key : metaAt row "dedupeKey" = some (.string key)

/-- At most one open task carries a key. -/
def KeysUnique (b : Board) : Prop :=
  ∀ key row row', Carries b key row → Carries b key row' → row = row'

def InFlight (s : State) (k : ℕ) (key : String) : Prop :=
  ∃ c stage, s.calls k = some (c, stage) ∧ c.key = key ∧ stage.underway = true

/-- The update is let through and opens the closed task. -/
structure Opens (args : TaskArgs) (row : Task) : Prop where
  reopens : Reopens args row.id
  closed : isOpen row = false
  allowed : ∀ status, args.status = some status →
    checkTransition row status args.reopen args.reason = .ok ()

/-- A creation that finds no open task with its key goes on only while no other one with the key
is in flight; an update opens a closed task only while no open task carries its key and no
creation with the key is in flight. -/
def Fits (h : Handler) (s : State) : Event → Prop
  | .call host raw =>
    (∀ args key, request h host raw = some (.create, args) → keyOf args = some key →
      findExisting h args (args.label.getD "") s.records.board.rows = none →
        ∀ k, ¬ InFlight s k key) ∧
    ∀ args row key, request h host raw = some (.update, args) → row ∈ s.records.board.rows →
      Opens args row → metaAt row "dedupeKey" = some (.string key) →
        (∀ row', ¬ Carries s.records.board key row') ∧ ∀ k, ¬ InFlight s k key
  | .start _ _ => True
  | .access k => ∀ c, s.calls k = some (c, .scanning) →
      findExisting h c.args (c.args.label.getD "") s.records.board.rows = none →
        ∀ k', ¬ InFlight s k' c.key

theorem createMeta_keyOf (h : Handler) (host : CallHost) (args : TaskArgs) :
    Dict.get? (createMeta h host args) "dedupeKey" = (keyOf args).map Json.string := by
  have hnone : Dict.get? (structured h host args []) "dedupeKey" = none := by
    rw [Dict.get?_eq_none]
    exact fun hmem => absurd ((structured_keys h host args []).subset hmem) (by decide)
  rw [createMeta, Dict.get?_append, hnone, Option.none_or, get?_field, if_pos rfl]
  rfl

/-! ## The stages are those of the call -/

section Programs

variable (h : Handler) (c : Creation)

/-- What is left of the call before the patch is saved. -/
def patchProgram (task : Task) : Program Records (Except Failure Reply) :=
  .write (fun s => { s with
    board := s.board.save (c.host.clock 1).database (keyedTask h c task) })
    (.read fun _ => .done (.ok (.created c.host.uuid)))

def readProgram : Program Records (Except Failure Reply) :=
  .read fun s => match s.board.get c.host.uuid with
    | none => .done (.error (.error (TaskManager.notFound c.host.uuid)))
    | some task => patchProgram h c task

def insertProgram (parentId : Option String) : Program Records (Except Failure Reply) :=
  .write (fun s => { s with
    board := s.board.save (c.host.clock 0).database (newTask c parentId) }) (readProgram h c)

def findProgram : Program Records (Except Failure Reply) :=
  .read fun s => match needParent c.args s.board with
    | .error failure => .done (.error failure)
    | .ok parentId => insertProgram h c parentId

def proceedProgram : Program Records (Except Failure Reply) :=
  match c.args.parentId.filter fun parentId => parentId ≠ "" with
  | none => insertProgram h c none
  | some _ => findProgram h c

def scanProgram : Program Records (Except Failure Reply) :=
  .read fun s => match findExisting h c.args (c.args.label.getD "") s.board.rows with
    | some task => .done (.ok (.existing task.id))
    | none => proceedProgram h c

def Stage.program : Stage → Program Records (Except Failure Reply)
  | .scanning => scanProgram h c
  | .finding => findProgram h c
  | .inserting parentId => insertProgram h c parentId
  | .reading => readProgram h c
  | .patching task => patchProgram h c task
  | .readingBack => .read fun _ => .done (.ok (.created c.host.uuid))
  | .ended result => .done result

theorem proceeds_program : c.proceeds.program h c = proceedProgram h c := by
  unfold Creation.proceeds proceedProgram
  split <;> rfl

/-- An access of the call is the step from its stage to the next. -/
theorem after_program (s : Records) (stage : Stage) :
    Pool.after s (stage.program h c) =
      (advance h c s stage).map fun r => (r.1, r.2.program h c) := by
  cases stage with
  | scanning =>
    change some (s, _) = _
    unfold advance
    dsimp only
    cases findExisting h c.args (c.args.label.getD "") s.board.rows with
    | some task => rfl
    | none => rw [Option.map_some, proceeds_program]
  | finding =>
    change some (s, _) = _
    unfold advance
    dsimp only
    cases needParent c.args s.board <;> rfl
  | reading =>
    change some (s, _) = _
    unfold advance
    dsimp only
    cases s.board.get c.host.uuid <;> rfl
  | inserting parentId => rfl
  | patching task => rfl
  | readingBack => rfl
  | ended result => rfl

theorem createMeta_key : Dict.get? (createMeta h c.host c.args) "dedupeKey" =
    some (.string c.key) := by
  rw [createMeta_keyOf, c.keyed]
  rfl

theorem nonempty_createMeta :
    nonempty (createMeta h c.host c.args) = some (createMeta h c.host c.args) := by
  refine if_neg fun hnil => ?_
  have hkey := createMeta_key h c
  rw [hnil] at hkey
  cases hkey

theorem patchTask_program :
    (do
      TaskCalls.patchTask (c.host.clock 1) c.host.uuid
        { metadata := some (createMeta h c.host c.args) }
      return Reply.created c.host.uuid : TaskCalls.StoreCall Reply).run = readProgram h c := by
  refine congrArg Program.read (funext fun s => ?_)
  cases hget : s.board.get c.host.uuid with
  | none =>
    simp only [hget]
    rfl
  | some task =>
    simp only [hget]
    rfl

theorem insertTask_program :
    (do
      TaskCalls.insertTask h c.host c.args (c.args.label.getD "")
      return Reply.created c.host.uuid : TaskCalls.StoreCall Reply).run = proceedProgram h c := by
  unfold TaskCalls.insertTask TaskCalls.findParent proceedProgram
  rw [nonempty_createMeta]
  cases c.args.parentId.filter fun parentId => parentId ≠ "" with
  | none => exact congrArg (Program.write _) (patchTask_program h c)
  | some parentId =>
    refine congrArg Program.read (funext fun s => ?_)
    dsimp only
    cases needParent c.args s.board with
    | error failure => rfl
    | ok found => exact congrArg (Program.write _) (patchTask_program h c)

/-- A creation with a key is absorbed by no similar task. -/
theorem create_keyed : (TaskCalls.create h c.host c.args).run = Stage.scanning.program h c := by
  refine congrArg Program.read (funext fun s => ?_)
  change ExceptT.run (match findExisting h c.args (c.args.label.getD "") s.board.rows with
    | some task => _
    | none => _) = _
  cases findExisting h c.args (c.args.label.getD "") s.board.rows with
  | some task => rfl
  | none =>
    have hkeyed : c.args.dedupeKey.getD "" ≠ "" := by
      obtain ⟨hkey, hne⟩ := Option.filter_eq_some_iff.mp c.keyed
      rw [hkey]
      simpa using hne
    have htop : (topSimilar h c.args (c.args.label.getD "") s.board.rows).filter (fun top =>
        THRESHOLD_SAME ≤ top.score ∧ c.args.dedupeKey.getD "" = "") = none := by
      rw [Option.filter_eq_none_iff]
      simp [hkeyed]
    dsimp only
    rw [htop]
    exact insertTask_program h c

end Programs

/-! ## Boards -/

section Boards

variable {h : Handler} {host : CallHost} {args : TaskArgs} {b b' : Board} {key : String}

theorem row_eq {row row' : Task} (hrow : row ∈ b.rows) (hrow' : row' ∈ b.rows)
    (hid : row.id = row'.id) : row = row' := by
  have hget := Board.get_of_mem hrow
  rw [hid, Board.get_of_mem hrow'] at hget
  exact (Option.some.inj hget).symm

/-- A scan for a key that finds nothing. -/
theorem findExisting_none {label : String} (hkey : keyOf args = some key)
    (hnone : findExisting h args label b.rows = none) (row : Task) : ¬ Carries b key row := by
  intro hrow
  have hfilter : (args.dedupeKey.filter fun key => key ≠ "") = some key := hkey
  unfold findExisting at hnone
  rw [hfilter] at hnone
  have hnot := List.find?_eq_none.mp hnone row hrow.mem
  simp [hrow.isOpen, hrow.key] at hnot

/-- Where rows come in under one id and with keys that no open task carries. -/
theorem unique_grown {id : String} {P : String → Prop}
    (hrows : ∀ key row, Carries b' key row → Carries b key row ∨ row.id = id ∧ P key)
    (hvacant : ∀ key, P key → ∀ row, ¬ Carries b key row) (hb : KeysUnique b) : KeysUnique b' := by
  intro key row row' hrow hrow'
  rcases hrows key row hrow with hold | ⟨hid, hkey⟩
  · rcases hrows key row' hrow' with hold' | ⟨-, hkey⟩
    · exact hb key row row' hold hold'
    · exact absurd hold (hvacant key hkey row)
  · rcases hrows key row' hrow' with hold' | ⟨hid', -⟩
    · exact absurd hold' (hvacant key hkey row')
    · exact row_eq hrow.mem hrow'.mem (hid.trans hid'.symm)

theorem carries_save {now : ℤ} {task row : Task} (hrow : Carries (b.save now task) key row) :
    Carries b key row ∨ row.id = task.id ∧ metaAt task "dedupeKey" = some (.string key) := by
  obtain ⟨createdAt, hget⟩ := Board.get_save_any b now task
  have hself := Board.get_of_mem hrow.mem
  rw [hget] at hself
  split at hself
  · next hid =>
    obtain rfl := Option.some.inj hself
    exact .inr ⟨rfl, hrow.key⟩
  · exact .inl ⟨Board.get_mem hself, hrow.isOpen, hrow.key⟩

theorem carries_inserted {new row : Task} (hnew : Inserted h host args b b' new)
    (hrow : Carries b' key row) :
    Carries b key row ∨ row.id = host.uuid ∧ keyOf args = some key := by
  have hself := Board.get_of_mem hrow.mem
  rw [hnew.get] at hself
  split at hself
  · next hid =>
    obtain rfl := Option.some.inj hself
    have hkey := hrow.key
    rw [metaAt, hnew.fields, createMeta_keyOf] at hkey
    obtain ⟨key', hkey', heq⟩ := Option.map_eq_some_iff.mp hkey
    cases heq
    exact .inr ⟨hid, hkey'⟩
  · exact .inl ⟨Board.get_mem hself, hrow.isOpen, hrow.key⟩

end Boards

/-! ## Calls that nothing runs next to -/

section Calls

variable {h : Handler} {host : CallHost} {raw : Dict Json}

/-- An update that changes the status is one that `checkTransition` lets through. -/
theorem update_allowed {args : TaskArgs} {s s' : Session} {reply : Reply} {row : Task}
    (hupdate : update h host args s = .ok (s', reply)) (hrow : row ∈ s.board.rows)
    (hid : args.taskId.getD "" = row.id) {status : TaskStatus} (hstatus : args.status = some status)
    (hne : status ≠ row.status) : checkTransition row status args.reopen args.reason = .ok () := by
  obtain ⟨before, hbefore, hupdate⟩ := bind_ok_iff.mp hupdate
  obtain ⟨entries, hentries, -⟩ := bind_ok_iff.mp hupdate
  have hget := need_ok hbefore
  rw [hid, Board.get_of_mem hrow] at hget
  obtain rfl := Option.some.inj hget
  unfold updateMeta at hentries
  simp only [hstatus, if_pos hne] at hentries
  obtain ⟨changed, hchanged, -⟩ := map_ok_iff.mp hentries
  obtain ⟨⟨⟩, hallowed, -⟩ := bind_ok_iff.mp hchanged
  exact mapError_ok_iff.mp hallowed

/-- An open row that was closed before the call comes from an update that is let through. -/
theorem opened {s : Records} {old new : Task} (hold : old ∈ s.board.rows)
    (hnew : new ∈ (handleTool h host raw s).1.board.rows) (hid : new.id = old.id)
    (hclosed : isOpen old = false) (hopen : isOpen new = true) {args : TaskArgs}
    (hrequest : request h host raw = some (.update, args)) (hreopens : Reopens args old.id) :
    Opens args old := by
  refine ⟨hreopens, hclosed, fun status hstatus => ?_⟩
  rcases handleTool_cases h host raw s with ⟨hnone, -⟩ | ⟨action, args', hsome, heq⟩
  · rw [hrequest] at hnone
    cases hnone
  · rw [hrequest] at hsome
    cases hsome
    have hboard : (handleTool h host raw s).1.board =
        (whole ⟨s.board, 0⟩ (update h host args ⟨s.board, 0⟩)).1.board := by
      rw [heq]
      rfl
    cases hupdate : update h host args ⟨s.board, 0⟩ with
    | error failure =>
      rw [hboard, hupdate] at hnew
      rw [row_eq hnew hold hid, hclosed] at hopen
      cases hopen
    | ok result =>
      refine update_allowed hupdate hold hreopens.1 hstatus ?_
      rintro rfl
      have hsame : isOpen old = true := by
        rcases hreopens.2 with hpending | hrunning
        · simp [isOpen, Option.some.inj (hstatus.symm.trans hpending)]
        · simp [isOpen, Option.some.inj (hstatus.symm.trans hrunning)]
      rw [hclosed] at hsame
      cases hsame

/-- The rows of the board, from one that was open or was opened, unless a row came in. -/
theorem call_rows (h : Handler) (host : CallHost) (raw : Dict Json) (s : Records) :
    (∀ key row, Carries (handleTool h host raw s).1.board key row →
      ∃ old ∈ s.board.rows, row.id = old.id ∧ metaAt old "dedupeKey" = some (.string key) ∧
        (isOpen old = true ∨
          ∃ args, request h host raw = some (.update, args) ∧ Opens args old)) ∨
    ∃ args, request h host raw = some (.create, args) ∧
      findExisting h args (args.label.getD "") s.board.rows = none ∧
      ∃ row, Inserted h host args s.board (handleTool h host raw s).1.board row := by
  rcases handleTool_writes h host raw s with hwrites | hinserted | hempty
  · refine .inl fun key row hrow => ?_
    obtain ⟨old, hold, hrewritten⟩ := hwrites.rows row hrow.mem
    refine ⟨old, hold, hrewritten.id, hrewritten.key ▸ hrow.key, ?_⟩
    by_cases hopen : isOpen old = true
    · exact .inl hopen
    · rcases hrewritten.opens hrow.isOpen with habs | ⟨args, hrequest, hreopens⟩
      · exact absurd habs hopen
      · exact .inr ⟨args, hrequest, opened hold hrow.mem hrewritten.id (by simpa using hopen)
          hrow.isOpen hrequest hreopens⟩
  · exact .inr hinserted
  · refine .inl fun key row hrow => ?_
    have hmem := hrow.mem
    rw [hempty] at hmem
    exact absurd hmem List.not_mem_nil

end Calls

/-! ## The invariant -/

structure Inv (s : State) : Prop where
  unique : KeysUnique s.records.board
  apart : ∀ k k' key, InFlight s k key → InFlight s k' key → k = k'
  vacant : ∀ k key, InFlight s k key → ∀ row, ¬ Carries s.records.board key row

section Steps

variable {h : Handler} {s t : State}

theorem inv_call {host : CallHost} {raw : Dict Json} (hinv : Inv s)
    (hfits : Fits h s (.call host raw)) :
    Inv { s with records := (handleTool h host raw s.records).1 } := by
  obtain ⟨hcreates, hopens⟩ := hfits
  rcases call_rows h host raw s.records with hrows | ⟨args, hrequest, hnone, new, hnew⟩
  · refine ⟨fun key row row' hrow hrow' => ?_, hinv.apart, fun k key hk row hrow => ?_⟩
    · obtain ⟨old, hold, hid, hkey, hopen⟩ := hrows key row hrow
      obtain ⟨old', hold', hid', hkey', hopen'⟩ := hrows key row' hrow'
      refine row_eq hrow.mem hrow'.mem (hid.trans (Eq.trans ?_ hid'.symm))
      rcases hopen with hopen | ⟨args, hrequest, hopened⟩
      · rcases hopen' with hopen' | ⟨args, hrequest, hopened⟩
        · exact congrArg Task.id (hinv.unique key old old' ⟨hold, hopen, hkey⟩
            ⟨hold', hopen', hkey'⟩)
        · exact absurd ⟨hold, hopen, hkey⟩
            ((hopens args old' key hrequest hold' hopened hkey').1 old)
      · rcases hopen' with hopen' | ⟨args', hrequest', hopened'⟩
        · exact absurd ⟨hold', hopen', hkey'⟩
            ((hopens args old key hrequest hold hopened hkey).1 old')
        · rw [hrequest] at hrequest'
          cases hrequest'
          exact hopened.reopens.1.symm.trans hopened'.reopens.1
    · obtain ⟨old, hold, -, hkey, hopen⟩ := hrows key row hrow
      rcases hopen with hopen | ⟨args, hrequest, hopened⟩
      · exact hinv.vacant k key hk old ⟨hold, hopen, hkey⟩
      · exact (hopens args old key hrequest hold hopened hkey).2 k hk
  · refine ⟨unique_grown (fun key row hrow => carries_inserted hnew hrow)
      (fun key hkey => findExisting_none hkey hnone) hinv.unique, hinv.apart,
      fun k key hk row hrow => ?_⟩
    rcases carries_inserted hnew hrow with hold | ⟨-, hkey⟩
    · exact hinv.vacant k key hk row hold
    · exact hcreates args key hrequest hkey hnone k hk

/-- A creation that is in flight after its next operation was it before, or is so now. -/
theorem inFlight_update {records : Records} {k k' : ℕ} {c : Creation} {stage : Stage}
    {key : String}
    (hk : InFlight ⟨records, Function.update s.calls k (some (c, stage))⟩ k' key) :
    (k' ≠ k ∧ InFlight s k' key) ∨ k' = k ∧ c.key = key ∧ stage.underway = true := by
  obtain ⟨c', stage', hcall, hkey, hunderway⟩ := hk
  by_cases heq : k' = k
  · subst heq
    obtain ⟨rfl, rfl⟩ : c = c' ∧ stage = stage' := by simpa using hcall
    exact .inr ⟨rfl, hkey, hunderway⟩
  · refine .inl ⟨heq, c', stage', ?_, hkey, hunderway⟩
    simpa [Function.update_of_ne heq] using hcall

/-- A step that begins no flight, and after which the keys of the rows that came in belong to no
open task of before and to no flight. -/
theorem inv_moved (hinv : Inv s) (id : String) (P : String → Prop)
    (hrows : ∀ key row, Carries t.records.board key row →
      Carries s.records.board key row ∨ row.id = id ∧ P key)
    (hflights : ∀ k key, InFlight t k key → InFlight s k key)
    (hvacant : ∀ key, P key → ∀ row, ¬ Carries s.records.board key row)
    (hlanded : ∀ k key, P key → ¬ InFlight t k key) : Inv t := by
  refine ⟨unique_grown hrows hvacant hinv.unique, fun k k' key hk hk' =>
    hinv.apart k k' key (hflights k key hk) (hflights k' key hk'), fun k key hk row hrow => ?_⟩
  rcases hrows key row hrow with hold | ⟨-, hkey⟩
  · exact hinv.vacant k key (hflights k key hk) row hold
  · exact hlanded k key hkey hk

section Access

variable {k : ℕ} {c : Creation} {stage : Stage}

/-- A flight that was begun before. -/
theorem flights_kept (hcall : s.calls k = some (c, stage)) {records : Records} {stage' : Stage}
    (hunderway : stage'.underway = true → stage.underway = true) {k' : ℕ} {key : String}
    (hk : InFlight ⟨records, Function.update s.calls k (some (c, stage'))⟩ k' key) :
    InFlight s k' key := by
  rcases inFlight_update hk with ⟨-, hold⟩ | ⟨rfl, hkey, hstage⟩
  · exact hold
  · exact ⟨c, stage, hcall, hkey, hunderway hstage⟩

theorem inv_read (hinv : Inv s) (hcall : s.calls k = some (c, stage)) {stage' : Stage}
    (hunderway : stage'.underway = true → stage.underway = true) :
    Inv ⟨s.records, Function.update s.calls k (some (c, stage'))⟩ :=
  inv_moved hinv "" (fun _ => False) (fun _ _ => .inl)
    (fun _ _ hk => flights_kept hcall hunderway hk) (fun _ => False.elim) fun _ _ => False.elim

/-- The scan finds nothing, and no other creation with the key is in flight. -/
theorem inv_scan (hinv : Inv s)
    (hnone : findExisting h c.args (c.args.label.getD "") s.records.board.rows = none)
    (hfree : ∀ k', ¬ InFlight s k' c.key) :
    Inv ⟨s.records, Function.update s.calls k (some (c, c.proceeds))⟩ := by
  refine ⟨hinv.unique, fun i j key hi hj => ?_, fun i key hi row hrow => ?_⟩
  · rcases inFlight_update hi with ⟨-, hi⟩ | ⟨rfl, hi, -⟩
    · rcases inFlight_update hj with ⟨-, hj⟩ | ⟨-, rfl, -⟩
      · exact hinv.apart i j key hi hj
      · exact absurd hi (hfree i)
    · rcases inFlight_update hj with ⟨-, hj⟩ | ⟨rfl, -, -⟩
      · exact absurd (hi ▸ hj) (hfree j)
      · rfl
  · rcases inFlight_update hi with ⟨-, hi⟩ | ⟨-, rfl, -⟩
    · exact hinv.vacant i key hi row hrow
    · exact findExisting_none c.keyed hnone row hrow

/-- The new row has no key yet. -/
theorem inv_insert (hinv : Inv s) {parentId : Option String}
    (hcall : s.calls k = some (c, .inserting parentId)) (now : ℤ) :
    Inv ⟨{ s.records with board := s.records.board.save now (newTask c parentId) },
      Function.update s.calls k (some (c, .reading))⟩ := by
  refine inv_moved hinv c.host.uuid (fun _ => False) (fun key row hrow => ?_)
    (fun _ _ hk => flights_kept hcall (fun _ => rfl) hk) (fun _ => False.elim)
    fun _ _ => False.elim
  rcases carries_save hrow with hold | ⟨hid, hkey⟩
  · exact .inl hold
  · cases hkey

/-- The patch brings the key to a board on which no open task carries it. -/
theorem inv_patch (hinv : Inv s) {task : Task} (hcall : s.calls k = some (c, .patching task))
    (now : ℤ) :
    Inv ⟨{ s.records with board := s.records.board.save now (keyedTask h c task) },
      Function.update s.calls k (some (c, .readingBack))⟩ := by
  have hflight : InFlight s k c.key := ⟨c, .patching task, hcall, rfl, rfl⟩
  refine inv_moved hinv task.id (fun key => key = c.key) (fun key row hrow => ?_)
    (fun _ _ hk => flights_kept hcall (fun _ => rfl) hk) ?_ ?_
  · rcases carries_save hrow with hold | ⟨hid, hkey⟩
    · exact .inl hold
    · refine .inr ⟨hid, ?_⟩
      change Dict.get? (Dict.spread (metaOf task) (createMeta h c.host c.args)) "dedupeKey" = _
        at hkey
      rw [Dict.get?_spread_of_nodup _ (createMeta_nodup _ _ _), createMeta_key] at hkey
      cases hkey
      rfl
  · rintro key rfl
    exact hinv.vacant k _ hflight
  · rintro k' key rfl hk'
    rcases inFlight_update hk' with ⟨hne, hk'⟩ | ⟨-, -, hback⟩
    · exact hne (hinv.apart k' k _ hk' hflight)
    · cases hback

theorem inv_access (hinv : Inv s) (hcall : s.calls k = some (c, stage))
    (hfits : Fits h s (.access k)) {records : Records} {stage' : Stage}
    (hadvance : advance h c s.records stage = some (records, stage')) :
    Inv ⟨records, Function.update s.calls k (some (c, stage'))⟩ := by
  cases stage with
  | scanning =>
    cases hfind : findExisting h c.args (c.args.label.getD "") s.records.board.rows with
    | some task =>
      simp only [advance, hfind] at hadvance
      cases hadvance
      exact inv_read hinv hcall fun hended => nomatch hended
    | none =>
      simp only [advance, hfind] at hadvance
      cases hadvance
      exact inv_scan hinv hfind (hfits c hcall hfind)
  | finding =>
    simp only [advance] at hadvance
    split at hadvance <;> cases hadvance <;> exact inv_read hinv hcall fun _ => rfl
  | inserting parentId =>
    cases hadvance
    exact inv_insert hinv hcall _
  | reading =>
    simp only [advance] at hadvance
    split at hadvance <;> cases hadvance <;> exact inv_read hinv hcall fun _ => rfl
  | patching task =>
    cases hadvance
    exact inv_patch hinv hcall _
  | readingBack =>
    cases hadvance
    exact inv_read hinv hcall fun hended => nomatch hended
  | ended result => cases hadvance

end Access

theorem inv_step {e : Event} (hinv : Inv s) (hfits : Fits h s e) (hstep : step h s e = some t) :
    Inv t := by
  cases e with
  | call host raw =>
    cases hstep
    exact inv_call hinv hfits
  | start k c =>
    change (if (s.calls k).isNone then _ else none) = some t at hstep
    split_ifs at hstep with hnone
    cases hstep
    refine inv_moved hinv "" (fun _ => False) (fun _ _ => .inl) (fun k' key hk => ?_)
      (fun _ => False.elim) fun _ _ => False.elim
    rcases inFlight_update hk with ⟨-, hold⟩ | ⟨-, -, hscanning⟩
    · exact hold
    · cases hscanning
  | access k =>
    obtain ⟨⟨c, stage⟩, hcall, hadvanced⟩ := Option.bind_eq_some_iff.mp hstep
    obtain ⟨⟨records, stage'⟩, hadvance, rfl⟩ := Option.map_eq_some_iff.mp hadvanced
    exact inv_access hinv hcall hfits hadvance

end Steps

/-! ## Runs -/

/-- A project without tasks. -/
def start (lastSha : Option String) (evidence : List TaskReconciler.Evidence) : State :=
  ⟨blank lastSha evidence, fun _ => none⟩

section Runs

variable {h : Handler} {s t : State}

/-- The calls that are left, as programs on the store. -/
def State.pool (h : Handler) (s : State) : Pool Records (Except Failure Reply) :=
  ⟨s.records, fun k => (s.calls k).map fun call => call.2.program h call.1⟩

theorem pool_update (records : Records) (k : ℕ) (c : Creation) (stage : Stage) :
    State.pool h ⟨records, Function.update s.calls k (some (c, stage))⟩ =
      ⟨records, Function.update (s.pool h).calls k (some (stage.program h c))⟩ := by
  unfold State.pool
  refine congrArg (Pool.mk records) (funext fun i => ?_)
  by_cases hi : i = k
  · subst hi
    simp
  · simp [Function.update_of_ne hi]

theorem pool_start {k : ℕ} {c : Creation} (hstep : step h s (.start k c) = some t) :
    (s.pool h).move (.start k (TaskCalls.create h c.host c.args).run) = some (t.pool h) := by
  change (if (s.calls k).isNone then _ else none) = some t at hstep
  split_ifs at hstep with hnone
  cases hstep
  have hfree : ((s.pool h).calls k).isNone := by simpa [State.pool] using hnone
  rw [pool_update, create_keyed]
  exact if_pos hfree

/-- A step of a creation is an access of its program. -/
theorem pool_access {k : ℕ} (hstep : step h s (.access k) = some t) :
    (s.pool h).move (.access k) = some (t.pool h) := by
  obtain ⟨⟨c, stage⟩, hcall, hadvanced⟩ := Option.bind_eq_some_iff.mp hstep
  obtain ⟨⟨records, stage'⟩, hadvance, rfl⟩ := Option.map_eq_some_iff.mp hadvanced
  have hprogram : (s.pool h).calls k = some (stage.program h c) := by simp [State.pool, hcall]
  have hafter := after_program h c s.records stage
  rw [hadvance] at hafter
  change (((s.pool h).calls k).bind (Pool.after s.records)).map _ = _
  rw [hprogram, Option.bind_some, hafter, pool_update]
  rfl

theorem inv_start (lastSha : Option String) (evidence : List TaskReconciler.Evidence) :
    Inv (start lastSha evidence) := by
  refine ⟨fun _ _ _ hrow => absurd hrow.mem List.not_mem_nil, ?_, ?_⟩
  · rintro _ _ _ ⟨_, _, hcall, -⟩
    cases hcall
  · rintro _ _ ⟨_, _, hcall, -⟩
    cases hcall

/-- In every run whose steps fit, at most one open task carries a key. -/
theorem keys_unique {lastSha : Option String} {evidence : List TaskReconciler.Evidence}
    {events : List Event} (hrun : Transition.run (step h) (start lastSha evidence) events = some t)
    (hfits : Transition.Each (step h) (start lastSha evidence) events fun _ => Fits h) :
    KeysUnique t.records.board := by
  have hstep : ∀ (before : List Event) (s : State) (e : Event) (u : State),
      Transition.run (step h) (start lastSha evidence) before = some s → Inv s → Fits h s e →
        step h s e = some u → Inv u :=
    fun _ _ _ _ _ hinv hok hnext => inv_step hinv hok hnext
  exact (Transition.run_history (I := fun _ => Inv) (inv_start lastSha evidence) hstep hfits
    hrun).unique

end Runs

/-! ## Two creations at once -/

def keyedArgs : TaskArgs := { label := some "deploy", dedupeKey := some "k" }

def creation (uuid : String) : Creation := ⟨callAt 1 uuid, keyedArgs, "k", by decide⟩

def keyedCall : Dict Json := createCall "deploy" ++ [("dedupeKey", .string "k")]

theorem fits_call {h : Handler} {s : State} {host : CallHost} {raw : Dict Json}
    (hnone : ∀ k, s.calls k = none)
    (hraw : (request h host raw).map Prod.fst ≠ some .update) : Fits h s (.call host raw) := by
  have hfree : ∀ k key, ¬ InFlight s k key := by
    rintro k key ⟨c, stage, hcall, -⟩
    rw [hnone] at hcall
    cases hcall
  refine ⟨fun _ key _ _ _ k => hfree k key, fun args _ _ hrequest => ?_⟩
  rw [hrequest] at hraw
  exact absurd rfl hraw

/-- A task with a key is made and closed, and another one with the key is made. -/
theorem closed_key_free :
    ∃ t, Transition.run (step plainHandler) (start none [])
        [.call (callAt 1 "t1") keyedCall, .call (callAt 2 "t2") (closeCall "t1" "abc1234"),
          .call (callAt 3 "t3") keyedCall] = some t ∧
      t.records.board.rows.map Task.id = ["t1", "t3"] ∧ KeysUnique t.records.board := by
  have hids : (Transition.run (step plainHandler) (start none [])
      [.call (callAt 1 "t1") keyedCall, .call (callAt 2 "t2") (closeCall "t1" "abc1234"),
        .call (callAt 3 "t3") keyedCall]).map (fun t => t.records.board.rows.map Task.id) =
          some ["t1", "t3"] := by
    decide +kernel
  obtain ⟨t, hrun, hmap⟩ := Option.map_eq_some_iff.mp hids
  refine ⟨t, hrun, hmap, keys_unique hrun ?_⟩
  refine Transition.each_cons (fits_call (fun _ => rfl) (by decide +kernel)) rfl ?_
  refine Transition.each_cons (fits_call (fun _ => rfl) (by decide +kernel)) rfl ?_
  exact Transition.each_cons (fits_call (fun _ => rfl) (by decide +kernel)) rfl
    (Transition.each_nil _ _)

/-- Both creations scan the empty board before one of them saves its key. -/
theorem concurrent_keys_doubled :
    ¬ ∀ (h : Handler) (lastSha : Option String) (evidence : List TaskReconciler.Evidence)
      (events : List Event) (t : State),
        Transition.run (step h) (start lastSha evidence) events = some t →
          KeysUnique t.records.board := by
  intro hall
  have hrows : (Transition.run (step plainHandler) (start none [])
      [.start 0 (creation "t1"), .start 1 (creation "t2"), .access 0, .access 1, .access 0,
        .access 0, .access 0, .access 1, .access 1, .access 1]).map (fun t =>
          t.records.board.rows.map fun row => (row.id, isOpen row, metaAt row "dedupeKey")) =
      some [("t1", true, some (.string "k")), ("t2", true, some (.string "k"))] := by
    decide +kernel
  obtain ⟨t, hrun, hmap⟩ := Option.map_eq_some_iff.mp hrows
  have hcarries : ∀ id, (id, true, some (Json.string "k")) ∈ t.records.board.rows.map (fun row =>
      (row.id, isOpen row, metaAt row "dedupeKey")) →
        ∃ row, Carries t.records.board "k" row ∧ row.id = id := by
    intro id hmem
    obtain ⟨row, hrow, heq⟩ := List.mem_map.mp hmem
    obtain ⟨hid, hrest⟩ := Prod.mk.inj heq
    obtain ⟨hopen, hkey⟩ := Prod.mk.inj hrest
    exact ⟨row, ⟨hrow, hopen, hkey⟩, hid⟩
  rw [hmap] at hcarries
  obtain ⟨row, hrow, hid⟩ := hcarries "t1" (by simp)
  obtain ⟨row', hrow', hid'⟩ := hcarries "t2" (by simp)
  have hsame := hall plainHandler none [] _ t hrun "k" row row' hrow hrow'
  rw [hsame, hid'] at hid
  exact absurd hid (by decide)

end DedupeKeys
end Batiste
