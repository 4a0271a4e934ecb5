import Batiste.CcSessionRuns

/-! A last run over all the session files, whatever has happened before it, leaves what one
uninterrupted run from scratch leaves. -/
namespace Batiste
namespace CcSessions

open FirmMemory FactIngest Transition

variable {Vector : Type} (host : Host) (engine : Engine Vector) (namespace_ : String)

/-- The actions that neither start nor cut a run and leave the files alone. -/
def Action.quiet : Action → Bool
  | .begin _ _ | .crash _ | .grow _ _ => false
  | _ => true

/-- A run over all the session files, all of whose operations end well within the budget. -/
structure Complete (paths : List String) (maxTurns : ℕ) (as : List Action)
    (s t : State Vector) : Prop where
  all : ∀ path, s.turns host path ≠ [] → path ∈ paths
  quiet : ∀ a ∈ as, a.quiet = true
  runs : run (step host engine namespace_) s (.begin paths maxTurns :: as) = some t
  within : t.overBudget = false
  finished : ∀ path ∈ paths, t.ops.get? path = some .finished

/-- The turns that an operation which has read its file has still to do. -/
def Phase.held : Phase → Option (List TurnRecord)
  | .waiting | .failed => none
  | .looping turns _ => some turns
  | .putting _ turn rest _ => some (turn :: rest)
  | .saving _ | .finished => some []

/-- A turn of the file is stored, or still held. -/
def Left (s : State Vector) (path : String) (phase : Phase) : Prop :=
  ∀ turns ∈ phase.held, ∀ turn ∈ s.turns host path,
    s.stores host namespace_ turn ∨ ∃ read ∈ turns, Reading read turn

/-- Nothing of a file that was read is left out, unless the budget is spent. -/
def Thorough (s : State Vector) : Prop :=
  s.overBudget = true ∨
    ∀ path phase, s.ops.get? path = some phase → Left host namespace_ s path phase

/-- What a quiet step leaves as it is, and what it may only raise. -/
structure Forward (s t : State Vector) : Prop where
  content : t.content = s.content
  maxTurns : t.maxTurns = s.maxTurns
  processedTurns : s.processedTurns ≤ t.processedTurns
  stores : ∀ turn, s.stores host namespace_ turn → t.stores host namespace_ turn

variable {host engine namespace_} {s t : State Vector} {path : String}

theorem Forward.turns (h : Forward host namespace_ s t) (path : String) :
    t.turns host path = s.turns host path := by
  rw [State.turns, h.content, State.turns]

theorem Forward.overBudget (h : Forward host namespace_ s t) (hs : s.overBudget = true) :
    t.overBudget = true := by
  simp only [State.overBudget, decide_eq_true_iff] at hs ⊢
  have := h.maxTurns
  have := h.processedTurns
  omega

theorem Forward.left (h : Forward host namespace_ s t) {phase : Phase}
    (hs : Left host namespace_ s path phase) : Left host namespace_ t path phase := by
  intro turns hturns turn hturn
  rw [h.turns] at hturn
  exact (hs turns hturns turn hturn).imp_left (h.stores turn)

theorem Forward.trans {u : State Vector} (h : Forward host namespace_ s t)
    (h' : Forward host namespace_ t u) : Forward host namespace_ s u where
  content := h'.content.trans h.content
  maxTurns := h'.maxTurns.trans h.maxTurns
  processedTurns := h.processedTurns.trans h'.processedTurns
  stores turn hturn := h'.stores turn (h.stores turn hturn)

/-- The step of one operation. -/
theorem Thorough.step (h : Thorough host namespace_ s) {phase : Phase}
    (hforward : Forward host namespace_ s t) (hops : t.ops = (s.setPhase path phase).ops)
    (hleft : t.overBudget = true ∨ Left host namespace_ t path phase) :
    Thorough host namespace_ t := by
  rcases h with hbudget | hs
  · exact .inl (hforward.overBudget hbudget)
  · refine hleft.imp_right fun hleft other now hnow => ?_
    rw [hops, get?_setPhase] at hnow
    split_ifs at hnow with hother
    · cases hnow
      exact hother ▸ hleft
    · exact hforward.left (hs other now hnow)

theorem left_none {phase : Phase} (h : phase.held = none) : Left host namespace_ s path phase := by
  intro turns hturns
  rw [h] at hturns
  cases hturns

/-- An operation that holds nothing more has all turns of its file stored. -/
theorem Left.stored {phase : Phase} (h : Left host namespace_ s path phase)
    (hheld : phase.held = some []) : ∀ turn ∈ s.turns host path, s.stores host namespace_ turn := by
  intro turn hturn
  refine (h [] hheld turn hturn).resolve_right ?_
  rintro ⟨read, hread, -⟩
  cases hread

theorem Left.of_held {phase phase' : Phase} (h : Left host namespace_ s path phase)
    (hheld : phase'.held = phase.held) : Left host namespace_ s path phase' := by
  intro turns hturns
  exact h turns (hheld ▸ hturns)

/-- Of the turns that are held the first one is done. -/
theorem Left.advance {phase phase' : Phase} {turn : TurnRecord} {rest : List TurnRecord}
    (h : Left host namespace_ s path phase) (hheld : phase.held = some (turn :: rest))
    (hrest : phase'.held = some rest) (hstored : s.stores host namespace_ turn) :
    Left host namespace_ s path phase' := by
  intro turns hturns other hother
  rw [hrest] at hturns
  cases hturns
  rcases h _ hheld other hother with hdone | ⟨read, hread, hsame⟩
  · exact .inl hdone
  · rcases List.mem_cons.mp hread with rfl | hread
    · refine .inl ?_
      rw [State.stores, ← hsame.factId]
      exact hstored
    · exact .inr ⟨read, hread, hsame⟩

theorem exists_reading {reads turns : List TurnRecord} (h : List.Forall₂ Reading reads turns)
    {turn : TurnRecord} (hturn : turn ∈ turns) : ∃ read ∈ reads, Reading read turn := by
  induction h with
  | nil => cases hturn
  | cons hfirst _ ih =>
    rcases List.mem_cons.mp hturn with rfl | hturn
    · exact ⟨_, List.mem_cons_self, hfirst⟩
    · obtain ⟨read, hread, hsame⟩ := ih hturn
      exact ⟨read, List.mem_cons_of_mem _ hread, hsame⟩

/-- What a reading does not find is stored already. -/
theorem left_read (h : Inv host namespace_ s) {now : String} {turns : List TurnRecord}
    (hread : readTurns host path now (fromLine s.checkpoints path) 0 (s.content path) = .ok turns)
    {phase : Phase} (hheld : phase.held = some turns) : Left host namespace_ s path phase := by
  intro held hturns turn hturn
  rw [hheld] at hturns
  cases hturns
  rcases Nat.lt_or_ge (fromLine s.checkpoints path) turn.lineNumber with hnew | hold
  · have hfound : turn ∈ (turnsFrom host path 0 (s.content path)).filter
        fun turn => decide (fromLine s.checkpoints path < turn.lineNumber) :=
      List.mem_filter.mpr ⟨hturn, decide_eq_true hnew⟩
    exact .inr (exists_reading (readTurns_eq hread) hfound)
  · exact .inl ((h.checkpoints path).stored turn hturn hold)

theorem forward_setPhase (s : State Vector) (path : String) (phase : Phase) :
    Forward host namespace_ s (s.setPhase path phase) := ⟨rfl, rfl, le_rfl, fun _ h => h⟩

theorem forward_advance (s : State Vector) (path : String) (turn : TurnRecord)
    (rest : List TurnRecord) (last : ℕ) :
    Forward host namespace_ s (advance s path turn rest last) :=
  ⟨rfl, rfl, Nat.le_succ _, fun _ h => h⟩

theorem forward_finalize (s : State Vector) (path : String) (last : ℕ) :
    Forward host namespace_ s (finalize s path last) := ⟨rfl, rfl, le_rfl, fun _ h => h⟩

theorem forward_putFact (s : State Vector) (turn : TurnRecord) (clock now : String) :
    Forward host namespace_ s
      (s.putFact engine namespace_ (turnToFact host turn clock) now) :=
  ⟨rfl, rfl, le_rfl, (extends_putFact turn clock now).stores⟩

theorem thorough_readStep (h : Thorough host namespace_ s) (hinv : Inv host namespace_ s)
    (now : String) : Thorough host namespace_ (readStep host s path now) ∧
      Forward host namespace_ s (readStep host s path now) := by
  have hset : ∀ phase, Forward host namespace_ s (s.setPhase path phase) :=
    forward_setPhase s path
  unfold readStep
  split
  case isTrue hbudget => exact ⟨h.step (hset _) rfl (.inl hbudget), hset _⟩
  case isFalse =>
    split
    · exact ⟨h.step (hset _) rfl (.inr (left_none rfl)), hset _⟩
    · rename_i hread
      exact ⟨h.step (hset _) rfl (.inr ((hset _).left (left_read hinv hread rfl))), hset _⟩
    · rename_i turns hread
      exact ⟨h.step (hset _) rfl (.inr ((hset _).left (left_read hinv hread rfl))), hset _⟩

theorem thorough_lookStep (h : Thorough host namespace_ s)
    {turns : List TurnRecord} {last : ℕ} (hop : s.ops.get? path = some (.looping turns last))
    (now : String) : Thorough host namespace_ (lookStep host namespace_ s path now turns last) ∧
      Forward host namespace_ s (lookStep host namespace_ s path now turns last) := by
  have hleft := h.imp_right fun hs => hs path _ hop
  cases turns with
  | nil =>
    have hforward : Forward host namespace_ s (finalize s path last) :=
      forward_finalize s path last
    exact ⟨h.step hforward rfl (hleft.imp hforward.overBudget
      fun hleft => hforward.left (hleft.of_held rfl)), hforward⟩
  | cons turn rest =>
    rw [lookStep]
    split
    case isTrue hbudget =>
      have hforward : Forward host namespace_ s (finalize s path last) :=
        forward_finalize s path last
      exact ⟨h.step hforward rfl (.inl (hforward.overBudget hbudget)), hforward⟩
    case isFalse =>
      dsimp only
      split
      case isTrue hstored =>
        have hforward : Forward host namespace_ s
            (advance s path turn rest last) := forward_advance s path turn rest last
        exact ⟨h.step hforward rfl (hleft.imp hforward.overBudget fun hleft =>
          hforward.left (hleft.advance rfl rfl (isStored_stores hstored))), hforward⟩
      case isFalse =>
        have hforward : Forward host namespace_ s
            (s.setPhase path (.putting (turnToFact host turn now) turn rest last)) :=
          forward_setPhase s path _
        exact ⟨h.step hforward rfl (hleft.imp hforward.overBudget
          fun hleft => hforward.left (hleft.of_held rfl)), hforward⟩

theorem thorough_putStep (h : Thorough host namespace_ s) (hinv : Inv host namespace_ s)
    {fact : FactEntry} {turn : TurnRecord} {rest : List TurnRecord} {last : ℕ}
    (hop : s.ops.get? path = some (.putting fact turn rest last)) (now : String)
    (outcome : PutOutcome) :
    Thorough host namespace_ (putStep engine namespace_ s path now fact turn rest last outcome) ∧
      Forward host namespace_ s
        (putStep engine namespace_ s path now fact turn rest last outcome) := by
  have hleft := h.imp_right fun hs => hs path _ hop
  obtain ⟨-, clock, rfl⟩ := hinv.ops path _ hop
  have hput : Forward host namespace_ s
      (s.putFact engine namespace_ (turnToFact host turn clock) now) :=
    forward_putFact s turn clock now
  cases outcome with
  | stored =>
    have hforward := hput.trans (forward_advance _ path turn rest last)
    refine ⟨h.step hforward rfl (hleft.imp hforward.overBudget fun hleft =>
      (hforward.left hleft).advance rfl rfl ?_), hforward⟩
    change (FirmMemory.get namespace_ (s.putFact engine namespace_
      (turnToFact host turn clock) now).facts (factId host turn)).isSome
    rw [get_putFact, if_pos rfl]
    rfl
  | refused =>
    have hforward : Forward host namespace_ s (s.setPhase path .failed) :=
      forward_setPhase s path _
    exact ⟨h.step hforward rfl (.inr (left_none rfl)), hforward⟩
  | storedThenFailed =>
    have hforward := hput.trans (forward_setPhase _ path .failed)
    exact ⟨h.step hforward rfl (.inr (left_none rfl)), hforward⟩

theorem thorough_saveStep (h : Thorough host namespace_ s) {checkpoints : CheckpointMap}
    (hop : s.ops.get? path = some (.saving checkpoints)) (outcome : SaveOutcome) :
    Thorough host namespace_ (saveStep s path checkpoints outcome) ∧
      Forward host namespace_ s (saveStep s path checkpoints outcome) := by
  have hleft := h.imp_right fun hs => hs path _ hop
  have hforward : Forward host namespace_ s (saveStep s path checkpoints outcome) := by
    cases outcome <;> exact ⟨rfl, rfl, le_rfl, fun _ h => h⟩
  have hdone : (saveStep s path checkpoints outcome).overBudget = true ∨
      Left host namespace_ (saveStep s path checkpoints outcome) path .finished :=
    hleft.imp hforward.overBudget fun hleft => hforward.left (hleft.of_held rfl)
  cases outcome with
  | saved => exact ⟨h.step hforward rfl hdone, hforward⟩
  | overlapped => exact ⟨h.step hforward rfl hdone, hforward⟩
  | torn => exact ⟨h.step hforward rfl (.inr (left_none rfl)), hforward⟩
  | refused => exact ⟨h.step hforward rfl (.inr (left_none rfl)), hforward⟩

theorem quiet_step {a : Action} (hquiet : a.quiet = true) (hinv : Inv host namespace_ s)
    (h : Thorough host namespace_ s) (hstep : step host engine namespace_ s a = some t) :
    Thorough host namespace_ t ∧ Forward host namespace_ s t := by
  cases a with
  | begin paths maxTurns => cases hquiet
  | crash torn => cases hquiet
  | grow path lines => cases hquiet
  | read path now =>
    rw [step] at hstep
    split at hstep
    · cases hstep
      exact thorough_readStep h hinv now
    · cases hstep
  | look path now =>
    rw [step] at hstep
    split at hstep
    · rename_i turns last hop
      cases hstep
      exact thorough_lookStep h hop now
    · cases hstep
  | put path now outcome =>
    rw [step] at hstep
    split at hstep
    · rename_i fact turn rest last hop
      cases hstep
      exact thorough_putStep h hinv hop now outcome
    · cases hstep
  | save path outcome =>
    rw [step] at hstep
    split at hstep
    · rename_i checkpoints hop
      cases hstep
      exact thorough_saveStep h hop outcome
    · cases hstep

theorem quiet_run {as : List Action} (hquiet : ∀ a ∈ as, a.quiet = true)
    (hinv : Inv host namespace_ s) (h : Thorough host namespace_ s)
    (hrun : run (step host engine namespace_) s as = some t) :
    Inv host namespace_ t ∧ Thorough host namespace_ t ∧ Forward host namespace_ s t := by
  induction as generalizing s with
  | nil =>
    cases hrun
    exact ⟨hinv, h, rfl, rfl, le_rfl, fun _ h => h⟩
  | cons a as ih =>
    obtain ⟨u, hstep, hrest⟩ := run_cons_iff.mp hrun
    obtain ⟨hu, hforward⟩ := quiet_step (hquiet a List.mem_cons_self) hinv h hstep
    obtain ⟨ht, hthorough, hlater⟩ := ih (fun b hb => hquiet b (List.mem_cons_of_mem _ hb))
      (inv_step hinv hstep) hu hrest
    exact ⟨ht, hthorough, hforward.trans hlater⟩

/-- A run from its start on; no file is read yet. -/
theorem begin_run {paths : List String} {maxTurns : ℕ} {as : List Action}
    (hquiet : ∀ a ∈ as, a.quiet = true) (hinv : Inv host namespace_ s)
    (hrun : run (step host engine namespace_) s (.begin paths maxTurns :: as) = some t) :
    Inv host namespace_ t ∧ Thorough host namespace_ t ∧ t.content = s.content := by
  obtain ⟨u, hstep, hrest⟩ := run_cons_iff.mp hrun
  have hu : Inv host namespace_ u := inv_step hinv hstep
  rw [step] at hstep
  split_ifs at hstep
  cases hstep
  obtain ⟨ht, hthorough, hforward⟩ := quiet_run hquiet hu (.inr fun path phase hphase =>
    left_none (by rw [get?_waiting hphase]; rfl)) hrest
  exact ⟨ht, hthorough, hforward.content⟩

/-- After a complete run every turn of the files is stored. -/
theorem Complete.stores {paths : List String} {maxTurns : ℕ} {as : List Action}
    (hinv : Inv host namespace_ s) (h : Complete host engine namespace_ paths maxTurns as s t) :
    Inv host namespace_ t ∧ t.content = s.content ∧
      ∀ path, ∀ turn ∈ s.turns host path, t.stores host namespace_ turn := by
  obtain ⟨ht, hthorough, hcontent⟩ := begin_run h.quiet hinv h.runs
  refine ⟨ht, hcontent, fun path turn hturn => ?_⟩
  have hpath : path ∈ paths := h.all path (List.ne_nil_of_mem hturn)
  have hleft := hthorough.resolve_left (by rw [h.within]; exact Bool.false_ne_true) path _
    (h.finished path hpath)
  rw [State.turns, ← hcontent] at hturn
  exact hleft.stored rfl turn hturn

variable (host) in
/-- The turns of an id give one fact. -/
def OneFact (s : State Vector) (id : String) : Prop :=
  ∀ path, ∀ turn ∈ s.turns host path, ∀ path', ∀ turn' ∈ s.turns host path',
    factId host turn = id → factId host turn' = id → projected host turn = projected host turn'

variable (host) in
/-- The turns of an id have one time. -/
def OneTime (s : State Vector) (id : String) : Prop :=
  ∀ path, ∀ turn ∈ s.turns host path, ∀ path', ∀ turn' ∈ s.turns host path',
    factId host turn = id → factId host turn' = id →
      turn.timestamp = turn'.timestamp ∧ turn.timestamp ≠ ""

theorem Complete.isSome_iff {paths : List String} {maxTurns : ℕ} {as : List Action}
    (hinv : Inv host namespace_ s) (h : Complete host engine namespace_ paths maxTurns as s t)
    (id : String) : (FirmMemory.get namespace_ t.facts id).isSome ↔
      ∃ path, ∃ turn ∈ s.turns host path, factId host turn = id := by
  obtain ⟨ht, hcontent, hstores⟩ := h.stores hinv
  constructor
  · intro hsome
    obtain ⟨fact, hfact⟩ := Option.isSome_iff_exists.mp hsome
    obtain ⟨path, turn, hturn, hid, -⟩ := ht.sound.fact id fact hfact
    rw [State.turns, hcontent] at hturn
    exact ⟨path, turn, hturn, hid⟩
  · rintro ⟨path, turn, hturn, rfl⟩
    exact hstores path turn hturn

/-- Two stores whose facts are those of the same turns agree on an id of one fact. -/
theorem stored_eq {u : State Vector} (hs : Sound host namespace_ s) (ht : Sound host namespace_ t)
    (hturns : ∀ path, s.turns host path = u.turns host path)
    (hturns' : ∀ path, t.turns host path = u.turns host path) {id : String}
    (hsome : (FirmMemory.get namespace_ s.facts id).isSome ↔
      (FirmMemory.get namespace_ t.facts id).isSome) :
    (OneFact host u id → stored namespace_ s.facts id = stored namespace_ t.facts id) ∧
      (OneTime host u id → (FirmMemory.get namespace_ s.facts id).map Entry.created_at =
        (FirmMemory.get namespace_ t.facts id).map Entry.created_at) := by
  rw [stored, stored]
  cases hfact : FirmMemory.get namespace_ s.facts id with
  | none =>
    rw [hfact] at hsome
    cases hfact' : FirmMemory.get namespace_ t.facts id with
    | none => exact ⟨fun _ => rfl, fun _ => rfl⟩
    | some fact' => simp [hfact'] at hsome
  | some fact =>
    rw [hfact] at hsome
    obtain ⟨fact', hfact'⟩ := Option.isSome_iff_exists.mp (hsome.mp rfl)
    rw [hfact', Option.map_some, Option.map_some, Option.map_some, Option.map_some]
    constructor
    · intro hone
      obtain ⟨path, turn, hturn, hid, hproj⟩ := hs.fact id fact hfact
      obtain ⟨path', turn', hturn', hid', hproj'⟩ := ht.fact id fact' hfact'
      rw [hproj, hproj', hone path turn (hturns path ▸ hturn) path' turn' (hturns' path' ▸ hturn')
        hid hid']
    · intro hone
      obtain ⟨path, turn, hturn, hid, htime⟩ := hs.time id fact hfact
      obtain ⟨path', turn', hturn', hid', htime'⟩ := ht.time id fact' hfact'
      obtain ⟨hsame, hne⟩ := hone path turn (hturns path ▸ hturn) path' turn'
        (hturns' path' ▸ hturn') hid hid'
      rw [htime.resolve_left hne, htime'.resolve_left (hsame ▸ hne), hsame]

/-- Whatever runs there have been, how far they got and how the files have grown: no checkpoint
stands behind a turn whose id is not stored, each fact is that of a turn with its id, and no id
is stored twice.  A run over all files that ends well then leaves the ids of all turns, as a run
from scratch does, and the same fact under each id whose turns give one. -/
theorem ingest_resumes (content : String → List String) (as : List Action)
    (hrun : run (step host engine namespace_) (init content) as = some s) :
    (∀ path, ∀ turn ∈ s.turns host path,
      turn.lineNumber ≤ fromLine s.saved path ∨ turn.lineNumber ≤ fromLine s.checkpoints path →
        s.stores host namespace_ turn) ∧
    Sound host namespace_ s ∧
    ((entriesOf namespace_ s.facts).map Entry.id).Nodup ∧
    ∀ paths maxTurns bs t, Complete host engine namespace_ paths maxTurns bs s t →
      (∀ id, (FirmMemory.get namespace_ t.facts id).isSome ↔
        ∃ path, ∃ turn ∈ s.turns host path, factId host turn = id) ∧
      Sound host namespace_ t ∧
      ((entriesOf namespace_ t.facts).map Entry.id).Nodup ∧
      ∀ paths' maxTurns' cs once,
        Complete host engine namespace_ paths' maxTurns' cs (init s.content) once →
        ∀ id, ((FirmMemory.get namespace_ t.facts id).isSome ↔
            (FirmMemory.get namespace_ once.facts id).isSome) ∧
          (OneFact host s id → stored namespace_ t.facts id = stored namespace_ once.facts id) ∧
          (OneTime host s id → (FirmMemory.get namespace_ t.facts id).map Entry.created_at =
            (FirmMemory.get namespace_ once.facts id).map Entry.created_at) := by
  have hinv : Inv host namespace_ s :=
    run_invariant (fun _ _ _ h hstep => inv_step h hstep) (inv_init content) hrun
  refine ⟨fun path turn hturn hline => ?_, hinv.sound, hinv.nodup,
    fun paths maxTurns bs t hcomplete => ?_⟩
  · rcases hline with hsaved | hmemory
    · exact (hinv.saved path).stored turn hturn hsaved
    · exact (hinv.checkpoints path).stored turn hturn hmemory
  · obtain ⟨ht, hcontent, -⟩ := hcomplete.stores hinv
    refine ⟨hcomplete.isSome_iff hinv, ht.sound, ht.nodup,
      fun paths' maxTurns' cs once honce id => ?_⟩
    obtain ⟨hfresh, hcontent', -⟩ := honce.stores (inv_init s.content)
    have hsome : (FirmMemory.get namespace_ t.facts id).isSome ↔
        (FirmMemory.get namespace_ once.facts id).isSome :=
      (hcomplete.isSome_iff hinv id).trans (honce.isSome_iff (inv_init s.content) id).symm
    exact ⟨hsome, stored_eq ht.sound hfresh.sound
      (fun path => by rw [State.turns, hcontent, State.turns])
      (fun path => by rw [State.turns, hcontent']; rfl) hsome⟩

/-! ## A session that is copied -/

/-- A turn that says `hi`. -/
def hiLine : String :=
  "\x7b\"type\":\"user\",\"uuid\":\"u\",\"sessionId\":\"s\",\"message\":\x7b\"content\":\"hi\"\x7d\x7d"

/-- A host on texts that hold no secret; the hash is that of `s::u::hi`. -/
def hiHost : Host where
  runtime :=
    { sha256 := fun _ => "277cd1e6b45a85597a904ddf04f207e8481a03acc7bce67124d99ecc7aee289f"
      matchCount := fun _ _ => 0
      replaceAll := fun _ _ text => text
      nfd := id
      toLowerCase := id }
  parse := fun line =>
    if line = hiLine then
      .event ⟨some "user", some "u", some "s", none, some (.text "hi")⟩
    else .malformed
  basename := fun _ => "s"
  cwdDir := fun path => if path = "/h/-a/s.jsonl" then "-a" else "-b"
  relativeToHome := fun path => if path = "/h/-a/s.jsonl" then "-a/s.jsonl" else "-b/s.jsonl"

def copies : List String := ["/h/-a/s.jsonl", "/h/-b/s.jsonl"]

/-- The session stands in two directories. -/
def copied (path : String) : List String :=
  if path ∈ copies then [hiLine] else []

/-- What the operation of a file does when it puts its one turn. -/
def putsTurn (path : String) : List Action :=
  [.read path "now", .look path "now", .put path "now" .stored, .look path "now", .save path .saved]

/-- What it does when it finds its one turn stored. -/
def findsTurn (path : String) : List Action :=
  [.read path "now", .look path "now", .look path "now", .save path .saved]

/-- The put of the first file fails, and that of the second one does not. -/
def firstRun : List Action :=
  .begin copies 0 :: ([.read "/h/-a/s.jsonl" "now", .look "/h/-a/s.jsonl" "now",
    .put "/h/-a/s.jsonl" "now" .refused] ++ putsTurn "/h/-b/s.jsonl")

/-- The rest of a run that comes after it; the second file has no new turns. -/
def lastRun : List Action := findsTurn "/h/-a/s.jsonl" ++ [.read "/h/-b/s.jsonl" "now"]

/-- The rest of a run that nothing came before. -/
def onlyRun : List Action := putsTurn "/h/-a/s.jsonl" ++ findsTurn "/h/-b/s.jsonl"

abbrev hiStep := step hiHost unitEngine "firm"

theorem copied_all {s : State Unit} (h : s.content = copied) (path : String)
    (hpath : s.turns hiHost path ≠ []) : path ∈ copies := by
  by_contra hother
  apply hpath
  rw [State.turns, h, copied, if_neg hother]
  rfl

theorem firstRun_some : (run hiStep (init copied) firstRun).isSome := by decide +kernel

/-- The state after the failing run. -/
def failedOnce : State Unit := (run hiStep (init copied) firstRun).get firstRun_some

theorem failedOnce_run : run hiStep (init copied) firstRun = some failedOnce :=
  (Option.some_get firstRun_some).symm

theorem failedOnce_content : failedOnce.content = copied :=
  (begin_run (by decide) (inv_init copied) failedOnce_run).2.2

theorem runs_some : (run hiStep failedOnce (.begin copies 0 :: lastRun)).isSome ∧
    (run hiStep (init copied) (.begin copies 0 :: onlyRun)).isSome := by
  decide +kernel

def resumed : State Unit := (run hiStep failedOnce (.begin copies 0 :: lastRun)).get runs_some.1

def uninterrupted : State Unit :=
  (run hiStep (init copied) (.begin copies 0 :: onlyRun)).get runs_some.2

/-- Both runs end within the budget, with every file done, and with the fact of another file. -/
theorem runs_end :
    (resumed.overBudget = false ∧ ∀ path ∈ copies, resumed.ops.get? path = some .finished) ∧
    (uninterrupted.overBudget = false ∧
      ∀ path ∈ copies, uninterrupted.ops.get? path = some .finished) ∧
    (stored "firm" resumed.facts "277cd1e6b45a8559").map (fun e => e.rest.vault_ref) ≠
      (stored "firm" uninterrupted.facts "277cd1e6b45a8559").map (fun e => e.rest.vault_ref) := by
  decide +kernel

theorem resumed_complete :
    Complete hiHost unitEngine "firm" copies 0 lastRun failedOnce resumed where
  all := copied_all failedOnce_content
  quiet := by decide
  runs := (Option.some_get runs_some.1).symm
  within := runs_end.1.1
  finished := runs_end.1.2

theorem uninterrupted_complete :
    Complete hiHost unitEngine "firm" copies 0 onlyRun (init copied) uninterrupted where
  all := copied_all rfl
  quiet := by decide
  runs := (Option.some_get runs_some.2).symm
  within := runs_end.2.1.1
  finished := runs_end.2.1.2

/-- Both runs store the turn, once. -/
theorem copied_resumes :
    ((FirmMemory.get "firm" resumed.facts "277cd1e6b45a8559").isSome ↔
      (FirmMemory.get "firm" uninterrupted.facts "277cd1e6b45a8559").isSome) ∧
    ((entriesOf "firm" resumed.facts).map Entry.id).Nodup := by
  obtain ⟨-, -, -, hlast⟩ :=
    @ingest_resumes _ hiHost unitEngine "firm" _ copied firstRun failedOnce_run
  obtain ⟨-, -, hnodup, hsame⟩ := hlast copies 0 lastRun resumed resumed_complete
  have honce := hsame copies 0 onlyRun uninterrupted
    (by rw [failedOnce_content]; exact uninterrupted_complete)
  exact ⟨(honce "277cd1e6b45a8559").1, hnodup⟩

/-- The fact of the copied turn names the file it was first stored from. -/
theorem copied_differs :
    ¬ ∀ (host : Host) (engine : Engine Unit) (namespace_ : String)
      (content : String → List String) (as : List Action) (s : State Unit),
      run (step host engine namespace_) (init content) as = some s →
      ∀ paths bs t cs once, Complete host engine namespace_ paths 0 bs s t →
        Complete host engine namespace_ paths 0 cs (init s.content) once →
        ∀ id, stored namespace_ t.facts id = stored namespace_ once.facts id := by
  intro h
  have hsame := h hiHost unitEngine "firm" copied firstRun failedOnce failedOnce_run copies lastRun
    resumed onlyRun uninterrupted resumed_complete
    (by rw [failedOnce_content]; exact uninterrupted_complete) "277cd1e6b45a8559"
  exact runs_end.2.2 (congrArg _ hsame)

end CcSessions
end Batiste
