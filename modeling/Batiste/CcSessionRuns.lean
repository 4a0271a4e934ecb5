import Batiste.CcSessions

/-! What the runs of `ingest cc-sessions` keep: no checkpoint stands behind a turn that is not
stored, whatever fails, is cut off or grows in between. -/
namespace Batiste
namespace CcSessions

open FirmMemory FactIngest Transition

variable {Vector : Type} (host : Host) (engine : Engine Vector) (namespace_ : String)

def State.turns (s : State Vector) (path : String) : List TurnRecord :=
  sessionTurns host path (s.content path)

def State.stores (s : State Vector) (turn : TurnRecord) : Prop :=
  (FirmMemory.get namespace_ s.facts (factId host turn)).isSome

/-- The turns up to a line are stored, and the line is that of the last of them. -/
structure Covered (s : State Vector) (path : String) (n : ℕ) : Prop where
  line : n = 0 ∨ ∃ turn ∈ s.turns host path, turn.lineNumber = n
  stored : ∀ turn ∈ s.turns host path, turn.lineNumber ≤ n → s.stores host namespace_ turn

/-- The turns an operation still holds are the next ones behind its last line. -/
structure Ahead (s : State Vector) (path : String) (turns : List TurnRecord) (last : ℕ) :
    Prop where
  covered : Covered host namespace_ s path last
  next : ∃ ahead, List.Forall₂ Reading turns ahead ∧
    ahead <+: (s.turns host path).filter fun turn => decide (last < turn.lineNumber)

def PhaseInv (s : State Vector) (path : String) : Phase → Prop
  | .looping turns last => Ahead host namespace_ s path turns last
  | .putting fact turn rest last =>
    Ahead host namespace_ s path (turn :: rest) last ∧ ∃ now, fact = turnToFact host turn now
  | .saving checkpoints => ∀ other, Covered host namespace_ s other (fromLine checkpoints other)
  | _ => True

/-- A fact of the store is that of a turn of the files, and its time that of the first one. -/
structure Sound (s : State Vector) : Prop where
  fact : ∀ id fact, FirmMemory.get namespace_ s.facts id = some fact → ∃ path,
    ∃ turn ∈ s.turns host path, factId host turn = id ∧ undated fact = projected host turn
  time : ∀ id fact, FirmMemory.get namespace_ s.facts id = some fact → ∃ path,
    ∃ turn ∈ s.turns host path, factId host turn = id ∧
      (turn.timestamp = "" ∨ fact.created_at = turn.timestamp)

structure Inv (s : State Vector) : Prop where
  saved : ∀ path, Covered host namespace_ s path (fromLine s.saved path)
  checkpoints : ∀ path, Covered host namespace_ s path (fromLine s.checkpoints path)
  ops : ∀ path phase, s.ops.get? path = some phase → PhaseInv host namespace_ s path phase
  sound : Sound host namespace_ s
  nodup : ((entriesOf namespace_ s.facts).map Entry.id).Nodup

variable {host engine namespace_} {s t : State Vector} {path : String}

/-! ## What a later state keeps -/

variable (host namespace_) in
/-- Files have only grown, and what was stored still is. -/
structure Extends (s t : State Vector) : Prop where
  turns : ∀ path, ∃ more, t.turns host path = s.turns host path ++ more
  stores : ∀ turn, s.stores host namespace_ turn → t.stores host namespace_ turn

theorem Extends.of_eq (hcontent : t.content = s.content) (hfacts : t.facts = s.facts) :
    Extends host namespace_ s t where
  turns path := ⟨[], by rw [State.turns, State.turns, hcontent, List.append_nil]⟩
  stores turn h := by
    rw [State.stores, hfacts]
    exact h

theorem Extends.sound (he : Extends host namespace_ s t) (hfacts : t.facts = s.facts)
    (h : Sound host namespace_ s) : Sound host namespace_ t := by
  have hmem : ∀ {path turn}, turn ∈ s.turns host path → turn ∈ t.turns host path := by
    intro path turn hturn
    obtain ⟨more, hmore⟩ := he.turns path
    exact hmore ▸ List.mem_append_left _ hturn
  constructor <;> intro id fact hfact <;> rw [hfacts] at hfact
  · obtain ⟨path, turn, hturn, hrest⟩ := h.fact id fact hfact
    exact ⟨path, turn, hmem hturn, hrest⟩
  · obtain ⟨path, turn, hturn, hrest⟩ := h.time id fact hfact
    exact ⟨path, turn, hmem hturn, hrest⟩

theorem State.turns_sorted (s : State Vector) (path : String) :
    (s.turns host path).Pairwise fun a b => a.lineNumber < b.lineNumber :=
  (turnsFrom_sorted path 0 (s.content path)).2

theorem State.turns_pos {turn : TurnRecord} (h : turn ∈ s.turns host path) :
    0 < turn.lineNumber :=
  (turnsFrom_sorted path 0 (s.content path)).1 turn h

theorem Covered.mono {n : ℕ} (h : Covered host namespace_ s path n)
    (he : Extends host namespace_ s t) : Covered host namespace_ t path n := by
  obtain ⟨more, hmore⟩ := he.turns path
  have hsorted : (t.turns host path).Pairwise fun a b => a.lineNumber < b.lineNumber :=
    t.turns_sorted path
  rw [hmore, List.pairwise_append] at hsorted
  constructor
  · refine h.line.imp_right fun ⟨turn, hturn, hn⟩ => ⟨turn, ?_, hn⟩
    rw [hmore]
    exact List.mem_append_left _ hturn
  · intro turn hturn hn
    rcases List.mem_append.mp (hmore ▸ hturn) with hold | hnew
    · exact he.stores turn (h.stored turn hold hn)
    · -- a new turn stands behind every line there was
      rcases h.line with hzero | ⟨old, hold, hline⟩
      · have := State.turns_pos hturn
        omega
      · have := hsorted.2.2 old hold turn hnew
        omega

theorem Ahead.mono {turns : List TurnRecord} {last : ℕ}
    (h : Ahead host namespace_ s path turns last) (he : Extends host namespace_ s t) : Ahead host namespace_ t path turns last := by
  obtain ⟨ahead, hread, hahead⟩ := h.next
  refine ⟨h.covered.mono he, ahead, hread, hahead.trans ?_⟩
  obtain ⟨more, hmore⟩ := he.turns path
  rw [hmore, List.filter_append]
  exact List.prefix_append _ _

theorem PhaseInv.mono {phase : Phase} (h : PhaseInv host namespace_ s path phase)
    (he : Extends host namespace_ s t) : PhaseInv host namespace_ t path phase := by
  cases phase with
  | looping turns last => exact Ahead.mono h he
  | putting fact turn rest last => exact ⟨Ahead.mono h.1 he, h.2⟩
  | saving checkpoints => exact fun other => (h other).mono he
  | waiting => trivial
  | finished => trivial
  | failed => trivial

/-- The turn an operation is at, as it stands in the file. -/
theorem Ahead.head {turn : TurnRecord} {rest : List TurnRecord} {last : ℕ}
    (h : Ahead host namespace_ s path (turn :: rest) last) :
    ∃ first ∈ s.turns host path, Reading turn first := by
  obtain ⟨_, hread, hahead⟩ := h.next
  cases hread with
  | cons hfirst _ => exact ⟨_, List.mem_of_mem_filter (hahead.subset List.mem_cons_self), hfirst⟩

/-- Behind the first of the turns behind a line, the others follow. -/
theorem filter_behind {turns rest : List TurnRecord} {turn : TurnRecord} {last : ℕ}
    (hsorted : turns.Pairwise fun a b => a.lineNumber < b.lineNumber)
    (h : (turns.filter fun other => decide (last < other.lineNumber)) = turn :: rest) :
    (turns.filter fun other => decide (turn.lineNumber < other.lineNumber)) = rest := by
  have hmem : turn ∈ turns.filter fun other => decide (last < other.lineNumber) :=
    h ▸ List.mem_cons_self
  have hlast : last < turn.lineNumber := by simpa using List.of_mem_filter hmem
  have hrest := (h ▸ hsorted.filter _ : (turn :: rest).Pairwise _)
  calc (turns.filter fun other => decide (turn.lineNumber < other.lineNumber))
      = (turns.filter fun other => decide (last < other.lineNumber)).filter
          fun other => decide (turn.lineNumber < other.lineNumber) := by
        rw [List.filter_filter]
        apply List.filter_congr
        intro other _
        rw [← Bool.decide_and, decide_eq_decide]
        omega
    _ = rest := by
        rw [h, List.filter_cons_of_neg (by simp), List.filter_eq_self]
        exact fun other hother => decide_eq_true ((List.pairwise_cons.mp hrest).1 other hother)

/-- Once its first turn is stored, an operation goes on to the next one. -/
theorem Ahead.advance {turn : TurnRecord} {rest : List TurnRecord} {last : ℕ}
    (h : Ahead host namespace_ s path (turn :: rest) last)
    (hstored : s.stores host namespace_ turn) :
    Ahead host namespace_ s path rest (max last turn.lineNumber) := by
  obtain ⟨_, hread, more, hmore⟩ := h.next
  cases hread with
  | @cons _ first _ ahead hfirst hrest =>
    have hmem : first ∈ (s.turns host path).filter fun other => decide (last < other.lineNumber) :=
      hmore ▸ List.mem_cons_self
    rw [List.mem_filter, decide_eq_true_iff] at hmem
    obtain ⟨hmem, hlast⟩ := hmem
    have hbehind : ((s.turns host path).filter fun other =>
        decide (first.lineNumber < other.lineNumber)) = ahead ++ more :=
      filter_behind (s.turns_sorted path) hmore.symm
    rw [hfirst.lineNumber, max_eq_right hlast.le]
    refine ⟨⟨.inr ⟨first, hmem, rfl⟩, fun other hother hline => ?_⟩, ahead, hrest, more,
      hbehind.symm⟩
    rcases Nat.lt_or_ge last other.lineNumber with hnext | hold
    · -- between the two lines there is no turn but this one
      have hfilter : other ∈ (s.turns host path).filter fun turn =>
          decide (last < turn.lineNumber) := List.mem_filter.mpr ⟨hother, decide_eq_true hnext⟩
      rw [← hmore] at hfilter
      rcases List.mem_cons.mp hfilter with rfl | hlater
      · rw [State.stores, ← hfirst.factId]
        exact hstored
      · have hlater : other ∈ ahead ++ more := hlater
        rw [← hbehind, List.mem_filter, decide_eq_true_iff] at hlater
        exact absurd hline (Nat.not_le.mpr hlater.2)
    · exact h.covered.stored other hother hold

/-! ## Steps -/

theorem fromLine_set (checkpoints : CheckpointMap) (path other : String) (n : ℕ) :
    fromLine (setCheckpoint checkpoints "cc-sessions" path (.number n)) other =
      if other = path then n else fromLine checkpoints other := by
  rw [fromLine, getCheckpoint_set]
  split <;> rfl

theorem get?_setPhase (s : State Vector) (path other : String) (phase : Phase) :
    (s.setPhase path phase).ops.get? other =
      if other = path then some phase else s.ops.get? other := Dict.get?_set _ _ _ _

theorem Inv.keep (h : Inv host namespace_ s) (hcontent : t.content = s.content)
    (hfacts : t.facts = s.facts)
    (hsaved : ∀ path, Covered host namespace_ s path (fromLine t.saved path))
    (hcheckpoints : ∀ path, Covered host namespace_ s path (fromLine t.checkpoints path))
    (hops : ∀ path phase, t.ops.get? path = some phase → PhaseInv host namespace_ s path phase) :
    Inv host namespace_ t := by
  have he : Extends host namespace_ s t := .of_eq hcontent hfacts
  refine ⟨fun path => (hsaved path).mono he, fun path => (hcheckpoints path).mono he,
    fun path phase hphase => (hops path phase hphase).mono he, he.sound hfacts h.sound, ?_⟩
  rw [hfacts]
  exact h.nodup

theorem Inv.extend (h : Inv host namespace_ s) (he : Extends host namespace_ s t)
    (hsaved : t.saved = s.saved) (hcheckpoints : t.checkpoints = s.checkpoints)
    (hops : t.ops = s.ops) (hsound : Sound host namespace_ t)
    (hnodup : ((entriesOf namespace_ t.facts).map Entry.id).Nodup) : Inv host namespace_ t where
  saved path := hsaved ▸ (h.saved path).mono he
  checkpoints path := hcheckpoints ▸ (h.checkpoints path).mono he
  ops path phase hphase := (h.ops path phase (hops ▸ hphase)).mono he
  sound := hsound
  nodup := hnodup

theorem Inv.phases (h : Inv host namespace_ s) (phase : Phase)
    (hphase : PhaseInv host namespace_ s path phase) (other : String) (now : Phase)
    (hnow : (s.setPhase path phase).ops.get? other = some now) :
    PhaseInv host namespace_ s other now := by
  rw [get?_setPhase] at hnow
  split_ifs at hnow with hother
  · cases hnow
    exact hother ▸ hphase
  · exact h.ops other now hnow

theorem Inv.setPhase (h : Inv host namespace_ s) {phase : Phase}
    (hphase : PhaseInv host namespace_ s path phase) :
    Inv host namespace_ (s.setPhase path phase) :=
  h.keep rfl rfl h.saved h.checkpoints (h.phases _ hphase)

theorem Inv.advance (h : Inv host namespace_ s) {turn : TurnRecord} {rest : List TurnRecord}
    {last : ℕ} (hahead : Ahead host namespace_ s path (turn :: rest) last)
    (hstored : s.stores host namespace_ turn) :
    Inv host namespace_ (advance s path turn rest last) :=
  h.keep rfl rfl h.saved h.checkpoints
    (h.phases (.looping rest (max last turn.lineNumber)) (hahead.advance hstored))

theorem Inv.finalize (h : Inv host namespace_ s) {last : ℕ}
    (hcovered : Covered host namespace_ s path last) :
    Inv host namespace_ (finalize s path last) := by
  have hmarks : ∀ other, Covered host namespace_ s other
      (fromLine (setCheckpoint s.checkpoints "cc-sessions" path (.number last)) other) := by
    intro other
    rw [fromLine_set]
    split_ifs with hother
    · exact hother ▸ hcovered
    · exact h.checkpoints other
  exact h.keep rfl rfl h.saved hmarks (h.phases (.saving _) hmarks)

theorem nodup_put {table : Table FactKind FactRest Vector}
    (h : ((entriesOf namespace_ table).map Entry.id).Nodup) (fact : FactEntry) (now : String) :
    ((entriesOf namespace_ (SqliteFactStore.put engine namespace_ table fact now)).map
      Entry.id).Nodup := by
  rw [SqliteFactStore.put, entriesOf_put]
  split
  · have hids : ((entriesOf namespace_ table).map fun e =>
        if e.id = fact.id then rewritten fact now e else e).map Entry.id =
        (entriesOf namespace_ table).map Entry.id := by
      rw [List.map_map]
      refine List.map_congr_left fun e _ => ?_
      by_cases he : e.id = fact.id <;> simp [he, rewritten]
    rw [hids]
    exact h
  · rename_i hnew
    rw [List.map_append, List.nodup_append]
    refine ⟨h, by simp, fun id hid other hother => ?_⟩
    obtain ⟨e, he, rfl⟩ := List.mem_map.mp hid
    rw [List.map_singleton, List.mem_singleton] at hother
    intro heq
    exact hnew (List.any_eq_true.mpr ⟨e, he, decide_eq_true (heq.trans hother)⟩)

/-- The facts after the put of a turn. -/
def State.putFact (engine : Engine Vector) (namespace_ : String) (s : State Vector)
    (fact : FactEntry) (now : String) : State Vector :=
  { s with facts := SqliteFactStore.put engine namespace_ s.facts fact now }

theorem get_putFact (turn : TurnRecord) (clock now id : String) :
    FirmMemory.get namespace_
        (s.putFact engine namespace_ (turnToFact host turn clock) now).facts id =
      if id = factId host turn then
        some (written (turnToFact host turn clock) now (FirmMemory.get namespace_ s.facts id))
      else FirmMemory.get namespace_ s.facts id := by
  rw [State.putFact, get_put]
  by_cases hid : id = factId host turn
  · rw [if_pos hid, if_pos (c := id = (turnToFact host turn clock).id) hid, hid]
    rfl
  · rw [if_neg hid, if_neg (c := id = (turnToFact host turn clock).id) hid]

theorem extends_putFact (turn : TurnRecord) (clock now : String) :
    Extends host namespace_ s (s.putFact engine namespace_ (turnToFact host turn clock) now) where
  turns path := ⟨[], (List.append_nil _).symm⟩
  stores other hother := by
    rw [State.stores, get_putFact]
    split
    · rfl
    · exact hother

theorem Inv.putFact (h : Inv host namespace_ s) {turn first : TurnRecord}
    (hfirst : first ∈ s.turns host path) (hread : Reading turn first) (clock now : String) :
    Inv host namespace_ (s.putFact engine namespace_ (turnToFact host turn clock) now) := by
  refine h.extend (extends_putFact turn clock now) rfl rfl rfl ⟨fun id found hfound => ?_,
    fun id found hfound => ?_⟩ (nodup_put h.nodup _ now)
  · rw [get_putFact] at hfound
    split_ifs at hfound with hid
    · cases hfound
      refine ⟨path, first, hfirst, hread.factId.symm.trans hid.symm, ?_⟩
      rw [undated_written, undated_turnToFact, hread.projected]
    · exact h.sound.fact id found hfound
  · rw [get_putFact] at hfound
    split_ifs at hfound with hid
    · cases hfound
      rw [created_written]
      cases hold : FirmMemory.get namespace_ s.facts id with
      | some old => exact h.sound.time id old hold
      | none =>
        refine ⟨path, first, hfirst, hread.factId.symm.trans hid.symm, ?_⟩
        rcases hread.time with hnone | hsame
        · exact .inl hnone
        · by_cases hempty : first.timestamp = ""
          · exact .inl hempty
          · refine .inr ?_
            change (if turn.timestamp = "" then now else turn.timestamp) = first.timestamp
            rw [hsame, if_neg hempty]
    · exact h.sound.time id found hfound

theorem isStored_stores {turn : TurnRecord} {now : String}
    (h : isStored namespace_ s.facts (turnToFact host turn now) = true) :
    s.stores host namespace_ turn := by
  exact ((Option.any_eq_true_iff_get _ _).mp h).1

/-- A reading starts behind a line whose turns are stored. -/
theorem Inv.readStep (h : Inv host namespace_ s) (now : String) :
    Inv host namespace_ (readStep host s path now) := by
  unfold CcSessions.readStep
  split
  · exact h.setPhase trivial
  · split
    · exact h.setPhase trivial
    · exact h.setPhase trivial
    · rename_i turns hread
      exact h.setPhase ⟨h.checkpoints path, _, readTurns_eq hread, List.prefix_rfl⟩

theorem Inv.lookStep (h : Inv host namespace_ s) {turns : List TurnRecord} {last : ℕ}
    (hahead : Ahead host namespace_ s path turns last) (now : String) :
    Inv host namespace_ (lookStep host namespace_ s path now turns last) := by
  cases turns with
  | nil => exact h.finalize hahead.covered
  | cons turn rest =>
    rw [CcSessions.lookStep]
    split
    · exact h.finalize hahead.covered
    · dsimp only
      split
      · rename_i hstored
        exact h.advance hahead (isStored_stores hstored)
      · exact h.setPhase ⟨hahead, now, rfl⟩

theorem Inv.putStep (h : Inv host namespace_ s) {fact : FactEntry} {turn : TurnRecord}
    {rest : List TurnRecord} {last : ℕ}
    (hphase : PhaseInv host namespace_ s path (.putting fact turn rest last)) (now : String)
    (outcome : PutOutcome) :
    Inv host namespace_ (putStep engine namespace_ s path now fact turn rest last outcome) := by
  obtain ⟨hahead, clock, rfl⟩ := hphase
  obtain ⟨first, hfirst, hread⟩ := hahead.head
  have hput : Inv host namespace_
      (s.putFact engine namespace_ (turnToFact host turn clock) now) :=
    h.putFact hfirst hread clock now
  cases outcome with
  | stored =>
    refine hput.advance (hahead.mono (extends_putFact turn clock now)) ?_
    rw [State.stores, get_putFact, if_pos rfl]
    rfl
  | refused => exact h.setPhase trivial
  | storedThenFailed => exact hput.setPhase trivial

theorem covered_zero (s : State Vector) (path : String) : Covered host namespace_ s path 0 :=
  ⟨.inl rfl, fun _ hturn hline => absurd hline (Nat.not_le.mpr (State.turns_pos hturn))⟩

theorem Inv.saveStep (h : Inv host namespace_ s) {checkpoints : CheckpointMap}
    (hcovered : ∀ other, Covered host namespace_ s other (fromLine checkpoints other))
    (outcome : SaveOutcome) : Inv host namespace_ (saveStep s path checkpoints outcome) := by
  cases outcome with
  | saved => exact h.keep rfl rfl hcovered h.checkpoints (h.phases .finished trivial)
  | overlapped =>
    exact h.keep rfl rfl (covered_zero s) h.checkpoints (h.phases .finished trivial)
  | torn =>
    exact h.keep rfl rfl (covered_zero s) h.checkpoints (h.phases .failed trivial)
  | refused => exact h.setPhase trivial

theorem extends_grow {lines : List String} (h : grows host path (s.content path) lines = true) :
    Extends host namespace_ s { s with content := Function.update s.content path lines } where
  turns other := by
    by_cases hother : other = path
    · subst hother
      obtain ⟨more, hmore⟩ := sessionTurns_grows h
      refine ⟨more, ?_⟩
      simp only [State.turns, Function.update_self, hmore]
    · refine ⟨[], ?_⟩
      simp only [State.turns, Function.update_of_ne hother, List.append_nil]
  stores _ hstored := hstored

theorem get?_waiting {paths : List String} {phase : Phase}
    (h : Dict.get? (paths.map fun path => (path, Phase.waiting)) path = some phase) :
    phase = .waiting := by
  obtain ⟨other, -, hother⟩ := List.mem_map.mp (Dict.mem_of_get? h)
  cases hother
  rfl

theorem inv_step {a : Action} (h : Inv host namespace_ s)
    (hstep : step host engine namespace_ s a = some t) : Inv host namespace_ t := by
  cases a with
  | begin paths maxTurns =>
    rw [step] at hstep
    split_ifs at hstep
    cases hstep
    refine h.keep rfl rfl h.saved h.saved fun other phase hphase => ?_
    rw [get?_waiting hphase]
    trivial
  | read path now =>
    rw [step] at hstep
    split at hstep
    · cases hstep
      exact h.readStep now
    · cases hstep
  | look path now =>
    rw [step] at hstep
    split at hstep
    · rename_i turns last hop
      cases hstep
      exact h.lookStep (h.ops path _ hop) now
    · cases hstep
  | put path now outcome =>
    rw [step] at hstep
    split at hstep
    · rename_i fact turn rest last hop
      cases hstep
      exact h.putStep (h.ops path _ hop) now outcome
    · cases hstep
  | save path outcome =>
    rw [step] at hstep
    split at hstep
    · rename_i checkpoints hop
      cases hstep
      exact h.saveStep (h.ops path _ hop) outcome
    · cases hstep
  | crash torn =>
    cases hstep
    refine h.keep rfl rfl (fun path => ?_) h.checkpoints (by simp)
    cases torn with
    | false => exact h.saved path
    | true => exact covered_zero s path
  | grow path lines =>
    rw [step] at hstep
    split_ifs at hstep with hgrows
    cases hstep
    have he : Extends host namespace_ s
        { s with content := Function.update s.content path lines } := extends_grow hgrows
    exact h.extend he rfl rfl rfl (he.sound rfl h.sound) h.nodup

theorem inv_init (content : String → List String) :
    Inv host namespace_ (init content : State Vector) where
  saved := covered_zero _
  checkpoints := covered_zero _
  ops path phase h := by cases h
  sound :=
    { fact := fun _ _ h => by cases h
      time := fun _ _ h => by cases h }
  nodup := List.nodup_nil

end CcSessions
end Batiste
