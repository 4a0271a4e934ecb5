import Batiste.AuditedRuns

/-! What the kill switch stops, over runs of commands and calls of any number of sessions. -/
namespace Batiste
namespace Audit

open Transition

def State.isKilled (s : State) (sessionId : String) : Bool :=
  s.killSwitch.any fun killSwitch => killSwitch.isKilled sessionId

def State.isPaused (s : State) : Bool := s.killSwitch.any KillSwitch.isPaused

def State.live (s : State) (sessionId : String) : Prop := sessionId ∈ s.sessions.map Session.sessionId

theorem allowed_eq_false {s : State} {sessionId : String} :
    s.allowed sessionId = false ↔ s.isPaused = true ∨ s.isKilled sessionId = true := by
  unfold State.allowed State.isPaused State.isKilled
  cases s.killSwitch with
  | none => simp
  | some killSwitch => simpa using KillSwitch.isAllowed_eq_false

/-- What a command does to the kill switch of a state. -/
theorem command_step {s t : State} {command : KillCommand} {stamp : Stamp}
    (h : step s (.command command stamp) = some t) :
    t.sessions = s.sessions ∧
      (∀ id, t.isKilled id = true ↔ s.isKilled id = true ∨
        (command.action = .killSession ∧ command.sessionId = some id ∧ id ≠ "")) ∧
      t.isPaused = match command.action with
        | .killSession => s.isPaused
        | .killAll | .pause => true
        | .resume => false := by
  obtain ⟨killSwitch, hkill, rfl⟩ := Option.map_eq_some_iff.mp h
  refine ⟨rfl, fun id => ?_, ?_⟩
  · simpa [State.isKilled, hkill] using killSwitch.execute_isKilled command stamp id
  · have hpaused := killSwitch.execute_isPaused command stamp
    cases haction : command.action <;> simpa [State.isPaused, hkill, haction] using hpaused

/-- Other actions leave the kill switch. -/
theorem step_killSwitch {s t : State} {a : Action} (h : step s a = some t)
    (hother : ∀ command stamp, a ≠ .command command stamp) : t.killSwitch = s.killSwitch := by
  cases a with
  | build session =>
    cases h
    rfl
  | command command stamp => exact absurd rfl (hother command stamp)
  | handleTool session name args stamp now fails =>
    obtain ⟨-, rfl⟩ := step_handleTool.mp h
    exact handleTool_killSwitch session name args stamp now fails s
  | settle k outcome now =>
    obtain ⟨session, tool, args, start, -, rfl⟩ := step_settle h
    rfl
  | record k usage stamp fails =>
    obtain ⟨call, outcome, durationMs, -, -, rfl⟩ := step_record h
    exact (record_frame k call outcome durationMs usage stamp fails s).1
  | write session tool args stamp now =>
    cases h
    rfl
  | written k outcome now fails =>
    obtain ⟨call, stamp, start, -, -, rfl⟩ := step_written h
    exact (written_frame k call stamp start outcome now fails s).1

/-- A system with a new kill switch. -/
def fresh : State := start (some {})

/-- A command kills a session by its id, or all sessions. -/
def Kills (command : KillCommand) (sessionId : String) : Prop :=
  command.action = .killAll ∨
    (command.action = .killSession ∧ command.sessionId = some sessionId)

/-- A command of the run has killed the session while it was live. -/
def Killed (as : List Action) (sessionId : String) : Prop :=
  ∃ pre command stamp post s, as = pre ++ .command command stamp :: post ∧
    run step fresh pre = some s ∧ s.live sessionId ∧ Kills command sessionId

/-- A command of the run names the session, live or not. -/
def Named (as : List Action) (sessionId : String) : Prop :=
  ∃ command stamp, .command command stamp ∈ as ∧ command.action = .killSession ∧
    command.sessionId = some sessionId

/-- Each session killed so far stays killed by this step: `resume` comes only when all of them
have been killed by their ids, the empty id is not used for a kill, and the ledger takes the row
of a refused call. -/
def Heeds (pre : List Action) (s : State) : Action → Prop
  | .command command _ =>
    (command.action = .resume → ∀ id, Killed pre id → s.isKilled id = true) ∧
      (command.action = .killSession → command.sessionId = some "" →
        s.live "" → s.isPaused = true)
  | .handleTool session _ _ _ _ fails => s.allowed session.sessionId = false → fails = none
  | _ => True

theorem killed_snoc {as : List Action} {s : State} (hs : run step fresh as = some s) {a : Action}
    {sessionId : String} (h : Killed (as ++ [a]) sessionId) :
    Killed as sessionId ∨ ∃ command stamp, a = .command command stamp ∧ s.live sessionId ∧
      Kills command sessionId := by
  obtain ⟨pre, command, stamp, post, u, has, hu, hlive, hkills⟩ := h
  rcases snoc_split has with ⟨rfl, rfl⟩ | ⟨rest, hpre⟩
  · obtain rfl : s = u := Option.some.inj (hs.symm.trans hu)
    exact Or.inr ⟨command, stamp, rfl, hlive, hkills⟩
  · exact Or.inl ⟨pre, command, stamp, rest, u, hpre, hu, hlive, hkills⟩

theorem named_snoc {as : List Action} {a : Action} {sessionId : String} (h : Named as sessionId) :
    Named (as ++ [a]) sessionId := by
  obtain ⟨command, stamp, hmem, hnamed⟩ := h
  exact ⟨command, stamp, List.mem_append_left [a] hmem, hnamed⟩

/-- Killed sessions are refused, and a session that no command has named is not killed by id. -/
structure Stopped (as : List Action) (s : State) : Prop where
  refused : ∀ id, Killed as id → s.allowed id = false
  named : ∀ id, s.isKilled id = true → Named as id

theorem stopped_step {as : List Action} {s t : State} {a : Action}
    (hs : run step fresh as = some s) (h : Stopped as s) (hheeds : Heeds as s a)
    (ht : step s a = some t) : Stopped (as ++ [a]) t := by
  by_cases hcommand : ∃ command stamp, a = .command command stamp
  · obtain ⟨command, stamp, rfl⟩ := hcommand
    obtain ⟨-, hkilled, hpaused⟩ := command_step ht
    obtain ⟨hresume, hempty⟩ := hheeds
    refine ⟨fun id hid => ?_, fun id hid => ?_⟩
    · rw [allowed_eq_false]
      have hcases := killed_snoc hs hid
      cases haction : command.action with
      | killAll =>
        rw [haction] at hpaused
        exact Or.inl hpaused
      | pause =>
        rw [haction] at hpaused
        exact Or.inl hpaused
      | resume =>
        have hold : Killed as id := by
          refine hcases.resolve_right ?_
          rintro ⟨_, _, heq, -, hkills⟩
          cases heq
          simp [Kills, haction] at hkills
        exact Or.inr ((hkilled id).mpr (Or.inl (hresume haction id hold)))
      | killSession =>
        rw [haction] at hpaused
        rcases hcases with hold | ⟨_, _, heq, hlive, hkills⟩
        · rcases allowed_eq_false.mp (h.refused id hold) with hp | hk
          · exact Or.inl (hpaused.trans hp)
          · exact Or.inr ((hkilled id).mpr (Or.inl hk))
        · cases heq
          have hid : command.sessionId = some id := by
            simpa [Kills, haction] using hkills
          by_cases hnil : id = ""
          · subst hnil
            exact Or.inl (hpaused.trans (hempty haction hid hlive))
          · exact Or.inr ((hkilled id).mpr (Or.inr ⟨haction, hid, hnil⟩))
    · rcases (hkilled id).mp hid with hold | ⟨haction, hnamed, -⟩
      · exact named_snoc (h.named id hold)
      · exact ⟨command, stamp, by simp, haction, hnamed⟩
  · have hkill := step_killSwitch ht fun command stamp heq => hcommand ⟨command, stamp, heq⟩
    have hallowed : ∀ id, t.allowed id = s.allowed id := by simp [State.allowed, hkill]
    have hkilled : ∀ id, t.isKilled id = s.isKilled id := by simp [State.isKilled, hkill]
    refine ⟨fun id hid => ?_, fun id hid => ?_⟩
    · rw [hallowed]
      refine h.refused id ((killed_snoc hs hid).resolve_right ?_)
      rintro ⟨command, stamp, heq, -⟩
      exact hcommand ⟨command, stamp, heq⟩
    · rw [hkilled] at hid
      exact named_snoc (h.named id hid)

theorem stopped_run {as : List Action} {s : State} (hs : run step fresh as = some s)
    (hheeds : Each step fresh as Heeds) : Stopped as s := by
  refine run_history (I := Stopped) ⟨fun id hid => ?_, fun id hid => ?_⟩
    (fun _ _ _ _ => stopped_step) hheeds hs
  · obtain ⟨pre, command, stamp, post, s, has, -⟩ := hid
    simp at has
  · simp [fresh, start, State.isKilled, KillSwitch.isKilled] at hid

/-- The row of a refused call is written at once and stays the only one. -/
theorem refused_row {as post : List Action} {s u t : State} {session : Session} {name : String}
    {args : Dict Json} {stamp : Stamp} {now : ℚ}
    (hs : run step fresh as = some s)
    (hu : step s (.handleTool session name args stamp now none) = some u)
    (hrefused : s.allowed session.sessionId = false) (ht : run step u post = some t) :
    (t.ledger.rowsOf s.calls.length).map AuditEntry.result = [.denied] := by
  obtain ⟨-, rfl⟩ := step_handleTool.mp hu
  obtain ⟨call, hcalls, hanswered, hrow⟩ := handleTool_refused name args stamp now none hrefused
  obtain ⟨entry, hdenied, hledger⟩ := hrow rfl
  have hk : (handleTool session name args stamp now none s).calls[s.calls.length]? = some call := by
    simp [hcalls]
  rw [(answered_run hk hanswered ht).2, hledger, rowsOf_append,
    (recorded_run hs).tagged s.calls.length le_rfl]
  simp [hdenied]

/-- In a run whose steps heed the kills, no call of a killed session reaches the inner handler,
every refused call leaves exactly one row, which says so, and a session that was not killed by
its id is refused only while the system is paused. -/
theorem kill_is_final (as : List Action) (t : State) (ht : run step fresh as = some t)
    (hheeds : Each step fresh as Heeds) (pre post : List Action) (session : Session)
    (name : String) (args : Dict Json) (stamp : Stamp) (now : ℚ) (fails : Option String)
    (s u : State) (has : as = pre ++ .handleTool session name args stamp now fails :: post)
    (hs : run step fresh pre = some s)
    (hu : step s (.handleTool session name args stamp now fails) = some u) :
    (Killed pre session.sessionId → ¬ Starts s u) ∧
      (¬ Starts s u → (t.ledger.rowsOf s.calls.length).map AuditEntry.result = [.denied]) ∧
      (¬ Named pre session.sessionId → ¬ Starts s u → s.isPaused = true) := by
  subst has
  have hstopped := stopped_run hs hheeds.initial
  have hstarts := handleTool_starts_iff hu
  have hpost : run step u post = some t := by
    obtain ⟨s', hs', hrest⟩ := run_append.mp ht
    obtain rfl : s = s' := Option.some.inj (hs.symm.trans hs')
    obtain ⟨u', hu', hrest'⟩ := run_cons_iff.mp hrest
    obtain rfl : u = u' := Option.some.inj (hu.symm.trans hu')
    exact hrest'
  have hrefused : ¬ Starts s u → s.allowed session.sessionId = false := by
    intro hnot
    rw [hstarts] at hnot
    simpa using hnot
  refine ⟨fun hkilled => ?_, fun hnot => ?_, fun hnamed hnot => ?_⟩
  · rw [hstarts, hstopped.refused _ hkilled]
    simp
  · have hfails : fails = none := hheeds pre _ post s rfl hs (hrefused hnot)
    subst hfails
    exact refused_row hs hu (hrefused hnot) hpost
  · refine (allowed_eq_false.mp (hrefused hnot)).resolve_right fun hkilled => ?_
    exact hnamed (hstopped.named _ hkilled)

section Example

def operator : Session := ⟨"s1", "a"⟩

def atNoon : Stamp := ⟨"id", "12:00"⟩

def read : Action := .handleTool operator "read" [] atNoon 0 none

theorem kill_is_final_by_id :
    ∃ s u, run step fresh [.build operator, .command ⟨.killSession, some "s1", "test"⟩ atNoon] =
        some s ∧ step s read = some u ∧ ¬ Starts s u := by
  have hheeds : Each step fresh
      [.build operator, .command ⟨.killSession, some "s1", "test"⟩ atNoon, read] Heeds := by
    have hbuild : Each step fresh ([] ++ [.build operator]) Heeds :=
      each_snoc (each_nil fresh Heeds) rfl trivial
    have hkill : Each step fresh
        ([.build operator] ++ [.command ⟨.killSession, some "s1", "test"⟩ atNoon]) Heeds :=
      each_snoc hbuild rfl ⟨by simp, by simp⟩
    exact each_snoc hkill rfl fun _ => rfl
  have hfinal := kill_is_final _ _ rfl hheeds
    [.build operator, .command ⟨.killSession, some "s1", "test"⟩ atNoon] [] operator "read" []
    atNoon 0 none _ _ rfl rfl rfl
  refine ⟨_, _, rfl, rfl, hfinal.1 ?_⟩
  exact ⟨[.build operator], _, atNoon, [], _, rfl, rfl, by simp [State.live],
    Or.inr ⟨rfl, rfl⟩⟩

/-- `kill_all` only pauses, so that `resume` revives the session it has killed. -/
theorem kill_all_undone :
    ∃ s u, run step fresh [.build operator, .command ⟨.killAll, none, "emergency"⟩ atNoon,
        .command ⟨.resume, none, "test"⟩ atNoon] = some s ∧ step s read = some u ∧
      Killed [.build operator, .command ⟨.killAll, none, "emergency"⟩ atNoon,
        .command ⟨.resume, none, "test"⟩ atNoon] "s1" ∧ Starts s u := by
  refine ⟨_, _, rfl, rfl, ?_, ⟨_, rfl, 0, rfl⟩⟩
  exact ⟨[.build operator], _, atNoon, [.command ⟨.resume, none, "test"⟩ atNoon], _, rfl, rfl,
    by simp [State.live, operator], Or.inl rfl⟩

end Example

end Audit
end Batiste
