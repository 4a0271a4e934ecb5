import Batiste.AuditedHandler

/-! Runs of audited handlers: when a call is on record, and what the kill switch stops. -/
namespace Batiste
namespace Audit

open Transition

/-- The ledger is as before, or has a new row of call `k`. -/
def Extends (k : ℕ) (before after : Ledger) : Prop :=
  after = before ∨ ∃ entry, after = before ++ [(k, entry)]

def Call.answered (call : Call) : Prop := ∃ reply, call.phase = .answered reply

def Call.running (call : Call) : Prop := ∃ start, call.phase = .running start

/-- What a step does to the calls and to the ledger. -/
inductive Change (s t : State) : Prop
  | keep (hcalls : t.calls = s.calls) (hledger : t.ledger = s.ledger)
  | new (call : Call) (hcalls : t.calls = s.calls ++ [call])
      (hledger : Extends s.calls.length s.ledger t.ledger)
      (hend : t.ledger = s.ledger ∨ call.answered)
  | update (k : ℕ) (call call' : Call) (hk : s.calls[k]? = some call) (hopen : ¬ call.answered)
      (hcalls : t.calls = s.calls.set k call') (hledger : Extends k s.ledger t.ledger)
      (hend : t.ledger = s.ledger ∨ call'.answered)

theorem step_handleTool {s t : State} {session : Session} {name : String} {args : Dict Json}
    {stamp : Stamp} {now : ℚ} {fails : Option String} :
    step s (.handleTool session name args stamp now fails) = some t ↔
      session ∈ s.sessions ∧ handleTool session name args stamp now fails s = t := by
  simp [step]

theorem step_settle {s t : State} {k : ℕ} {outcome : Except String Json} {now : ℚ}
    (h : step s (.settle k outcome now) = some t) :
    ∃ session tool args start,
      s.calls[k]? = some ⟨session, tool, args, none, .running start⟩ ∧
        t = { s with calls :=
          s.calls.set k ⟨session, tool, args, none, .ended outcome (now - start)⟩ } := by
  simp only [step] at h
  split at h
  · rename_i session tool args start hk
    exact ⟨session, tool, args, start, hk, (Option.some.inj h).symm⟩
  · cases h

theorem step_record {s t : State} {k : ℕ} {usage : Option Json} {stamp : Stamp}
    {fails : Option String} (h : step s (.record k usage stamp fails) = some t) :
    ∃ call outcome durationMs, s.calls[k]? = some call ∧ call.phase = .ended outcome durationMs ∧
      t = record k call outcome durationMs usage stamp fails s := by
  simp only [step] at h
  split at h
  · rename_i session tool args outcome durationMs hk
    exact ⟨_, outcome, durationMs, hk, rfl, (Option.some.inj h).symm⟩
  · cases h

theorem step_written {s t : State} {k : ℕ} {outcome : Except String Json} {now : ℚ}
    {fails : Option String} (h : step s (.written k outcome now fails) = some t) :
    ∃ call stamp start, s.calls[k]? = some call ∧ call.phase = .running start ∧
      t = written k call stamp start outcome now fails s := by
  simp only [step] at h
  split at h
  · rename_i session tool args stamp start hk
    exact ⟨_, stamp, start, hk, rfl, (Option.some.inj h).symm⟩
  · cases h

theorem handleTool_killSwitch (session : Session) (name : String) (args : Dict Json)
    (stamp : Stamp) (now : ℚ) (fails : Option String) (s : State) :
    (handleTool session name args stamp now fails s).killSwitch = s.killSwitch := by
  unfold handleTool
  split_ifs
  · rfl
  · cases fails <;> rfl

/-- The end of a call answers it, with at most one row. -/
theorem record_frame (k : ℕ) (call : Call) (outcome : Except String Json) (durationMs : ℚ)
    (usage : Option Json) (stamp : Stamp) (fails : Option String) (s : State) :
    (record k call outcome durationMs usage stamp fails s).killSwitch = s.killSwitch ∧
      ∃ call', call'.answered ∧
        (record k call outcome durationMs usage stamp fails s).calls = s.calls.set k call' ∧
        Extends k s.ledger (record k call outcome durationMs usage stamp fails s).ledger := by
  cases fails with
  | none => exact ⟨rfl, _, ⟨_, rfl⟩, rfl, Or.inr ⟨_, rfl⟩⟩
  | some message => exact ⟨rfl, _, ⟨_, rfl⟩, rfl, Or.inl rfl⟩

theorem written_frame (k : ℕ) (call : Call) (stamp : Stamp) (start : ℚ)
    (outcome : Except String Json) (now : ℚ) (fails : Option String) (s : State) :
    (written k call stamp start outcome now fails s).killSwitch = s.killSwitch ∧
      ∃ call', call'.answered ∧
        (written k call stamp start outcome now fails s).calls = s.calls.set k call' ∧
        Extends k s.ledger (written k call stamp start outcome now fails s).ledger := by
  cases fails with
  | none => exact ⟨rfl, _, ⟨_, rfl⟩, rfl, Or.inr ⟨_, rfl⟩⟩
  | some message => exact ⟨rfl, _, ⟨_, rfl⟩, rfl, Or.inl rfl⟩

theorem handleTool_change (session : Session) (name : String) (args : Dict Json) (stamp : Stamp)
    (now : ℚ) (fails : Option String) (s : State) :
    Change s (handleTool session name args stamp now fails s) := by
  unfold handleTool
  split_ifs
  · exact .new _ rfl (Or.inl rfl) (Or.inl rfl)
  · cases fails with
    | none => exact .new _ rfl (Or.inr ⟨_, rfl⟩) (Or.inr ⟨_, rfl⟩)
    | some message => exact .new _ rfl (Or.inl rfl) (Or.inl rfl)

theorem step_change {s t : State} {a : Action} (h : step s a = some t) : Change s t := by
  cases a with
  | build session =>
    cases h
    exact .keep rfl rfl
  | command command stamp =>
    obtain ⟨killSwitch, -, rfl⟩ := Option.map_eq_some_iff.mp h
    exact .keep rfl rfl
  | handleTool session name args stamp now fails =>
    obtain ⟨-, rfl⟩ := step_handleTool.mp h
    exact handleTool_change session name args stamp now fails s
  | settle k outcome now =>
    obtain ⟨session, tool, args, start, hk, rfl⟩ := step_settle h
    exact .update k _ _ hk (by simp [Call.answered]) rfl (Or.inl rfl) (Or.inl rfl)
  | record k usage stamp fails =>
    obtain ⟨call, outcome, durationMs, hk, hphase, rfl⟩ := step_record h
    obtain ⟨-, call', hanswered, hcalls, hledger⟩ :=
      record_frame k call outcome durationMs usage stamp fails s
    exact .update k call call' hk (by simp [Call.answered, hphase]) hcalls hledger
      (Or.inr hanswered)
  | write session tool args stamp now =>
    cases h
    exact .new _ rfl (Or.inl rfl) (Or.inl rfl)
  | written k outcome now fails =>
    obtain ⟨call, stamp, start, hk, hphase, rfl⟩ := step_written h
    obtain ⟨-, call', hanswered, hcalls, hledger⟩ :=
      written_frame k call stamp start outcome now fails s
    exact .update k call call' hk (by simp [Call.answered, hphase]) hcalls hledger
      (Or.inr hanswered)

theorem rowsOf_append (before : Ledger) (k : ℕ) (entry : AuditEntry) (i : ℕ) :
    Ledger.rowsOf (before ++ [(k, entry)]) i = before.rowsOf i ++ if k = i then [entry] else [] := by
  by_cases hk : k = i <;> simp [Ledger.rowsOf, hk]

theorem Extends.rowsOf_ne {k i : ℕ} {before after : Ledger} (h : Extends k before after)
    (hne : k ≠ i) : after.rowsOf i = before.rowsOf i := by
  rcases h with rfl | ⟨entry, rfl⟩
  · rfl
  · rw [rowsOf_append, if_neg hne, List.append_nil]

/-- Rows are written for calls that have been made. -/
def Tagged (s : State) : Prop := ∀ i, s.calls.length ≤ i → s.ledger.rowsOf i = []

theorem tagged_step {s t : State} {a : Action} (h : Tagged s) (hs : step s a = some t) :
    Tagged t := by
  intro i hi
  cases step_change hs with
  | keep hcalls hledger =>
    rw [hledger]
    exact h i (hcalls ▸ hi)
  | new call hcalls hledger hend =>
    rw [hcalls, List.length_append, List.length_singleton] at hi
    rw [hledger.rowsOf_ne (by omega)]
    exact h i (by omega)
  | update k call call' hk hopen hcalls hledger hend =>
    rw [hcalls, List.length_set] at hi
    have hlt := (List.getElem?_eq_some_iff.mp hk).1
    rw [hledger.rowsOf_ne (by omega)]
    exact h i hi

/-- A call has at most one row, and none before it is over. -/
structure Recorded (s : State) : Prop where
  tagged : Tagged s
  once : ∀ k, (s.ledger.rowsOf k).length ≤ 1
  late : ∀ k call, s.calls[k]? = some call → ¬ call.answered → s.ledger.rowsOf k = []

theorem Extends.once {k : ℕ} {before after : Ledger} (h : Extends k before after)
    (hnone : before.rowsOf k = []) (honce : ∀ i, (before.rowsOf i).length ≤ 1) (i : ℕ) :
    (after.rowsOf i).length ≤ 1 := by
  by_cases hi : k = i
  · subst hi
    rcases h with rfl | ⟨entry, rfl⟩
    · exact honce k
    · simp [rowsOf_append, hnone]
  · rw [h.rowsOf_ne hi]
    exact honce i

theorem recorded_step {s t : State} {a : Action} (h : Recorded s) (hs : step s a = some t) :
    Recorded t := by
  refine ⟨tagged_step h.tagged hs, ?_, ?_⟩
  · cases step_change hs with
    | keep hcalls hledger => exact hledger ▸ h.once
    | new call hcalls hledger hend => exact hledger.once (h.tagged _ le_rfl) h.once
    | update k call call' hk hopen hcalls hledger hend =>
      exact hledger.once (h.late k call hk hopen) h.once
  · intro i other hi hother
    cases step_change hs with
    | keep hcalls hledger =>
      rw [hcalls] at hi
      rw [hledger]
      exact h.late i other hi hother
    | new call hcalls hledger hend =>
      rw [hcalls] at hi
      by_cases hlast : i = s.calls.length
      · subst hlast
        obtain rfl : call = other := by simpa using hi
        rw [hend.resolve_right hother]
        exact h.tagged _ le_rfl
      · rw [hledger.rowsOf_ne (Ne.symm hlast)]
        have hlt : i < s.calls.length := by
          have hle := (List.getElem?_eq_some_iff.mp hi).1
          rw [List.length_append, List.length_singleton] at hle
          omega
        rw [List.getElem?_append_left hlt] at hi
        exact h.late i other hi hother
    | update k call call' hk hopen hcalls hledger hend =>
      rw [hcalls] at hi
      by_cases heq : k = i
      · subst heq
        rw [List.getElem?_set_self (List.getElem?_eq_some_iff.mp hk).1] at hi
        obtain rfl : call' = other := Option.some.inj hi
        rw [hend.resolve_right hother]
        exact h.late k call hk hopen
      · rw [List.getElem?_set_ne heq] at hi
        rw [hledger.rowsOf_ne heq]
        exact h.late i other hi hother

/-- The record of an execution is made after it: what runs or has just ended has no row. -/
theorem recorded_run {killSwitch : Option KillSwitch} {as : List Action} {s : State}
    (h : run step (start killSwitch) as = some s) : Recorded s :=
  run_invariant (fun _ _ _ => recorded_step)
    ⟨fun _ _ => rfl, fun _ => by simp [start, Ledger.rowsOf], by simp [start]⟩ h

/-- An answered call stays as it is, with its rows. -/
theorem answered_step {s t : State} {a : Action} {k : ℕ} {call : Call}
    (hk : s.calls[k]? = some call) (hanswered : call.answered) (hs : step s a = some t) :
    t.calls[k]? = some call ∧ t.ledger.rowsOf k = s.ledger.rowsOf k := by
  have hlt := (List.getElem?_eq_some_iff.mp hk).1
  cases step_change hs with
  | keep hcalls hledger => rw [hcalls, hledger]; exact ⟨hk, rfl⟩
  | new call' hcalls hledger hend =>
    rw [hcalls, List.getElem?_append_left hlt]
    exact ⟨hk, hledger.rowsOf_ne (by omega)⟩
  | update i old new hi hopen hcalls hledger hend =>
    have hne : i ≠ k := by
      rintro rfl
      obtain rfl : old = call := Option.some.inj (hi.symm.trans hk)
      exact hopen hanswered
    rw [hcalls, List.getElem?_set_ne hne]
    exact ⟨hk, hledger.rowsOf_ne hne⟩

theorem answered_run {s t : State} {as : List Action} {k : ℕ} {call : Call}
    (hk : s.calls[k]? = some call) (hanswered : call.answered) (hs : run step s as = some t) :
    t.calls[k]? = some call ∧ t.ledger.rowsOf k = s.ledger.rowsOf k := by
  induction as generalizing s with
  | nil =>
    obtain rfl : s = t := by simpa using hs
    exact ⟨hk, rfl⟩
  | cons a as ih =>
    obtain ⟨u, hu, ht⟩ := run_cons_iff.mp hs
    have hstep := answered_step hk hanswered hu
    have hrest := ih hstep.1 ht
    exact ⟨hrest.1, hrest.2.trans hstep.2⟩

/-- The step starts the execution of a call: of the inner handler, or of a wrapped write. -/
def Starts (s t : State) : Prop := ∃ call, t.calls = s.calls ++ [call] ∧ call.running

/-- The action makes a call that the kill switch lets through, or a wrapped write. -/
def LetThrough (s : State) : Action → Prop
  | .handleTool session _ _ _ _ _ => session ∈ s.sessions ∧ s.allowed session.sessionId = true
  | .write _ _ _ _ _ => True
  | _ => False

theorem handleTool_allowed {s : State} {session : Session} (name : String) (args : Dict Json)
    (stamp : Stamp) (now : ℚ) (fails : Option String)
    (h : s.allowed session.sessionId = true) :
    handleTool session name args stamp now fails s =
      { s with calls := s.calls ++ [⟨session, name, args, none, .running now⟩] } := by
  simp [handleTool, h]

theorem handleTool_refused {s : State} {session : Session} (name : String) (args : Dict Json)
    (stamp : Stamp) (now : ℚ) (fails : Option String)
    (h : s.allowed session.sessionId = false) :
    ∃ call, (handleTool session name args stamp now fails s).calls = s.calls ++ [call] ∧
      call.answered ∧
      (fails = none → ∃ entry, entry.result = .denied ∧
        (handleTool session name args stamp now fails s).ledger =
          s.ledger ++ [(s.calls.length, entry)]) := by
  unfold handleTool
  rw [h]
  cases fails with
  | none => exact ⟨_, rfl, ⟨_, rfl⟩, fun _ => ⟨_, rfl, rfl⟩⟩
  | some message => exact ⟨_, rfl, ⟨_, rfl⟩, by simp⟩

/-- A call executes exactly when it is let through. -/
theorem handleTool_starts_iff {s t : State} {session : Session} {name : String} {args : Dict Json}
    {stamp : Stamp} {now : ℚ} {fails : Option String}
    (h : step s (.handleTool session name args stamp now fails) = some t) :
    Starts s t ↔ s.allowed session.sessionId = true := by
  obtain ⟨-, rfl⟩ := step_handleTool.mp h
  constructor
  · rintro ⟨call, hcalls, start, hrunning⟩
    by_contra hnot
    obtain ⟨call', hcalls', ⟨reply, hanswered⟩, -⟩ :=
      handleTool_refused name args stamp now fails (by simpa using hnot)
    obtain rfl : call = call' := by simpa using hcalls.symm.trans hcalls'
    simp [hanswered] at hrunning
  · intro hallowed
    rw [handleTool_allowed name args stamp now fails hallowed]
    exact ⟨_, rfl, now, rfl⟩

theorem starts_of_letThrough {s : State} {a : Action} (h : LetThrough s a) :
    ∃ t, step s a = some t ∧ Starts s t ∧ t.ledger = s.ledger := by
  cases a with
  | handleTool session name args stamp now fails =>
    refine ⟨_, if_pos h.1, ?_⟩
    rw [handleTool_allowed name args stamp now fails h.2]
    exact ⟨⟨_, rfl, now, rfl⟩, rfl⟩
  | write session tool args stamp now => exact ⟨_, rfl, ⟨_, rfl, now, rfl⟩, rfl⟩
  | build session => exact h.elim
  | command command stamp => exact h.elim
  | settle k outcome now => exact h.elim
  | record k usage stamp fails => exact h.elim
  | written k outcome now fails => exact h.elim

theorem letThrough_of_starts {s t : State} {a : Action} (hs : step s a = some t)
    (h : Starts s t) : LetThrough s a := by
  have hlength : t.calls.length ≠ s.calls.length := by
    obtain ⟨call, hcalls, -⟩ := h
    simp [hcalls]
  cases a with
  | handleTool session name args stamp now fails =>
    exact ⟨(step_handleTool.mp hs).1, (handleTool_starts_iff hs).mp h⟩
  | write session tool args stamp now => trivial
  | build session =>
    cases hs
    exact absurd rfl hlength
  | command command stamp =>
    obtain ⟨killSwitch, -, rfl⟩ := Option.map_eq_some_iff.mp hs
    exact absurd rfl hlength
  | settle k outcome now =>
    obtain ⟨session, tool, args, start, -, rfl⟩ := step_settle hs
    simp at hlength
  | record k usage stamp fails =>
    obtain ⟨call, outcome, durationMs, -, -, rfl⟩ := step_record hs
    obtain ⟨-, call', -, hcalls, -⟩ :=
      record_frame k call outcome durationMs usage stamp fails s
    simp [hcalls] at hlength
  | written k outcome now fails =>
    obtain ⟨call, stamp, start, -, -, rfl⟩ := step_written hs
    obtain ⟨-, call', -, hcalls, -⟩ :=
      written_frame k call stamp start outcome now fails s
    simp [hcalls] at hlength

/-- In a run, each execution is on record when it starts exactly when there is no execution:
no call is let through and no write is made. -/
theorem on_record_iff (killSwitch : Option KillSwitch) (as : List Action) :
    (Each step (start killSwitch) as fun _ s a =>
        ∀ t, step s a = some t → Starts s t → t.ledger.rowsOf s.calls.length ≠ []) ↔
      Each step (start killSwitch) as fun _ s a => ¬ LetThrough s a := by
  constructor
  · intro hrecord pre a post s has hs hthrough
    obtain ⟨t, ht, hstarts, hledger⟩ := starts_of_letThrough hthrough
    have hrows := hrecord pre a post s has hs t ht hstarts
    rw [hledger] at hrows
    exact hrows ((recorded_run hs).tagged s.calls.length le_rfl)
  · intro hnone pre a post s has hs t ht hstarts
    exact absurd (letThrough_of_starts ht hstarts) (hnone pre a post s has hs)

/-- One call that is let through, and one wrapped write: neither is on record when it starts. -/
theorem off_record :
    let session : Session := ⟨"s", "a"⟩
    let s : State := { start none with sessions := [session] }
    run step (start none) [.build session] = some s ∧
      (∃ t, step s (.handleTool session "read" [] ⟨"1", "t"⟩ 0 none) = some t ∧ Starts s t ∧
        t.ledger.rowsOf s.calls.length = []) ∧
      ∃ t, step s (.write session "put" [] ⟨"2", "t"⟩ 0) = some t ∧ Starts s t ∧
        t.ledger.rowsOf s.calls.length = [] :=
  ⟨rfl, ⟨_, rfl, ⟨_, rfl, 0, rfl⟩, rfl⟩, ⟨_, rfl, ⟨_, rfl, 0, rfl⟩, rfl⟩⟩

end Audit
end Batiste
