import Mathlib.Data.String.Basic
import Mathlib.Tactic

/-! The kill switch of `kill-switch.ts`.  Listeners are told of a command after it has taken
effect, and are left out. -/
namespace Batiste

inductive KillAction
  | killSession | killAll | pause | resume
  deriving DecidableEq, Repr

structure KillCommand where
  action : KillAction
  sessionId : Option String := none
  reason : String

/-- What `randomUUID()` and the clock give. -/
structure Stamp where
  id : String
  timestamp : String

structure KillSwitch where
  killedSessions : List String := []
  paused : Bool := false
  commandLog : List (KillCommand × Stamp) := []

namespace KillSwitch

/-- Without a session id, or with an empty one, `kill_session` does nothing. -/
def execute (command : KillCommand) (stamp : Stamp) (k : KillSwitch) : KillSwitch :=
  let k := { k with commandLog := k.commandLog ++ [(command, stamp)] }
  match command.action with
  | .killSession =>
    match command.sessionId.filter fun id => id != "" with
    | some id => { k with killedSessions := k.killedSessions.insert id }
    | none => k
  | .killAll => { k with paused := true }
  | .pause => { k with paused := true }
  | .resume => { k with paused := false }

def isKilled (k : KillSwitch) (sessionId : String) : Bool := decide (sessionId ∈ k.killedSessions)

def isPaused (k : KillSwitch) : Bool := k.paused

def isAllowed (k : KillSwitch) (sessionId : String) : Bool :=
  !k.paused && !decide (sessionId ∈ k.killedSessions)

theorem isAllowed_eq_false {k : KillSwitch} {sessionId : String} :
    k.isAllowed sessionId = false ↔ k.isPaused = true ∨ k.isKilled sessionId = true := by
  cases hpaused : k.paused <;> simp [isAllowed, isPaused, isKilled, hpaused]

/-- A command kills by id, or changes only whether the system is paused. -/
theorem execute_isKilled (command : KillCommand) (stamp : Stamp) (k : KillSwitch) (id : String) :
    (k.execute command stamp).isKilled id = true ↔
      k.isKilled id = true ∨
        (command.action = .killSession ∧ command.sessionId = some id ∧ id ≠ "") := by
  unfold execute isKilled
  cases haction : command.action with
  | killSession =>
    cases hid : command.sessionId with
    | none => simp
    | some other =>
      by_cases hempty : other = ""
      · have hnone : (some other).filter (fun id => id != "") = none := by simp [hempty]
        simp only [hnone, Option.some.injEq, true_and]
        constructor
        · exact Or.inl
        · rintro (hold | ⟨rfl, hne⟩)
          · exact hold
          · exact absurd hempty hne
      · simp only [Option.filter_some, bne_iff_ne, ne_eq, hempty, not_false_eq_true, if_true,
          decide_eq_true_eq, List.mem_insert_iff, Option.some.injEq, true_and]
        constructor
        · rintro (rfl | hold)
          · exact Or.inr ⟨rfl, hempty⟩
          · exact Or.inl hold
        · rintro (hold | ⟨rfl, -⟩)
          · exact Or.inr hold
          · exact Or.inl rfl
  | killAll => simp
  | pause => simp
  | resume => simp

theorem execute_isPaused (command : KillCommand) (stamp : Stamp) (k : KillSwitch) :
    (k.execute command stamp).isPaused =
      match command.action with
      | .killSession => k.isPaused
      | .killAll | .pause => true
      | .resume => false := by
  unfold execute isPaused
  cases command.action with
  | killSession => cases command.sessionId.filter fun id => id != "" <;> rfl
  | killAll => rfl
  | pause => rfl
  | resume => rfl

/-- Killing one session leaves what is allowed to another. -/
theorem isAllowed_killSession {id other : String} (hne : id ≠ other) (reason : String)
    (stamp : Stamp) (k : KillSwitch) :
    (k.execute ⟨.killSession, some id, reason⟩ stamp).isAllowed other = k.isAllowed other := by
  have hkilled := execute_isKilled ⟨.killSession, some id, reason⟩ stamp k other
  have hpaused := execute_isPaused ⟨.killSession, some id, reason⟩ stamp k
  have hsame : (k.execute ⟨.killSession, some id, reason⟩ stamp).isKilled other =
      k.isKilled other := by
    rw [Bool.eq_iff_iff, hkilled]
    simp [hne]
  simp only [isKilled, isPaused] at hsame hpaused
  simp only [isAllowed, hsame, hpaused]

end KillSwitch
end Batiste
