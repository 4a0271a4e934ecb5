import Batiste.JsNumber
import Batiste.Plan
import Batiste.Transition

/-! The concurrency limiter of `concurrency.ts`.
The calls of one limiter are numbered.  A call that is let through is launched at once, and its
function is called by a later microtask; microtasks run in the order in which they were queued. -/
namespace Batiste
namespace Limiter

open Transition

variable {V : Type}

/-- `Math.max(1, Math.floor(Number.isFinite(concurrency) ? concurrency : 1))` -/
def limitOf : JsNumber → ℕ
  | .finite value => (max 1 ⌊value⌋).toNat
  | _ => 1

/-- What the promise of a call is settled with. -/
inductive Outcome (V : Type)
  | resolve (value : V)
  | reject (message : String)

structure State (V : Type) where
  calls : ℕ := 0
  active : ℕ := 0
  queue : List ℕ := []
  launched : List ℕ := []
  working : List ℕ := []
  /-- The calls whose functions were called, in this order. -/
  began : List ℕ := []
  settled : List (ℕ × Outcome V) := []
  /-- The calls whose promises nothing settles any more. -/
  abandoned : List ℕ := []

inductive Action (V : Type)
  | call
  | begin
  | finish (i : ℕ) (result : Except Thrown V)

def next (limit : ℕ) (s : State V) : State V :=
  if limit ≤ s.active then s
  else match s.queue with
    | [] => s
    | task :: rest =>
      { s with queue := rest, active := s.active + 1, launched := s.launched ++ [task] }

/-- What the handlers of a function's promise settle the call's promise with; `String(err)` throws
on what has no text, and then nothing settles it. -/
def outcome : Except Thrown V → Option (Outcome V)
  | .ok value => some (.resolve value)
  | .error thrown => thrown.message?.map .reject

/-- A handler that has thrown does not get to `next`. -/
def release (limit : ℕ) (s : State V) (i : ℕ) (result : Except Thrown V) : State V :=
  match outcome result with
  | some o => next limit { s with settled := s.settled ++ [(i, o)] }
  | none => { s with abandoned := s.abandoned ++ [i] }

def step (limit : ℕ) (s : State V) : Action V → Option (State V)
  | .call => some (next limit { s with calls := s.calls + 1, queue := s.queue ++ [s.calls] })
  | .begin =>
    match s.launched with
    | [] => none
    | i :: rest =>
      some { s with launched := rest, working := s.working ++ [i], began := s.began ++ [i] }
  | .finish i result =>
    if i ∈ s.working then
      some (release limit { s with active := s.active - 1, working := s.working.erase i } i result)
    else none

/-- Nothing but the functions that were handed over: no further calls. -/
def quiet (limit : ℕ) (s : State V) : Action V → Option (State V)
  | .call => none
  | a => step limit s a

/-! ## The invariant -/

structure Inv (limit : ℕ) (s : State V) : Prop where
  count : s.active = s.launched.length + s.working.length
  bound : s.active ≤ limit
  order : s.began ++ s.launched ++ s.queue = List.range s.calls
  ended : s.began.Perm (s.working ++ s.settled.map Prod.fst ++ s.abandoned)
  busy : s.queue = [] ∨ limit ≤ s.active + s.abandoned.length

/-- `next` makes up for one place that has become free, or for one call that has been added. -/
theorem inv_next {limit : ℕ} {s : State V}
    (hcount : s.active = s.launched.length + s.working.length) (hbound : s.active ≤ limit)
    (horder : s.began ++ s.launched ++ s.queue = List.range s.calls)
    (hended : s.began.Perm (s.working ++ s.settled.map Prod.fst ++ s.abandoned))
    (hbusy : s.queue.length ≤ 1 ∨ limit ≤ s.active + 1 + s.abandoned.length) :
    Inv limit (next limit s) := by
  unfold next
  split
  case isTrue hfull => exact ⟨hcount, hbound, horder, hended, Or.inr (by omega)⟩
  case isFalse hroom =>
    split
    case h_1 hqueue => exact ⟨hcount, hbound, horder, hended, Or.inl hqueue⟩
    case h_2 task rest hqueue =>
      rw [hqueue] at horder hbusy
      refine ⟨?_, by simp only; omega, by simpa using horder, hended, ?_⟩
      · simp only [List.length_append, List.length_singleton, hcount]
        omega
      · rcases hbusy with hone | hbusy
        · rw [List.length_cons] at hone
          have hrest : rest = [] := List.length_eq_zero_iff.mp (by omega)
          exact Or.inl hrest
        · exact Or.inr hbusy

theorem inv_initial (limit : ℕ) : Inv limit ({} : State V) :=
  ⟨rfl, Nat.zero_le _, rfl, List.Perm.refl _, Or.inl rfl⟩

theorem inv_call {limit : ℕ} {s : State V} (h : Inv limit s) :
    Inv limit (next limit { s with calls := s.calls + 1, queue := s.queue ++ [s.calls] }) := by
  refine inv_next h.count h.bound ?_ h.ended ?_
  · simp only
    rw [← List.append_assoc, h.order, List.range_succ]
  · rcases h.busy with hqueue | hbusy
    · exact Or.inl (by simp [hqueue])
    · exact Or.inr (by simp only; omega)

theorem inv_begin {limit : ℕ} {s : State V} (h : Inv limit s) {i : ℕ} {rest : List ℕ}
    (hlaunched : s.launched = i :: rest) :
    Inv limit { s with launched := rest, working := s.working ++ [i], began := s.began ++ [i] } := by
  obtain ⟨hcount, hbound, horder, hended, hbusy⟩ := h
  rw [hlaunched] at hcount horder
  refine ⟨?_, hbound, by simpa using horder, ?_, hbusy⟩
  · show s.active = rest.length + (s.working ++ [i]).length
    rw [List.length_cons] at hcount
    rw [List.length_append, List.length_singleton]
    omega
  · refine (hended.append_right [i]).trans ?_
    simp only [List.append_assoc]
    refine List.Perm.append_left _ ?_
    rw [← List.append_assoc]
    exact List.perm_append_comm

theorem inv_release {limit : ℕ} {s : State V} (h : Inv limit s) {i : ℕ} (hi : i ∈ s.working)
    (result : Except Thrown V) :
    Inv limit (release limit { s with active := s.active - 1, working := s.working.erase i } i
      result) := by
  obtain ⟨hcount, hbound, horder, hended, hbusy⟩ := h
  have hlen := List.length_erase_of_mem hi
  have hpos := List.length_pos_of_mem hi
  have hgone : s.began.Perm (s.working.erase i ++ (s.settled.map Prod.fst ++ i :: s.abandoned)) := by
    refine hended.trans ?_
    rw [List.append_assoc]
    refine ((List.perm_cons_erase hi).append_right _).trans ?_
    rw [List.cons_append]
    refine List.perm_middle.symm.trans (List.Perm.append_left _ ?_)
    exact List.perm_middle.symm
  unfold release
  split
  case h_1 o _ =>
    refine inv_next (by simp only [hlen]; omega) (by simp only; omega) horder ?_ ?_
    · simpa using hgone
    · refine hbusy.imp (fun hqueue => by simp [hqueue]) fun hbusy => ?_
      simp only
      omega
  case h_2 =>
    refine ⟨by simp only [hlen]; omega, by simp only; omega, horder, ?_, hbusy.imp_right ?_⟩
    · refine hgone.trans ?_
      rw [List.append_assoc]
      exact List.Perm.append_left _ (List.Perm.append_left _ (List.perm_append_singleton _ _).symm)
    · intro hbusy
      simp only [List.length_append, List.length_singleton]
      omega

/-! ## Runs -/

theorem inv_step {limit : ℕ} (s : State V) (a : Action V) (t : State V) (h : Inv limit s)
    (hstep : step limit s a = some t) : Inv limit t := by
  cases a with
  | call => exact Option.some.inj hstep ▸ inv_call h
  | begin =>
    simp only [step] at hstep
    split at hstep
    case h_1 => cases hstep
    case h_2 hlaunched => exact Option.some.inj hstep ▸ inv_begin h hlaunched
  | finish i result =>
    simp only [step] at hstep
    split at hstep
    case isTrue hi => exact Option.some.inj hstep ▸ inv_release h hi result
    case isFalse => cases hstep

/-- What a function still has to do, and a call before it. -/
def left (s : State V) : ℕ := 2 * (s.queue.length + s.launched.length) + s.working.length

theorem left_next (limit : ℕ) (s : State V) : left (next limit s) = left s := by
  unfold next
  split
  · rfl
  · split
    case h_1 => rfl
    case h_2 hqueue =>
      simp only [left, hqueue, List.length_cons, List.length_append, List.length_nil]
      omega

theorem left_release (limit : ℕ) (s : State V) (i : ℕ) (result : Except Thrown V) :
    left (release limit s i result) = left s := by
  unfold release
  split
  · exact left_next limit _
  · rfl

theorem left_quiet {limit : ℕ} {s t : State V} {a : Action V} (h : quiet limit s a = some t) :
    left t < left s := by
  cases a with
  | call => cases h
  | begin =>
    simp only [quiet, step] at h
    split at h
    case h_1 => cases h
    case h_2 hlaunched =>
      obtain rfl := Option.some.inj h
      simp only [left, hlaunched, List.length_cons, List.length_append, List.length_nil]
      omega
  | finish i result =>
    simp only [quiet, step] at h
    split at h
    case isTrue hi =>
      obtain rfl := Option.some.inj h
      have hlen := List.length_erase_of_mem hi
      have hpos := List.length_pos_of_mem hi
      rw [left_release]
      simp only [left, hlen]
      omega
    case isFalse => cases h

theorem inv_quiet {limit : ℕ} (s : State V) (a : Action V) (t : State V) (h : Inv limit s)
    (hstep : quiet limit s a = some t) : Inv limit t := by
  cases a with
  | call => cases hstep
  | begin => exact inv_step s .begin t h hstep
  | finish i result => exact inv_step s (.finish i result) t h hstep

theorem idle_of_stuck {limit : ℕ} {s : State V} (h : Stuck (quiet limit) s) :
    s.launched = [] ∧ s.working = [] := by
  constructor
  · cases hlaunched : s.launched with
    | nil => rfl
    | cons i rest =>
      have hbegin := h .begin
      simp [quiet, step, hlaunched] at hbegin
  · cases hworking : s.working with
    | nil => rfl
    | cons i rest =>
      have hfinish := h (.finish i (.error .unprintable))
      simp [quiet, step, hworking] at hfinish

theorem next_settled (limit : ℕ) (s : State V) : (next limit s).settled = s.settled := by
  unfold next
  split
  · rfl
  · split <;> rfl

theorem mem_settled_step {limit : ℕ} {s t : State V} {a : Action V} (h : step limit s a = some t)
    {i : ℕ} {o : Outcome V} (hi : (i, o) ∈ t.settled) :
    (i, o) ∈ s.settled ∨ ∃ result, a = .finish i result ∧ outcome result = some o := by
  cases a with
  | call =>
    obtain rfl := Option.some.inj h
    rw [next_settled] at hi
    exact Or.inl hi
  | begin =>
    simp only [step] at h
    split at h
    case h_1 => cases h
    case h_2 =>
      obtain rfl := Option.some.inj h
      exact Or.inl hi
  | finish j result =>
    simp only [step] at h
    split at h
    case isFalse => cases h
    case isTrue =>
      obtain rfl := Option.some.inj h
      unfold release at hi
      split at hi
      case h_1 o' ho =>
        rw [next_settled] at hi
        rcases List.mem_append.mp hi with hi | hi
        · exact Or.inl hi
        · obtain ⟨rfl, rfl⟩ := Prod.ext_iff.mp (List.mem_singleton.mp hi)
          exact Or.inr ⟨result, rfl, ho⟩
      case h_2 => exact Or.inl hi

/-- A promise is settled with what its own function ended with. -/
theorem settled_origin {limit : ℕ} {actions : List (Action V)} {s : State V}
    (h : run (step limit) {} actions = some s) {i : ℕ} {o : Outcome V} (hi : (i, o) ∈ s.settled) :
    ∃ result, Action.finish i result ∈ actions ∧ outcome result = some o := by
  induction actions using List.reverseRecOn generalizing s with
  | nil =>
    obtain rfl : {} = s := by simpa using h
    cases hi
  | append_singleton actions a ih =>
    obtain ⟨u, hu, hlast⟩ := run_append.mp h
    obtain ⟨t, ht, hnil⟩ := run_cons_iff.mp hlast
    obtain rfl : t = s := by simpa using hnil
    rcases mem_settled_step ht hi with hi | ⟨result, rfl, ho⟩
    · obtain ⟨result, hmem, ho⟩ := ih hu hi
      exact ⟨result, List.mem_append_left _ hmem, ho⟩
    · exact ⟨result, by simp, ho⟩

/-- Every call of an idle limiter has ended, if fewer promises than places were abandoned. -/
theorem all_ended {limit : ℕ} {s : State V} (h : Inv limit s) (hlaunched : s.launched = [])
    (hworking : s.working = []) (hfew : s.abandoned.length < limit) :
    (s.settled.map Prod.fst ++ s.abandoned).Perm (List.range s.calls) := by
  obtain ⟨hcount, -, horder, hended, hbusy⟩ := h
  rw [hlaunched, hworking] at hcount
  have hqueue : s.queue = [] := by
    rcases hbusy with hqueue | hbusy
    · exact hqueue
    · simp only [List.length_nil] at hcount
      omega
  rw [hlaunched, hqueue, List.append_nil, List.append_nil] at horder
  rw [hworking, List.nil_append, horder] at hended
  exact hended.symm

/-- Three calls with a limit of two. -/
def threeCalls : List (Action ℕ) :=
  [.call, .call, .call, .begin, .finish 0 (.ok 7), .begin, .begin]

end Limiter
end Batiste
