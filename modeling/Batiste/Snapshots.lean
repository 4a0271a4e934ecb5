import Mathlib.Tactic

/-! A memory that is kept in a file: a start reads the file, an edit changes the memory alone and
a save writes all of it.  Where what was saved reads back, a run over the file is a run over the
last memory that was saved. -/
namespace Batiste
namespace Snapshots

/-- What processes do one after another; a start may want something of the file. -/
inductive Act (R E : Type*)
  | start (want : R)
  | edit (e : E)
  | save
  | remove

structure State (F M : Type*) where
  file : Option F
  memory : M

variable {R E F M N : Type*}

section Machine

variable (load : R → Option F → M) (edit : E → M → M) (save : M → F)

def step (s : State F M) : Act R E → State F M
  | .start want => { s with memory := load want s.file }
  | .edit e => { s with memory := edit e s.memory }
  | .save => { s with file := some (save s.memory) }
  | .remove => { s with file := none }

def run (s : State F M) (acts : List (Act R E)) : State F M := acts.foldl (step load edit save) s

end Machine

/-- The same memory, its file written out. -/
def State.written (save : M → F) (s : State M M) : State F M := ⟨s.file.map save, s.memory⟩

/-- The memory and the file under a view of them. -/
def State.view (h : M → N) (s : State M M) : State N N := ⟨s.file.map h, h s.memory⟩

/-- The memory is such, and so is the one that was saved. -/
def State.All (I : M → Prop) (s : State M M) : Prop := I s.memory ∧ ∀ m ∈ s.file, I m

variable {load : R → Option F → M} {reopen : R → Option M → M} {edit : E → M → M} {save : M → F}
  {I : M → Prop}

theorem step_all (hopen : ∀ want file, (∀ m ∈ file, I m) → I (reopen want file)) {act : Act R E}
    (hedit : ∀ e, act = .edit e → ∀ m, I m → I (edit e m)) {s : State M M} (hs : s.All I) :
    (step reopen edit id s act).All I := by
  obtain ⟨hmemory, hfile⟩ := hs
  cases act with
  | start want => exact ⟨hopen want s.file hfile, hfile⟩
  | edit e => exact ⟨hedit e rfl _ hmemory, hfile⟩
  | save =>
    refine ⟨hmemory, fun m hm => ?_⟩
    rwa [← Option.some.inj hm]
  | remove => exact ⟨hmemory, fun m hm => by cases hm⟩

theorem run_all (hopen : ∀ want file, (∀ m ∈ file, I m) → I (reopen want file))
    {acts : List (Act R E)} (hedit : ∀ e, .edit e ∈ acts → ∀ m, I m → I (edit e m)) {s : State M M}
    (hs : s.All I) : (run reopen edit id s acts).All I := by
  induction acts generalizing s with
  | nil => exact hs
  | cons act acts ih =>
    refine ih (fun e he => hedit e (List.mem_cons_of_mem _ he)) (step_all hopen ?_ hs)
    rintro e rfl
    exact hedit e List.mem_cons_self

/-- What is saved is what a later start finds, as long as every memory can be saved. -/
theorem run_written (hload : ∀ want file, (∀ m ∈ file, I m) →
      load want (file.map save) = reopen want file)
    (hopen : ∀ want file, (∀ m ∈ file, I m) → I (reopen want file)) {acts : List (Act R E)}
    (hedit : ∀ e, .edit e ∈ acts → ∀ m, I m → I (edit e m)) {s : State M M} (hs : s.All I) :
    run load edit save (s.written save) acts = (run reopen edit id s acts).written save := by
  induction acts generalizing s with
  | nil => rfl
  | cons act acts ih =>
    have hstep : step load edit save (s.written save) act =
        (step reopen edit id s act).written save := by
      cases act with
      | start want =>
        have hread := hload want s.file hs.2
        simp only [step, State.written, hread]
      | edit e => rfl
      | save => rfl
      | remove => rfl
    show run load edit save (step load edit save (s.written save) act) acts = _
    rw [hstep]
    refine ih (fun e he => hedit e (List.mem_cons_of_mem _ he)) (step_all hopen ?_ hs)
    rintro e rfl
    exact hedit e List.mem_cons_self

/-- A view that goes along with edits and starts goes along with runs. -/
theorem run_view {h : M → N} {reopen' : R → Option N → N} {edit' : E → N → N}
    (hopen : ∀ want file, h (reopen want file) = reopen' want (file.map h))
    (hedit : ∀ e m, h (edit e m) = edit' e (h m)) (acts : List (Act R E)) (s : State M M) :
    (run reopen edit id s acts).view h = run reopen' edit' id (s.view h) acts := by
  induction acts generalizing s with
  | nil => rfl
  | cons act acts ih =>
    have hstep : (step reopen edit id s act).view h = step reopen' edit' id (s.view h) act := by
      cases act with
      | start want => simp only [step, State.view, hopen]
      | edit e => simp only [step, State.view, hedit]
      | save => rfl
      | remove => rfl
    show (run reopen edit id (step reopen edit id s act) acts).view h = _
    rw [ih, hstep]
    rfl

end Snapshots
end Batiste
