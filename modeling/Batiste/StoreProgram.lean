import Batiste.Transition

/-! Calls that work on a shared store in single accesses, between which other calls run. -/
namespace Batiste
namespace StoreProgram

open Transition

/-- What a call has still to do: it is over, or it reads the store and goes on with what it read, or
it writes to the store. -/
inductive Program (S R : Type)
  | done (result : R)
  | read (next : S → Program S R)
  | write (f : S → S) (next : Program S R)

variable {S R T : Type}

namespace Program

def bind : Program S R → (R → Program S T) → Program S T
  | done result, f => f result
  | read next, f => read fun s => (next s).bind f
  | write g next, f => write g (next.bind f)

instance : Monad (Program S) where
  pure := done
  bind := bind

/-- The store and the result of a call that nothing else runs next to. -/
def alone : Program S R → S → S × R
  | done result, s => (s, result)
  | read next, s => (next s).alone s
  | write f next, s => next.alone (f s)

theorem alone_bind (p : Program S R) (f : R → Program S T) (s : S) :
    (p >>= f).alone s = (f (p.alone s).2).alone (p.alone s).1 := by
  change (p.bind f).alone s = _
  induction p generalizing s with
  | done result => rfl
  | read next ih => exact ih s s
  | write g next ih => exact ih (g s)

/-! ## Calls that can fail -/

section Failing

variable {E : Type}

/-- A read of the store whose answer the call goes on with, or fails with. -/
def readE (f : S → Except E R) : ExceptT E (Program S) R := ExceptT.mk (read fun s => done (f s))

def writeE (f : S → S) : ExceptT E (Program S) Unit := ExceptT.mk (write f (done (.ok ())))

/-- A step that touches no store. -/
def settled (result : Except E R) : ExceptT E (Program S) R := ExceptT.mk (done result)

@[simp] theorem alone_settled (result : Except E R) (s : S) :
    (settled result : ExceptT E (Program S) R).run.alone s = (s, result) := rfl

@[simp] theorem alone_readE (f : S → Except E R) (s : S) : (readE f).run.alone s = (s, f s) := rfl

@[simp] theorem alone_writeE (f : S → S) (s : S) :
    (writeE f : ExceptT E (Program S) Unit).run.alone s = (f s, .ok ()) := rfl

@[simp] theorem alone_pureE (a : R) (s : S) :
    (pure a : ExceptT E (Program S) R).run.alone s = (s, .ok a) := rfl

@[simp] theorem alone_throwE (e : E) (s : S) :
    (throw e : ExceptT E (Program S) R).run.alone s = (s, .error e) := rfl

theorem alone_bindE (x : ExceptT E (Program S) R) (f : R → ExceptT E (Program S) T) (s : S) :
    (x >>= f).run.alone s = match x.run.alone s with
      | (t, .ok a) => (f a).run.alone t
      | (t, .error e) => (t, .error e) := by
  change (x.run >>= fun r => (ExceptT.bindCont f r : Program S (Except E T))).alone s = _
  rw [alone_bind]
  obtain ⟨t, result⟩ := x.run.alone s
  cases result <;> rfl

end Failing

end Program

/-- The store, and the calls that have been made. -/
structure Pool (S R : Type) where
  store : S
  calls : ℕ → Option (Program S R)

inductive Move (S R : Type)
  | start (k : ℕ) (p : Program S R)
  | access (k : ℕ)

namespace Pool

/-- What is left of a call after its next access. -/
def after (s : S) : Program S R → Option (S × Program S R)
  | .done _ => none
  | .read next => some (s, next s)
  | .write f next => some (f s, next)

def move (s : Pool S R) : Move S R → Option (Pool S R)
  | .start k p =>
    if (s.calls k).isNone then some { s with calls := Function.update s.calls k (some p) } else none
  | .access k =>
    ((s.calls k).bind (after s.store)).map fun r => ⟨r.1, Function.update s.calls k (some r.2)⟩

/-- The next access of the call is a write. -/
def Writing (s : Pool S R) (k : ℕ) : Prop := ∃ f next, s.calls k = some (.write f next)

theorem move_start {s t : Pool S R} {k : ℕ} {p : Program S R} (h : s.move (.start k p) = some t) :
    s.calls k = none ∧ t = ⟨s.store, Function.update s.calls k (some p)⟩ := by
  change (if (s.calls k).isNone then _ else none) = some t at h
  split_ifs at h with hnone
  exact ⟨by simpa using hnone, (Option.some.inj h).symm⟩

theorem move_access {s t : Pool S R} {k : ℕ} (h : s.move (.access k) = some t) :
    (∃ next, s.calls k = some (.read next) ∧
      t = ⟨s.store, Function.update s.calls k (some (next s.store))⟩) ∨
    ∃ f next, s.calls k = some (.write f next) ∧
      t = ⟨f s.store, Function.update s.calls k (some next)⟩ := by
  obtain ⟨⟨store, p⟩, hafter, rfl⟩ := Option.map_eq_some_iff.mp h
  obtain ⟨call, hcall, hafter⟩ := Option.bind_eq_some_iff.mp hafter
  cases call with
  | done result => cases hafter
  | read next =>
    obtain ⟨rfl, rfl⟩ := Prod.mk.inj (Option.some.inj hafter)
    exact .inl ⟨next, hcall, rfl⟩
  | write f next =>
    obtain ⟨rfl, rfl⟩ := Prod.mk.inj (Option.some.inj hafter)
    exact .inr ⟨f, next, hcall, rfl⟩

/-- A move that is no write leaves the store. -/
theorem move_store {s t : Pool S R} {m : Move S R} (h : s.move m = some t)
    (hquiet : ∀ k, m = .access k → ¬ s.Writing k) : t.store = s.store := by
  cases m with
  | start k p =>
    obtain ⟨-, rfl⟩ := move_start h
    rfl
  | access k =>
    rcases move_access h with ⟨next, -, rfl⟩ | ⟨f, next, hcall, -⟩
    · rfl
    · exact absurd ⟨f, next, hcall⟩ (hquiet k rfl)

/-- A call whose accesses follow each other does what it does alone. -/
theorem run_alone (p : Program S R) {s : Pool S R} {k : ℕ} (hcall : s.calls k = some p) :
    ∃ n, run move s (List.replicate n (.access k)) = some ⟨(p.alone s.store).1,
      Function.update s.calls k (some (.done (p.alone s.store).2))⟩ := by
  induction p generalizing s with
  | done result =>
    refine ⟨0, congrArg some ?_⟩
    obtain ⟨store, calls⟩ := s
    simp only [Program.alone, Pool.mk.injEq, true_and]
    exact (Function.update_eq_self_iff.mpr hcall.symm).symm
  | read next ih =>
    obtain ⟨n, hn⟩ := ih s.store
      (s := ⟨s.store, Function.update s.calls k (some (next s.store))⟩) (by simp)
    refine ⟨n + 1, ?_⟩
    rw [List.replicate_succ, run_cons, move, hcall]
    simpa [after, Program.alone] using hn
  | write f next ih =>
    obtain ⟨n, hn⟩ := ih (s := ⟨f s.store, Function.update s.calls k (some next)⟩) (by simp)
    refine ⟨n + 1, ?_⟩
    rw [List.replicate_succ, run_cons, move, hcall]
    simpa [after, Program.alone] using hn

end Pool

end StoreProgram
end Batiste
