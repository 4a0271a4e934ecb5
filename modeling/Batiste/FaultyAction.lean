import Mathlib.Tactic

/-! Actions on a state that can fail midway: what they did before the failure stays done. -/
namespace Batiste
namespace FaultyAction

/-- An action with its effects; a failure does not undo them. -/
abbrev Action (σ ε α : Type) := ExceptT ε (StateM σ) α

variable {σ τ ε α β : Type}

/-- The outcome of an action and the state it leaves. -/
def perform (act : Action σ ε α) (s : σ) : Except ε α × σ := act.run.run s

/-- One call of something outside, which may fail and leave a changed state all the same. -/
def external (f : σ → Except ε α × σ) : Action σ ε α := ExceptT.mk f

@[simp] theorem perform_pure (a : α) (s : σ) :
    perform (pure a : Action σ ε α) s = (.ok a, s) := rfl

@[simp] theorem perform_throw (e : ε) (s : σ) :
    perform (throw e : Action σ ε α) s = (.error e, s) := rfl

@[simp] theorem perform_external (f : σ → Except ε α × σ) (s : σ) :
    perform (external f) s = f s := rfl

@[simp] theorem perform_get (s : σ) : perform (get : Action σ ε σ) s = (.ok s, s) := rfl

@[simp] theorem perform_modify (f : σ → σ) (s : σ) :
    perform (modify f : Action σ ε Unit) s = (.ok (), f s) := rfl

/-- An action whose first part goes through goes on with the second. -/
theorem perform_bind_ok {act : Action σ ε α} {s t : σ} {a : α} (h : perform act s = (.ok a, t))
    (next : α → Action σ ε β) : perform (act >>= next) s = perform (next a) t := by
  simp only [perform, ExceptT.run_bind, StateT.run_bind] at h ⊢
  change (let r := act.run.run s; _) = _
  rw [show act.run.run s = (.ok a, t) from h]
  rfl

/-- An action whose first part fails ends there, in the state the failure left. -/
theorem perform_bind_error {act : Action σ ε α} {s t : σ} {e : ε}
    (h : perform act s = (.error e, t)) (next : α → Action σ ε β) :
    perform (act >>= next) s = (.error e, t) := by
  simp only [perform, ExceptT.run_bind, StateT.run_bind] at h ⊢
  change (let r := act.run.run s; _) = _
  rw [show act.run.run s = (.error e, t) from h]
  rfl

/-! ## What an action leaves alone -/

/-- The action leaves what `view` shows of the state, whether it fails or not. -/
def Keeps (view : σ → τ) (act : Action σ ε α) : Prop :=
  ∀ s, view (perform act s).2 = view s

variable {view : σ → τ}

theorem Keeps.pure (a : α) : Keeps view (pure a : Action σ ε α) := fun _ => rfl

theorem Keeps.throw (e : ε) : Keeps view (throw e : Action σ ε α) := fun _ => rfl

theorem Keeps.get : Keeps view (get : Action σ ε σ) := fun _ => rfl

theorem Keeps.modify {f : σ → σ} (h : ∀ s, view (f s) = view s) :
    Keeps view (modify f : Action σ ε Unit) := h

theorem Keeps.external {f : σ → Except ε α × σ} (h : ∀ s, view (f s).2 = view s) :
    Keeps view (external f) := h

theorem Keeps.bind {act : Action σ ε α} {next : α → Action σ ε β} (h : Keeps view act)
    (hnext : ∀ a, Keeps view (next a)) : Keeps view (act >>= next) := by
  intro s
  have hs := h s
  rcases hact : perform act s with ⟨outcome, t⟩
  rw [hact] at hs
  cases outcome with
  | error e => rwa [perform_bind_error hact]
  | ok a => rw [perform_bind_ok hact, hnext a t, hs]

theorem Keeps.ite {c : Prop} [Decidable c] {act other : Action σ ε α} (h : Keeps view act)
    (hother : Keeps view other) : Keeps view (if c then act else other) := by
  split <;> assumption

end FaultyAction
end Batiste
