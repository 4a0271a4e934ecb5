import Batiste.Transition

/-! One stored value, and calls that read it and later write back a changed copy.
A call is not atomic: other calls may write between its read and its write.  What the value
then carries is the chain of calls that led to it by reading from each other. -/
namespace Batiste
namespace ReadModifyWrite

open Transition

variable {σ C X : Type}

/-- The stored value, and what the calls that wait for their write have read. -/
structure Cell (σ C : Type) where
  value : σ
  copies : ℕ → Option (C × σ)

/-- The write is given what is only known then, such as a clock reading. -/
inductive Action (C X : Type)
  | read (k : ℕ) (call : C)
  | write (k : ℕ) (x : X)

def step (effect : C → X → σ → σ) (s : Cell σ C) : Action C X → Option (Cell σ C)
  | .read k call =>
    if (s.copies k).isNone then
      some { s with copies := Function.update s.copies k (some (call, s.value)) }
    else none
  | .write k x =>
    (s.copies k).map fun copy =>
      ⟨effect copy.1 x copy.2, Function.update s.copies k none⟩

/-- The value that records the calls whose effects it carries. -/
def push (call : C) (x : X) (h : List (C × X)) : List (C × X) := h ++ [(call, x)]

def start (value : σ) : Cell σ C := ⟨value, fun _ => none⟩

/-- Perform calls one after another. -/
def serially (effect : C → X → σ → σ) (value : σ) (h : List (C × X)) : σ :=
  h.foldl (fun v e => effect e.1 e.2 v) value

theorem serially_push (effect : C → X → σ → σ) (value : σ) (call : C) (x : X)
    (h : List (C × X)) :
    serially effect value (push call x h) = effect call x (serially effect value h) := by
  simp [serially, push]

/-- A cell and the histories it and its copies carry. -/
def Carries (effect : C → X → σ → σ) (value : σ) (s : Cell σ C) (h : Cell (List (C × X)) C) :
    Prop :=
  s.value = serially effect value h.value ∧ ∀ k,
    s.copies k = (h.copies k).map fun copy => (copy.1, serially effect value copy.2)

theorem carries_step {effect : C → X → σ → σ} {value : σ} {s t : Cell σ C}
    {h : Cell (List (C × X)) C} {a : Action C X} (hcarry : Carries effect value s h)
    (hs : step effect s a = some t) :
    ∃ h', step push h a = some h' ∧ Carries effect value t h' := by
  obtain ⟨hvalue, hcopies⟩ := hcarry
  cases a with
  | read k call =>
    simp only [step] at hs
    split_ifs at hs with hnone
    cases hs
    have hfree : (h.copies k).isNone := by
      rw [hcopies k] at hnone
      simpa using hnone
    refine ⟨_, if_pos hfree, hvalue, fun i => ?_⟩
    by_cases hi : i = k
    · subst hi
      simp [hvalue]
    · simp [Function.update_of_ne hi, hcopies i]
  | write k x =>
    obtain ⟨copy, hcopy, rfl⟩ := Option.map_eq_some_iff.mp hs
    rw [hcopies k] at hcopy
    obtain ⟨⟨call, v⟩, hold, rfl⟩ := Option.map_eq_some_iff.mp hcopy
    refine ⟨⟨push call x v, Function.update h.copies k none⟩, by simp [step, hold], ?_, fun i => ?_⟩
    · exact (serially_push effect value call x v).symm
    · by_cases hi : i = k
      · subst hi
        simp
      · simp [Function.update_of_ne hi, hcopies i]

/-- Every run carries a history, and its value is that history performed serially. -/
theorem carries_run {effect : C → X → σ → σ} {value : σ} {s t : Cell σ C}
    {h : Cell (List (C × X)) C} {as : List (Action C X)} (hcarry : Carries effect value s h)
    (hs : run (step effect) s as = some t) :
    ∃ h', run (step push) h as = some h' ∧ Carries effect value t h' := by
  induction as generalizing s h with
  | nil =>
    obtain rfl : s = t := by simpa using hs
    exact ⟨h, rfl, hcarry⟩
  | cons a as ih =>
    obtain ⟨u, hu, ht⟩ := run_cons_iff.mp hs
    obtain ⟨h', hh', hcarry'⟩ := carries_step hcarry hu
    obtain ⟨h'', hh'', hfinal⟩ := ih hcarry' ht
    exact ⟨h'', run_cons_iff.mpr ⟨h', hh', hh''⟩, hfinal⟩

/-- The calls of a run that were written, in the order of their writes. -/
def writes : (ℕ → Option C) → List (Action C X) → List (C × X)
  | _, [] => []
  | opened, .read k call :: as => writes (Function.update opened k (some call)) as
  | opened, .write k x :: as =>
    match opened k with
    | some call => (call, x) :: writes (Function.update opened k none) as
    | none => writes opened as

/-- No write falls between the read and the write of another call; `current` lists the calls
that have read since the last write. -/
def Isolated : List ℕ → List (Action C X) → Prop
  | _, [] => True
  | current, .read k _ :: as => Isolated (k :: current) as
  | current, .write k _ :: as => k ∈ current ∧ Isolated [] as

/-- The calls that wait for their write. -/
def Cell.opened (s : Cell σ C) (k : ℕ) : Option C := (s.copies k).map Prod.fst

theorem opened_read (s : Cell σ C) (k : ℕ) (call : C) (v : σ) :
    Cell.opened { s with copies := Function.update s.copies k (some (call, v)) } =
      Function.update s.opened k (some call) := by
  funext i
  by_cases hi : i = k
  · subst hi
    simp [Cell.opened]
  · simp [Cell.opened, Function.update_of_ne hi]

theorem opened_write (s : Cell σ C) (k : ℕ) (v : σ) :
    Cell.opened ⟨v, Function.update s.copies k none⟩ = Function.update s.opened k none := by
  funext i
  by_cases hi : i = k
  · subst hi
    simp [Cell.opened]
  · simp [Cell.opened, Function.update_of_ne hi]

/-- The history carried is a part of the writes, in their order, and ends with the last one. -/
theorem history_sublist {s t : Cell (List (C × X)) C} {as : List (Action C X)}
    {log : List (C × X)} (hvalue : s.value.Sublist log)
    (hcopies : ∀ k copy, s.copies k = some copy → copy.2.Sublist log)
    (hs : run (step push) s as = some t) : t.value.Sublist (log ++ writes s.opened as) := by
  induction as generalizing s log with
  | nil =>
    obtain rfl : s = t := by simpa using hs
    simpa [writes] using hvalue
  | cons a as ih =>
    obtain ⟨u, hu, ht⟩ := run_cons_iff.mp hs
    cases a with
    | read k call =>
      simp only [step] at hu
      split_ifs at hu
      cases hu
      have hsub : ∀ i copy, Function.update s.copies k (some (call, s.value)) i = some copy →
          copy.2.Sublist log := by
        intro i copy hi
        by_cases heq : i = k
        · subst heq
          obtain rfl : (call, s.value) = copy := by simpa using hi
          exact hvalue
        · exact hcopies i copy (by simpa [Function.update_of_ne heq] using hi)
      have hrec := ih (s := { s with copies := Function.update s.copies k (some (call, s.value)) })
        hvalue hsub ht
      rwa [opened_read] at hrec
    | write k x =>
      obtain ⟨copy, hcopy, rfl⟩ := Option.map_eq_some_iff.mp hu
      have hopen : s.opened k = some copy.1 := by simp [Cell.opened, hcopy]
      have hnew : (push copy.1 x copy.2).Sublist (log ++ [(copy.1, x)]) :=
        (hcopies k copy hcopy).append (List.Sublist.refl _)
      have hsub : ∀ i copy', Function.update s.copies k none i = some copy' →
          copy'.2.Sublist (log ++ [(copy.1, x)]) := by
        intro i copy' hi
        by_cases heq : i = k
        · subst heq
          simp at hi
        · have hold := hcopies i copy' (by simpa [Function.update_of_ne heq] using hi)
          exact hold.trans (List.sublist_append_left _ _)
      have hrec := ih hnew hsub ht
      rw [opened_write] at hrec
      simpa [writes, hopen] using hrec

theorem history_last {s t : Cell (List (C × X)) C} {as : List (Action C X)}
    (hs : run (step push) s as = some t) :
    t.value.getLast? = (writes s.opened as).getLast?.or s.value.getLast? := by
  induction as generalizing s with
  | nil =>
    obtain rfl : s = t := by simpa using hs
    simp [writes]
  | cons a as ih =>
    obtain ⟨u, hu, ht⟩ := run_cons_iff.mp hs
    cases a with
    | read k call =>
      simp only [step] at hu
      split_ifs at hu
      cases hu
      have hrec := ih ht
      rwa [opened_read] at hrec
    | write k x =>
      obtain ⟨copy, hcopy, rfl⟩ := Option.map_eq_some_iff.mp hu
      have hopen : s.opened k = some copy.1 := by simp [Cell.opened, hcopy]
      have hrec := ih ht
      rw [opened_write] at hrec
      rw [hrec]
      cases hw : (writes (Function.update s.opened k none) as).getLast? with
      | none =>
        have hnil := List.getLast?_eq_none_iff.mp hw
        simp [writes, hopen, hnil, push]
      | some e => simp [writes, hopen, List.getLast?_cons, hw]

/-- Where no call is overtaken, the history is all the writes. -/
theorem history_isolated {s t : Cell (List (C × X)) C} {as : List (Action C X)}
    {current : List ℕ} (hcurrent : ∀ k ∈ current, ∀ copy, s.copies k = some copy →
      copy.2 = s.value) (hiso : Isolated current as) (hs : run (step push) s as = some t) :
    t.value = s.value ++ writes s.opened as := by
  induction as generalizing s current with
  | nil =>
    obtain rfl : s = t := by simpa using hs
    simp [writes]
  | cons a as ih =>
    obtain ⟨u, hu, ht⟩ := run_cons_iff.mp hs
    cases a with
    | read k call =>
      simp only [step] at hu
      split_ifs at hu
      cases hu
      have hnew : ∀ i ∈ k :: current, ∀ copy,
          Function.update s.copies k (some (call, s.value)) i = some copy → copy.2 = s.value := by
        intro i hi copy hcopy
        by_cases heq : i = k
        · subst heq
          obtain rfl : (call, s.value) = copy := by simpa using hcopy
          rfl
        · have hmem := (List.mem_cons.mp hi).resolve_left heq
          exact hcurrent i hmem copy (by simpa [Function.update_of_ne heq] using hcopy)
      have hrec := ih hnew hiso ht
      rwa [opened_read] at hrec
    | write k x =>
      obtain ⟨copy, hcopy, rfl⟩ := Option.map_eq_some_iff.mp hu
      have hopen : s.opened k = some copy.1 := by simp [Cell.opened, hcopy]
      have hsame := hcurrent k hiso.1 copy hcopy
      have hnone : ∀ i ∈ ([] : List ℕ), ∀ copy',
          Function.update s.copies k none i = some copy' → copy'.2 = push copy.1 x copy.2 := by simp
      have hrec := ih hnone hiso.2 ht
      rw [opened_write] at hrec
      rw [hrec]
      simp [writes, hopen, push, hsame]

theorem opened_start (value : σ) : (start value : Cell σ C).opened = fun _ => none := rfl

/-- What the history of a run from the start is. -/
theorem history_start {t : Cell (List (C × X)) C} {as : List (Action C X)}
    (hs : run (step push) (start []) as = some t) :
    t.value.Sublist (writes (fun _ => none) as) ∧
      t.value.getLast? = (writes (fun _ => none) as).getLast? ∧
      (Isolated [] as → t.value = writes (fun _ => none) as) := by
  have hsub := history_sublist (List.Sublist.refl []) (by simp [start]) hs
  have hlast := history_last hs
  rw [opened_start] at hsub hlast
  refine ⟨hsub, hlast.trans (by simp [start]), fun hiso => ?_⟩
  have hall := history_isolated (by simp) hiso hs
  rwa [opened_start] at hall

end ReadModifyWrite
end Batiste
