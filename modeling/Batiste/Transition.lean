import Mathlib.Tactic

/-! Runs of a labelled partial transition function.
A component is a state type, an action type and `step : S → A → Option S`, where `none`
means that the action is not enabled.  Invariants, termination by a rank and maximal runs
are proved here once for every component of the development. -/
namespace Batiste
namespace Transition

variable {S A : Type*} (step : S → A → Option S)

/-- Perform the actions of a schedule in order, as long as each is enabled. -/
def run : S → List A → Option S
  | s, [] => some s
  | s, a :: as => (step s a).bind fun t => run t as

/-- The states some schedule leads to. -/
def Reachable (s₀ s : S) : Prop := ∃ as, run step s₀ as = some s

/-- No action is enabled. -/
def Stuck (s : S) : Prop := ∀ a, step s a = none

@[simp] theorem run_nil (s : S) : run step s [] = some s := rfl

theorem run_cons (s : S) (a : A) (as : List A) :
    run step s (a :: as) = (step s a).bind fun t => run step t as := rfl

variable {step}

theorem run_cons_iff {s u : S} {a : A} {as : List A} :
    run step s (a :: as) = some u ↔ ∃ t, step s a = some t ∧ run step t as = some u := by
  rw [run_cons, Option.bind_eq_some_iff]

theorem run_append {s u : S} {as bs : List A} :
    run step s (as ++ bs) = some u ↔ ∃ t, run step s as = some t ∧ run step t bs = some u := by
  induction as generalizing s with
  | nil => simp
  | cons a as ih =>
    simp only [List.cons_append, run_cons_iff, ih]
    constructor
    · rintro ⟨t, ht, v, hv, hu⟩
      exact ⟨v, ⟨t, ht, hv⟩, hu⟩
    · rintro ⟨v, ⟨t, ht, hv⟩, hu⟩
      exact ⟨t, ht, v, hv, hu⟩

theorem run_snoc {s t u : S} {as : List A} {a : A}
    (h : run step s as = some t) (ha : step t a = some u) : run step s (as ++ [a]) = some u :=
  run_append.mpr ⟨t, h, run_cons_iff.mpr ⟨u, ha, rfl⟩⟩

/-- What every step preserves holds after every run. -/
theorem run_invariant {I : S → Prop} (hI : ∀ s a t, I s → step s a = some t → I t)
    {s t : S} {as : List A} (hs : I s) (h : run step s as = some t) : I t := by
  induction as generalizing s with
  | nil =>
    obtain rfl : s = t := by simpa using h
    exact hs
  | cons a as ih =>
    obtain ⟨u, hu, ht⟩ := run_cons_iff.mp h
    exact ih (hI s a u hs hu) ht

theorem Reachable.invariant {I : S → Prop} (hI : ∀ s a t, I s → step s a = some t → I t)
    {s t : S} (hs : I s) (h : Reachable step s t) : I t := by
  obtain ⟨as, has⟩ := h
  exact run_invariant hI hs has

/-- A rank that every step from an invariant state lowers bounds the length of every run. -/
theorem run_length_le {I : S → Prop} (rank : S → ℕ)
    (hI : ∀ s a t, I s → step s a = some t → I t)
    (hrank : ∀ s a t, I s → step s a = some t → rank t < rank s)
    {s t : S} {as : List A} (hs : I s) (h : run step s as = some t) :
    as.length + rank t ≤ rank s := by
  induction as generalizing s with
  | nil =>
    obtain rfl : s = t := by simpa using h
    simp
  | cons a as ih =>
    obtain ⟨u, hu, ht⟩ := run_cons_iff.mp h
    have hlt := hrank s a u hs hu
    have hle := ih (hI s a u hs hu) ht
    simp only [List.length_cons]
    omega

/-- Where the runs are of bounded length, some run cannot be continued. -/
theorem exists_stuck {s : S} {n : ℕ}
    (hbound : ∀ as t, run step s as = some t → as.length ≤ n) :
    ∃ as t, run step s as = some t ∧ Stuck step t := by
  by_contra hno
  push Not at hno
  have hlong : ∀ k, ∃ as t, run step s as = some t ∧ as.length = k := by
    intro k
    induction k with
    | zero => exact ⟨[], s, rfl, rfl⟩
    | succ k ih =>
      obtain ⟨as, t, ht, hk⟩ := ih
      have hns := hno as t ht
      simp only [Stuck, not_forall] at hns
      obtain ⟨a, ha⟩ := hns
      obtain ⟨u, hu⟩ := Option.ne_none_iff_exists'.mp ha
      exact ⟨as ++ [a], u, run_snoc ht hu, by simp [hk]⟩
  obtain ⟨as, t, ht, hk⟩ := hlong (n + 1)
  have := hbound as t ht
  omega

variable (step) in
/-- Every step of a run, together with the actions before it, is `ok`. -/
def Each (s₀ : S) (as : List A) (ok : List A → S → A → Prop) : Prop :=
  ∀ pre a post s, as = pre ++ a :: post → run step s₀ pre = some s → ok pre s a

theorem Each.initial {s₀ : S} {as bs : List A} {ok : List A → S → A → Prop}
    (h : Each step s₀ (as ++ bs) ok) : Each step s₀ as ok := by
  intro pre a post s has hs
  exact h pre a (post ++ bs) s (by simp [has]) hs

theorem Each.last {s₀ s : S} {as : List A} {a : A} {ok : List A → S → A → Prop}
    (h : Each step s₀ (as ++ [a]) ok) (hs : run step s₀ as = some s) : ok as s a :=
  h as a [] s rfl hs

theorem Each.head {s : S} {a : A} {as : List A} {ok : List A → S → A → Prop}
    (h : Each step s (a :: as) ok) : ok [] s a :=
  h [] a as s rfl rfl

theorem Each.tail {s t : S} {a : A} {as : List A} {ok : List A → S → A → Prop}
    (h : Each step s (a :: as) ok) (hs : step s a = some t) :
    Each step t as fun pre => ok (a :: pre) := by
  intro pre b post u has hu
  exact h (a :: pre) b post u (by simp [has]) (run_cons_iff.mpr ⟨t, hs, hu⟩)

theorem each_nil (s₀ : S) (ok : List A → S → A → Prop) : Each step s₀ [] ok := by
  intro pre a post s has
  simp at has

theorem each_cons {s t : S} {a : A} {as : List A} {ok : List A → S → A → Prop} (ha : ok [] s a)
    (hs : step s a = some t) (h : Each step t as fun pre => ok (a :: pre)) :
    Each step s (a :: as) ok := by
  intro pre b post u has hu
  cases pre with
  | nil =>
    obtain ⟨rfl, -⟩ := List.cons.inj has
    obtain rfl : s = u := by simpa using hu
    exact ha
  | cons c pre =>
    obtain ⟨rfl, htail⟩ := List.cons.inj has
    obtain ⟨v, hv, hrest⟩ := run_cons_iff.mp hu
    obtain rfl : t = v := Option.some.inj (hs.symm.trans hv)
    exact h pre b post u htail hrest

theorem each_stuck {s : S} {a : A} {as : List A} {ok : List A → S → A → Prop} (ha : ok [] s a)
    (hs : step s a = none) : Each step s (a :: as) ok := by
  intro pre b post u has hu
  cases pre with
  | nil =>
    obtain ⟨rfl, -⟩ := List.cons.inj has
    obtain rfl : s = u := by simpa using hu
    exact ha
  | cons c pre =>
    obtain ⟨rfl, -⟩ := List.cons.inj has
    simp [run_cons, hs] at hu

/-- What stands in a schedule with one more action is that action, or stood there before. -/
theorem snoc_split {as pre post : List A} {a b : A} (h : as ++ [a] = pre ++ b :: post) :
    (pre = as ∧ b = a) ∨ ∃ rest, as = pre ++ b :: rest := by
  cases List.eq_nil_or_concat post with
  | inl hnil =>
    subst hnil
    obtain ⟨hpre, hlast⟩ := List.append_inj' h rfl
    exact Or.inl ⟨hpre.symm, by simpa using hlast.symm⟩
  | inr hconcat =>
    obtain ⟨rest, c, rfl⟩ := hconcat
    have hsplit : as ++ [a] = (pre ++ b :: rest) ++ [c] := by simpa using h
    exact Or.inr ⟨rest, (List.append_inj' hsplit rfl).1⟩

theorem each_snoc {s₀ s : S} {as : List A} {a : A} {ok : List A → S → A → Prop}
    (h : Each step s₀ as ok) (hs : run step s₀ as = some s) (ha : ok as s a) :
    Each step s₀ (as ++ [a]) ok := by
  intro pre b post u has hu
  rcases snoc_split has with ⟨rfl, rfl⟩ | ⟨rest, hpre⟩
  · obtain rfl : s = u := Option.some.inj (hs.symm.trans hu)
    exact ha
  · exact h pre b rest u hpre hu

variable (step) in
/-- Some step of a run was such a one. -/
def Occurs (s₀ : S) (as : List A) (P : S → A → Prop) : Prop :=
  ∃ pre a post s, as = pre ++ a :: post ∧ run step s₀ pre = some s ∧ P s a

theorem not_occurs_nil (s₀ : S) (P : S → A → Prop) : ¬ Occurs step s₀ [] P := by
  rintro ⟨pre, a, post, s, has, -⟩
  simp at has

theorem occurs_snoc {s₀ s : S} {as : List A} {a : A} {P : S → A → Prop}
    (hs : run step s₀ as = some s) :
    Occurs step s₀ (as ++ [a]) P ↔ Occurs step s₀ as P ∨ P s a := by
  constructor
  · rintro ⟨pre, b, post, t, has, ht, hb⟩
    rcases snoc_split has with ⟨rfl, rfl⟩ | ⟨rest, hpre⟩
    · obtain rfl : s = t := Option.some.inj (hs.symm.trans ht)
      exact Or.inr hb
    · exact Or.inl ⟨pre, b, rest, t, hpre, ht, hb⟩
  · rintro (⟨pre, b, post, t, has, ht, hb⟩ | ha)
    · exact ⟨pre, b, post ++ [a], t, by simp [has], ht, hb⟩
    · exact ⟨as, a, [], s, rfl, hs, ha⟩

/-- A property of states and their histories that every `ok` step preserves. -/
theorem run_history {I : List A → S → Prop} {ok : List A → S → A → Prop} {s₀ t : S}
    {as : List A} (h₀ : I [] s₀)
    (hI : ∀ pre s a t, run step s₀ pre = some s → I pre s → ok pre s a → step s a = some t →
      I (pre ++ [a]) t)
    (hok : Each step s₀ as ok) (h : run step s₀ as = some t) : I as t := by
  induction as using List.reverseRecOn generalizing t with
  | nil =>
    obtain rfl : s₀ = t := by simpa using h
    exact h₀
  | append_singleton as a ih =>
    obtain ⟨s, hs, hlast⟩ := run_append.mp h
    obtain ⟨u, hu, hnil⟩ := run_cons_iff.mp hlast
    obtain rfl : u = t := by simpa using hnil
    exact hI as s a u hs (ih hok.initial hs) (hok.last hs) hu

end Transition
end Batiste
