import Mathlib.Tactic

/-! Unit elimination over a list of clauses, each a list of candidates.
A clause with a single open candidate takes it, and what is taken is no longer open.
One pass reads the clauses in order, so a clause can become a unit after it has been read. -/
namespace Batiste
namespace UnitElimination

variable {α : Type}

/-- The only open candidate of a clause. -/
def pick (opn : α → Bool) (c : List α) : Option α :=
  match c.filter opn with
  | [x] => some x
  | _ => none

theorem pick_eq_some_iff_filter {opn : α → Bool} {c : List α} {x : α} :
    pick opn c = some x ↔ c.filter opn = [x] := by
  unfold pick
  split
  · rename_i y hy
    simp [hy]
  · rename_i hne
    simpa using fun h => hne x h

theorem pick_eq_some_iff {opn : α → Bool} {c : List α} (hc : c.Nodup) {x : α} :
    pick opn c = some x ↔ x ∈ c ∧ opn x = true ∧ ∀ u ∈ c, opn u = true → u = x := by
  rw [pick_eq_some_iff_filter]
  constructor
  · intro h
    have hmem : ∀ u, u ∈ c ∧ opn u = true ↔ u = x := by
      intro u
      rw [← List.mem_filter, h, List.mem_singleton]
    have hx := (hmem x).mpr rfl
    exact ⟨hx.1, hx.2, fun u hu hopen => (hmem u).mp ⟨hu, hopen⟩⟩
  · rintro ⟨hx, hopen, honly⟩
    have hperm : (c.filter opn).Perm [x] := by
      rw [List.perm_ext_iff_of_nodup (hc.filter opn) (List.nodup_singleton x)]
      intro u
      rw [List.mem_filter, List.mem_singleton]
      constructor
      · exact fun hu => honly u hu.1 hu.2
      · rintro rfl
        exact ⟨hx, hopen⟩
    exact List.perm_singleton.mp hperm

/-- A candidate that elimination settles, in whatever order the clauses are used. -/
inductive Settled (cs : List (List α)) (opn : α → Bool) : α → Prop
  | unit {c : List α} {x : α} (hc : c ∈ cs) (hx : x ∈ c) (hopen : opn x = true)
      (hrest : ∀ u ∈ c, opn u = true → u ≠ x → Settled cs opn u) : Settled cs opn x

/-- A candidate that the clause `i` settles by eliminations of earlier clauses only. -/
inductive SettledInOrder (cs : List (List α)) (opn : α → Bool) : ℕ → α → Prop
  | unit {i : ℕ} {c : List α} {x : α} (j : α → ℕ) (hc : cs[i]? = some c) (hx : x ∈ c)
      (hopen : opn x = true) (hj : ∀ u ∈ c, opn u = true → u ≠ x → j u < i)
      (hrest : ∀ u ∈ c, opn u = true → u ≠ x → SettledInOrder cs opn (j u) u) :
      SettledInOrder cs opn i x

theorem SettledInOrder.lt_length {cs : List (List α)} {opn : α → Bool} {i : ℕ} {x : α}
    (h : SettledInOrder cs opn i x) : i < cs.length := by
  cases h with
  | unit j hc => exact (List.getElem?_eq_some_iff.mp hc).1

theorem SettledInOrder.append {cs : List (List α)} {opn : α → Bool} {i : ℕ} {x : α}
    (h : SettledInOrder cs opn i x) (ds : List (List α)) : SettledInOrder (cs ++ ds) opn i x := by
  induction h with
  | unit j hc hx hopen hj _ ih =>
    refine .unit j ?_ hx hopen hj ih
    rw [List.getElem?_append_left (List.getElem?_eq_some_iff.mp hc).1, hc]

theorem SettledInOrder.settled {cs : List (List α)} {opn : α → Bool} {i : ℕ} {x : α}
    (h : SettledInOrder cs opn i x) : Settled cs opn x := by
  induction h with
  | unit j hc hx hopen _ _ ih => exact .unit (List.mem_of_getElem? hc) hx hopen ih

variable [DecidableEq α]

/-- What stays open when `xs` are taken. -/
def without (opn : α → Bool) (xs : List α) (x : α) : Bool := opn x && !decide (x ∈ xs)

@[simp] theorem without_eq_true {opn : α → Bool} {xs : List α} {x : α} :
    without opn xs x = true ↔ opn x = true ∧ x ∉ xs := by simp [without]

@[simp] theorem without_nil (opn : α → Bool) : without opn [] = opn := by
  funext x
  simp [without]

theorem without_append (opn : α → Bool) (xs ys : List α) :
    without opn (xs ++ ys) = without (without opn xs) ys := by
  funext x
  simp [without, Bool.and_assoc]

/-- One pass over the clauses: what is taken, in the order of the clauses. -/
def pass : List (List α) → (α → Bool) → List α
  | [], _ => []
  | c :: cs, opn =>
    match pick opn c with
    | none => pass cs opn
    | some x => x :: pass cs (without opn [x])

theorem pass_append (cs ds : List (List α)) (opn : α → Bool) :
    pass (cs ++ ds) opn = pass cs opn ++ pass ds (without opn (pass cs opn)) := by
  induction cs generalizing opn with
  | nil => simp [pass]
  | cons c cs ih =>
    simp only [List.cons_append, pass]
    cases pick opn c with
    | none => exact ih opn
    | some x =>
      simp only [ih, List.cons_append]
      rw [← without_append]
      rfl

theorem pass_singleton (c : List α) (opn : α → Bool) : pass [c] opn = (pick opn c).toList := by
  unfold pass pass
  cases pick opn c <;> rfl

theorem pass_open {cs : List (List α)} {opn : α → Bool} {x : α} (h : x ∈ pass cs opn) :
    opn x = true := by
  induction cs generalizing opn with
  | nil => simp [pass] at h
  | cons c cs ih =>
    unfold pass at h
    cases hpick : pick opn c with
    | none => exact ih (by simpa [hpick] using h)
    | some y =>
      simp only [hpick, List.mem_cons] at h
      cases h with
      | inl hxy =>
        have hmem : x ∈ c.filter opn := by
          unfold pick at hpick
          split at hpick
          · rename_i z hz
            rw [hz, hxy, Option.some.inj hpick]
            exact List.mem_singleton_self y
          · simp at hpick
        exact (List.mem_filter.mp hmem).2
      | inr hrest => exact (without_eq_true.mp (ih hrest)).1

theorem pass_nodup (cs : List (List α)) (opn : α → Bool) : (pass cs opn).Nodup := by
  induction cs generalizing opn with
  | nil => exact List.nodup_nil
  | cons c cs ih =>
    unfold pass
    cases pick opn c with
    | none => exact ih opn
    | some x =>
      refine List.nodup_cons.mpr ⟨fun hx => ?_, ih _⟩
      exact (without_eq_true.mp (pass_open hx)).2 (List.mem_singleton_self x)

theorem pass_eq_nil_iff {cs : List (List α)} {opn : α → Bool} :
    pass cs opn = [] ↔ ∀ c ∈ cs, pick opn c = none := by
  induction cs with
  | nil => simp [pass]
  | cons c cs ih =>
    unfold pass
    cases hpick : pick opn c with
    | none => simp [ih, hpick]
    | some x => simp [hpick]

theorem mem_pass_of_settled {cs : List (List α)} (hcs : ∀ c ∈ cs, c.Nodup) {opn : α → Bool}
    {i : ℕ} {x : α} (h : SettledInOrder cs opn i x) : x ∈ pass (cs.take (i + 1)) opn := by
  induction h with
  | @unit i c x j hc hx hopen hj _ ih =>
    have htake : cs.take (i + 1) = cs.take i ++ [c] := by rw [List.take_add_one, hc]; rfl
    rw [htake, pass_append, List.mem_append, pass_singleton]
    by_cases hdone : x ∈ pass (cs.take i) opn
    · exact Or.inl hdone
    · have hpick : pick (without opn (pass (cs.take i) opn)) c = some x := by
        rw [pick_eq_some_iff (hcs c (List.mem_of_getElem? hc))]
        refine ⟨hx, without_eq_true.mpr ⟨hopen, hdone⟩, fun u hu hopenu => ?_⟩
        by_contra hne
        obtain ⟨hou, hnot⟩ := without_eq_true.mp hopenu
        have hpre : cs.take i = cs.take (j u + 1) ++ (cs.take i).drop (j u + 1) := by
          conv_lhs => rw [← List.take_append_drop (j u + 1) (cs.take i)]
          rw [List.take_take, Nat.min_eq_left (hj u hu hou hne)]
        rw [hpre, pass_append] at hnot
        exact hnot (List.mem_append_left _ (ih u hu hou hne))
      exact Or.inr (by simp [hpick])

theorem settled_of_mem_pass {cs : List (List α)} (hcs : ∀ c ∈ cs, c.Nodup) {opn : α → Bool}
    {x : α} (h : x ∈ pass cs opn) : ∃ i, SettledInOrder cs opn i x := by
  induction cs using List.reverseRecOn generalizing x with
  | nil => simp [pass] at h
  | append_singleton cs c ih =>
    have hold := fun c' hc' => hcs c' (List.mem_append_left [c] hc')
    have hearlier : ∀ u ∈ pass cs opn, ∃ i < cs.length, SettledInOrder (cs ++ [c]) opn i u := by
      intro u hu
      obtain ⟨i, hi⟩ := ih hold hu
      exact ⟨i, hi.lt_length, hi.append [c]⟩
    rw [pass_append, List.mem_append, pass_singleton, Option.mem_toList] at h
    cases h with
    | inl h =>
      obtain ⟨i, -, hi⟩ := hearlier x h
      exact ⟨i, hi⟩
    | inr h =>
      rw [pick_eq_some_iff (hcs c (by simp))] at h
      obtain ⟨hx, hopen, honly⟩ := h
      have hrest : ∀ u, u ∈ c → opn u = true → u ≠ x →
          ∃ i < cs.length, SettledInOrder (cs ++ [c]) opn i u := by
        intro u hu hopenu hne
        refine hearlier u ?_
        by_contra hnot
        exact hne (honly u hu (without_eq_true.mpr ⟨hopenu, hnot⟩))
      choose! j hj using hrest
      exact ⟨cs.length, .unit j (by simp) hx (without_eq_true.mp hopen).1
        (fun u hu ho hne => (hj u hu ho hne).1) fun u hu ho hne => (hj u hu ho hne).2⟩

/-- A pass takes what is settled in the order of the clauses. -/
theorem mem_pass_iff {cs : List (List α)} (hcs : ∀ c ∈ cs, c.Nodup) {opn : α → Bool} {x : α} :
    x ∈ pass cs opn ↔ ∃ i, SettledInOrder cs opn i x := by
  refine ⟨settled_of_mem_pass hcs, fun ⟨i, hi⟩ => ?_⟩
  have hmem := mem_pass_of_settled hcs hi
  rw [← List.take_append_drop (i + 1) cs, pass_append]
  exact List.mem_append_left _ hmem

/-- A second pass takes nothing exactly when the order of the clauses makes no difference. -/
theorem pass_again_iff {cs : List (List α)} (hcs : ∀ c ∈ cs, c.Nodup) {opn : α → Bool} :
    pass cs (without opn (pass cs opn)) = [] ↔
      ∀ x, Settled cs opn x → ∃ i, SettledInOrder cs opn i x := by
  rw [pass_eq_nil_iff]
  constructor
  · intro hnone x hsettled
    rw [← mem_pass_iff hcs]
    induction hsettled with
    | @unit c x hc hx hopen _ ih =>
      by_contra hnot
      have hpick : pick (without opn (pass cs opn)) c = some x := by
        rw [pick_eq_some_iff (hcs c hc)]
        refine ⟨hx, without_eq_true.mpr ⟨hopen, hnot⟩, fun u hu hopenu => ?_⟩
        by_contra hne
        obtain ⟨hou, hleft⟩ := without_eq_true.mp hopenu
        exact hleft (ih u hu hou hne)
      rw [hnone c hc] at hpick
      simp at hpick
  · intro horder c hc
    rw [Option.eq_none_iff_forall_ne_some]
    intro x hpick
    obtain ⟨hx, hopen, honly⟩ := (pick_eq_some_iff (hcs c hc)).mp hpick
    obtain ⟨hox, hnot⟩ := without_eq_true.mp hopen
    have hsettled : Settled cs opn x := by
      refine .unit hc hx hox fun u hu hou hne => ?_
      have hmem : u ∈ pass cs opn := by
        by_contra hleft
        exact hne (honly u hu (without_eq_true.mpr ⟨hou, hleft⟩))
      obtain ⟨i, hi⟩ := (mem_pass_iff hcs).mp hmem
      exact hi.settled
    exact hnot ((mem_pass_iff hcs).mpr (horder x hsettled))

end UnitElimination
end Batiste
