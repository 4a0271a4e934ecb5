import Mathlib.Tactic

/-! Countdown counters over a dependency relation, and Kahn's algorithm.
Every node starts with one count for each declared dependency (repetitions included).
When a node is done, each of its uses is counted off, and a node is released at the
decrement that brings its counter to zero. -/
namespace Batiste
namespace Countdown

variable {α : Type*} [DecidableEq α]

/-- Append `x` once to the user list of each entry of `deps`. -/
def addUser (m : α → List α) (x : α) (deps : List α) : α → List α :=
  deps.foldl (fun m d => Function.update m d (m d ++ [x])) m

/-- The users of every node, in the order of `order`, one entry for each declared use. -/
def users (deps : α → List α) (order : List α) : α → List α :=
  order.foldl (fun m x => addUser m x (deps x)) fun _ => []

theorem count_addUser (m : α → List α) (x y d : α) (deps : List α) :
    (addUser m x deps d).count y = (m d).count y + if x = y then deps.count d else 0 := by
  induction deps generalizing m with
  | nil => simp [addUser]
  | cons e es ih =>
    have hstep : addUser m x (e :: es) = addUser (Function.update m e (m e ++ [x])) x es := rfl
    rw [hstep, ih]
    by_cases he : e = d
    · subst he
      by_cases hx : x = y
      · simp [hx]; omega
      · simp [hx]
    · simp [Function.update_of_ne (Ne.symm he), List.count_cons_of_ne he]

theorem count_users_aux (deps : α → List α) (order : List α) (m : α → List α) (y d : α) :
    (order.foldl (fun m x => addUser m x (deps x)) m d).count y =
      (m d).count y + order.count y * (deps y).count d := by
  induction order generalizing m with
  | nil => simp
  | cons x xs ih =>
    rw [List.foldl_cons, ih, count_addUser]
    by_cases hx : x = y
    · subst hx
      simp only [if_true, List.count_cons_self]
      rw [Nat.add_mul]; omega
    · simp [hx, List.count_cons_of_ne hx]

/-- A node occurs among the users of `d` as often as it declares `d`. -/
theorem count_users {order : List α} (hnd : order.Nodup) (deps : α → List α) (y d : α) :
    (users deps order d).count y = if y ∈ order then (deps y).count d else 0 := by
  rw [users, count_users_aux]
  by_cases hy : y ∈ order
  · simp [hy, List.count_eq_one_of_mem hnd hy]
  · simp [hy, List.count_eq_zero_of_not_mem hy]

theorem mem_users {order : List α} (hnd : order.Nodup) (deps : α → List α) (y d : α) :
    y ∈ users deps order d ↔ y ∈ order ∧ d ∈ deps y := by
  rw [← List.count_pos_iff, count_users hnd]
  by_cases hy : y ∈ order <;> simp [hy]

/-- Count off the listed uses one by one; a kept node whose counter reaches zero is released. -/
def release (dflt : ℤ) (keep : α → Bool) :
    List α → (α → Option ℤ) → (α → Option ℤ) × List α
  | [], c => (c, [])
  | k :: ks, c =>
    let left := (c k).getD dflt - 1
    let r := release dflt keep ks (Function.update c k (some left))
    (r.1, if left = 0 ∧ keep k then k :: r.2 else r.2)

theorem release_counter (dflt : ℤ) (keep : α → Bool) (ks : List α) {c : α → Option ℤ}
    {x : α} {n : ℤ} (hc : c x = some n) :
    (release dflt keep ks c).1 x = some (n - ks.count x) := by
  induction ks generalizing c n with
  | nil => simp [release, hc]
  | cons k ks ih =>
    simp only [release]
    by_cases hk : k = x
    · subst hk
      rw [ih (n := n - 1) (by simp [hc])]
      simp [List.count_cons_self]; ring
    · rw [ih (n := n) (by simp [Function.update_of_ne (Ne.symm hk), hc])]
      simp [List.count_cons_of_ne hk]

/-- A node is released at most once, namely when its counter passes from positive to zero. -/
theorem count_release (dflt : ℤ) (keep : α → Bool) (ks : List α) {c : α → Option ℤ}
    {x : α} {n : ℤ} (hc : c x = some n) :
    (release dflt keep ks c).2.count x =
      if keep x ∧ 0 < n ∧ n ≤ ks.count x then 1 else 0 := by
  induction ks generalizing c n with
  | nil =>
    have hno : ¬ (0 < n ∧ n ≤ 0) := by omega
    simp [release, hno]
  | cons k ks ih =>
    simp only [release]
    by_cases hk : k = x
    · subst hk
      have hrest := ih (c := Function.update c k (some (n - 1))) (n := n - 1) (by simp)
      simp only [hc, Option.getD_some, List.count_cons_self] at hrest ⊢
      by_cases hkeep : keep k = true
      · by_cases h1 : n - 1 = 0
        · obtain rfl : n = 1 := by omega
          have hzero : ¬ (0 : ℤ) < 1 - 1 := by omega
          rw [if_neg (fun h => hzero h.2.1)] at hrest
          simpa [hkeep] using hrest
        · simp only [h1, hkeep, false_and, if_false, hrest, true_and]
          congr 1
          apply propext
          constructor <;> intro h <;> constructor <;> push_cast at * <;> omega
      · simp [hkeep, hrest]
    · have hrest := ih (c := Function.update c k (some ((c k).getD dflt - 1))) (n := n)
        (by simp [Function.update_of_ne (Ne.symm hk), hc])
      rw [List.count_cons_of_ne hk]
      split_ifs at hrest ⊢ <;> simp_all [List.count_cons_of_ne]

theorem mem_release {dflt : ℤ} {keep : α → Bool} {ks : List α} {c : α → Option ℤ}
    {x : α} {n : ℤ} (hc : c x = some n) :
    x ∈ (release dflt keep ks c).2 ↔ keep x ∧ 0 < n ∧ n ≤ ks.count x := by
  rw [← List.count_pos_iff, count_release dflt keep ks hc]
  split_ifs with h <;> simp [h]

theorem release_subset (dflt : ℤ) (keep : α → Bool) (ks : List α) (c : α → Option ℤ) :
    (release dflt keep ks c).2 ⊆ ks := by
  induction ks generalizing c with
  | nil => simp [release]
  | cons k ks ih =>
    simp only [release]
    split_ifs
    · exact List.cons_subset_cons k (ih _)
    · exact fun x hx => List.mem_cons_of_mem k (ih _ hx)

theorem release_nodup (dflt : ℤ) (keep : α → Bool) (ks : List α) {c : α → Option ℤ}
    (hc : ∀ x ∈ ks, ∃ n, c x = some n) : (release dflt keep ks c).2.Nodup := by
  rw [List.nodup_iff_count_le_one]
  intro x
  by_cases hx : x ∈ ks
  · obtain ⟨n, hn⟩ := hc x hx
    rw [count_release dflt keep ks hn]
    split_ifs <;> omega
  · have hno : x ∉ (release dflt keep ks c).2 := fun h => hx (release_subset dflt keep ks c h)
    simp [List.count_eq_zero_of_not_mem hno]

/-- The declared uses of nodes that are not done yet. -/
def openUses (deps : α → List α) (done : α → Bool) (x : α) : ℕ :=
  (deps x).countP fun d => !done d

omit [DecidableEq α] in
theorem openUses_eq_zero {deps : α → List α} {done : α → Bool} {x : α} :
    openUses deps done x = 0 ↔ ∀ d ∈ deps x, done d = true := by
  simp [openUses, List.countP_eq_zero]

/-- Finishing `d` takes its uses off the open ones. -/
theorem openUses_finish {deps : α → List α} {done done' : α → Bool} {d : α}
    (hd : done d = false) (hdone : ∀ e, done' e = (done e || decide (e = d))) (x : α) :
    openUses deps done x = openUses deps done' x + (deps x).count d := by
  obtain rfl : done' = fun e => done e || decide (e = d) := funext hdone
  unfold openUses
  induction deps x with
  | nil => simp
  | cons e es ih =>
    simp only [Bool.not_or] at ih ⊢
    by_cases he : e = d
    · subst he
      rw [List.countP_cons_of_pos (by simp [hd]), List.countP_cons_of_neg (by simp),
        List.count_cons_self]
      omega
    · simp only [List.countP_cons, List.count_cons_of_ne he, he, decide_false, Bool.not_false,
        Bool.and_true]
      omega

end Countdown

/-! Kahn's topological sort on countdown counters. -/

namespace Countdown

variable {α : Type*}

/-- Every dependency stands to the left of its user. -/
inductive DepsBefore (deps : α → List α) : List α → Prop
  | nil : DepsBefore deps []
  | snoc {order : List α} {x : α} :
      DepsBefore deps order → (∀ d ∈ deps x, d ∈ order) → DepsBefore deps (order ++ [x])

theorem DepsBefore.closed {deps : α → List α} {order : List α} (h : DepsBefore deps order) :
    ∀ x ∈ order, ∀ d ∈ deps x, d ∈ order := by
  induction h with
  | nil => simp
  | snoc hbefore hx ih =>
    intro y hy d hd
    rcases List.mem_append.mp hy with hy | hy
    · exact List.mem_append_left _ (ih y hy d hd)
    · obtain rfl := List.mem_singleton.mp hy
      exact List.mem_append_left _ (hx d hd)

/-- The nodes, their dependencies and a rank that the dependencies lower. -/
structure Dag (ids : List α) (deps : α → List α) : Prop where
  nodup : ids.Nodup
  closed : ∀ x ∈ ids, ∀ d ∈ deps x, d ∈ ids
  ranked : ∃ rank : α → ℕ, ∀ x ∈ ids, ∀ d ∈ deps x, rank d < rank x

/-- A property that passes from the dependencies to their user holds of every node. -/
theorem Dag.induction {ids : List α} {deps : α → List α} (h : Dag ids deps) {P : α → Prop}
    (hP : ∀ x ∈ ids, (∀ d ∈ deps x, P d) → P x) : ∀ x ∈ ids, P x := by
  obtain ⟨rank, hrank⟩ := h.ranked
  intro x hx
  induction hn : rank x using Nat.strong_induction_on generalizing x with
  | _ n ih =>
    subst hn
    exact hP x hx fun d hd => ih (rank d) (hrank x hx d hd) d (h.closed x hx d hd) rfl

variable [DecidableEq α]

/-- Take the first ready node into the order and count off its users; the fuel is the
number of nodes that may still be taken. -/
def kahn (users : α → List α) :
    ℕ → (α → Option ℤ) → List α → List α → List α × (α → Option ℤ)
  | 0, c, _, order => (order, c)
  | _+1, c, [], order => (order, c)
  | n+1, c, x :: ready, order =>
    let r := release 0 (fun _ => true) (users x) c
    kahn users n r.1 (ready ++ r.2) (order ++ [x])

/-- The state of the loop between two rounds. -/
structure KahnInv (ids : List α) (deps : α → List α)
    (c : α → Option ℤ) (ready order : List α) : Prop where
  counter : ∀ x ∈ ids, c x = some (openUses deps (fun d => decide (d ∈ order)) x)
  nodup : (order ++ ready).Nodup
  subset : ∀ x ∈ order ++ ready, x ∈ ids
  ready_iff : ∀ x ∈ ids, x ∉ order → (x ∈ ready ↔ ∀ d ∈ deps x, d ∈ order)
  before : DepsBefore deps order

theorem KahnInv.step {ids : List α} {deps : α → List α} {c : α → Option ℤ}
    {x : α} {ready order : List α} {order₀ : List α}
    (hperm : ∀ y, y ∈ order₀ ↔ y ∈ ids) (hnd₀ : order₀.Nodup)
    (h : KahnInv ids deps c (x :: ready) order) :
    KahnInv ids deps (release 0 (fun _ => true) (users deps order₀ x) c).1
      (ready ++ (release 0 (fun _ => true) (users deps order₀ x) c).2) (order ++ [x]) := by
  have hx : x ∈ ids := h.subset x (by simp)
  have hxo : x ∉ order := fun hm => by
    have := List.disjoint_of_nodup_append h.nodup hm
    simp at this
  have hdeps : ∀ d ∈ deps x, d ∈ order := (h.ready_iff x hx hxo).mp (by simp)
  have hcount : ∀ y ∈ ids, (users deps order₀ x).count y = (deps y).count x := fun y hy => by
    rw [count_users hnd₀, if_pos ((hperm y).mpr hy)]
  have hopen : ∀ y, openUses deps (fun d => decide (d ∈ order)) y =
      openUses deps (fun d => decide (d ∈ order ++ [x])) y + (deps y).count x :=
    openUses_finish (by simpa using hxo) (by simp)
  have hrel : ∀ y ∈ ids, y ∈ (release 0 (fun _ => true) (users deps order₀ x) c).2 ↔
      x ∈ deps y ∧ ∀ d ∈ deps y, d ∈ order ++ [x] := by
    intro y hy
    have hzero : openUses deps (fun d => decide (d ∈ order ++ [x])) y = 0 ↔ _ := openUses_eq_zero
    simp only [decide_eq_true_eq] at hzero
    rw [mem_release (h.counter y hy), hcount y hy, hopen y, ← hzero,
      ← List.count_pos_iff (a := x) (l := deps y)]
    simp only [true_and]
    omega
  have hsub : ∀ y ∈ (release 0 (fun _ => true) (users deps order₀ x) c).2, y ∈ ids := by
    intro y hy
    have hmem := release_subset _ _ _ _ hy
    rw [mem_users hnd₀] at hmem
    exact (hperm y).mp hmem.1
  refine ⟨?_, ?_, ?_, ?_, h.before.snoc hdeps⟩
  · intro y hy
    rw [release_counter 0 (fun _ => true) _ (h.counter y hy), hcount y hy, hopen y]
    congr 1
    push_cast
    ring
  · -- a released node still had the open use of `x`, so it was neither ordered nor ready
    have hfresh : ∀ y ∈ (release 0 (fun _ => true) (users deps order₀ x) c).2,
        y ∉ order ++ x :: ready := by
      intro y hy hmem
      obtain ⟨hxy, -⟩ := (hrel y (hsub y hy)).mp hy
      have hall : ∀ d ∈ deps y, d ∈ order := by
        rcases List.mem_append.mp hmem with hmem | hmem
        · exact h.before.closed y hmem
        · have hyo : y ∉ order := fun hm =>
            (List.disjoint_of_nodup_append h.nodup hm) hmem
          exact (h.ready_iff y (hsub y hy) hyo).mp hmem
      exact hxo (hall x hxy)
    have hnd : (order ++ [x] ++ ready).Nodup := by simpa using h.nodup
    rw [← List.append_assoc, List.nodup_append]
    refine ⟨hnd, release_nodup _ _ _ ?_, ?_⟩
    · intro y hy
      rw [mem_users hnd₀] at hy
      exact ⟨_, h.counter y ((hperm y).mp hy.1)⟩
    · intro y hy z hz hyz
      subst hyz
      exact hfresh y hz (by simpa using hy)
  · intro y hy
    rw [← List.append_assoc, List.mem_append] at hy
    rcases hy with hy | hy
    · exact h.subset y (by simpa using hy)
    · exact hsub y hy
  · intro y hy hyo
    simp only [List.mem_append, List.mem_singleton, not_or] at hyo
    have hold := h.ready_iff y hy hyo.1
    rw [List.mem_append, hrel y hy]
    simp only [List.mem_cons, hyo.2, false_or] at hold
    constructor
    · rintro (hr | ⟨-, hall⟩)
      · exact fun d hd => List.mem_append_left _ (hold.mp hr d hd)
      · exact hall
    · intro hall
      by_cases hxy : x ∈ deps y
      · exact Or.inr ⟨hxy, hall⟩
      · refine Or.inl (hold.mpr fun d hd => ?_)
        rcases List.mem_append.mp (hall d hd) with hm | hm
        · exact hm
        · obtain rfl : d = x := by simpa using hm
          exact absurd hd hxy

theorem kahn_inv {ids : List α} {deps : α → List α} {order₀ : List α}
    (hperm : ∀ y, y ∈ order₀ ↔ y ∈ ids) (hnd₀ : order₀.Nodup) :
    ∀ (n : ℕ) (c : α → Option ℤ) (ready order : List α),
      KahnInv ids deps c ready order → ids.length ≤ n + order.length →
      ∃ c', KahnInv ids deps c' [] (kahn (users deps order₀) n c ready order).1
  | 0, c, ready, order, h, hlen => by
    have hle := (List.subperm_of_subset h.nodup h.subset).length_le
    have hr : ready = [] := by
      rw [List.length_append] at hle
      exact List.length_eq_zero_iff.mp (by omega)
    subst hr
    exact ⟨c, h⟩
  | _+1, c, [], order, h, _ => ⟨c, h⟩
  | n+1, c, x :: ready, order, h, hlen =>
    kahn_inv hperm hnd₀ n _ _ _ (h.step hperm hnd₀) (by simp; omega)

/-- On an acyclic relation Kahn's loop orders every node, dependencies first. -/
theorem kahn_order {ids : List α} {deps : α → List α} (hdag : Dag ids deps)
    {c : α → Option ℤ} (hc : ∀ x ∈ ids, c x = some (deps x).length) :
    let order := (kahn (users deps ids) ids.length c
      (ids.filter fun x => decide (c x = some 0)) []).1
    order.Perm ids ∧ DepsBefore deps order := by
  have hopen : ∀ x, openUses deps (fun d => decide (d ∈ ([] : List α))) x = (deps x).length :=
    fun x => by simp [openUses]
  have hinit : KahnInv ids deps c (ids.filter fun x => decide (c x = some 0)) [] := by
    refine ⟨fun x hx => by rw [hc x hx, hopen], ?_, ?_, ?_, DepsBefore.nil⟩
    · simpa using hdag.nodup.filter _
    · intro x hx
      simp only [List.nil_append, List.mem_filter] at hx
      exact hx.1
    · intro x hx _
      simp [hx, hc x hx, List.eq_nil_iff_forall_not_mem]
  obtain ⟨c', hfin⟩ := kahn_inv (fun y => Iff.rfl) hdag.nodup ids.length c _ [] hinit
    (by simp)
  have hall : ∀ x ∈ ids, x ∈ (kahn (users deps ids) ids.length c
      (ids.filter fun x => decide (c x = some 0)) []).1 := by
    refine hdag.induction fun x hx ih => ?_
    by_contra hno
    simpa using (hfin.ready_iff x hx hno).mpr ih
  have hnd := hfin.nodup
  have hsub := hfin.subset
  rw [List.append_nil] at hnd hsub
  exact ⟨(List.perm_ext_iff_of_nodup hnd hdag.nodup).mpr fun x => ⟨hsub x, hall x⟩, hfin.before⟩

end Countdown
end Batiste
