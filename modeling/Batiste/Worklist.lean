import Mathlib.Tactic

/-! Depth-first closure of a finite relation with an explicit stack.
The loop pops a node, drops it when it was seen before, and otherwise visits it and pushes
its successors; its result is the list of visited nodes in visiting order. -/
namespace Batiste
namespace Worklist

variable {α : Type*} [DecidableEq α]

/-- The top of the stack is the head of the list; the fuel counts pops. -/
def visit (succ : α → List α) : ℕ → List α → List α → List α
  | 0, _, _ => []
  | _+1, [], _ => []
  | n+1, x :: stack, seen =>
    if x ∈ seen then visit succ n stack seen
    else x :: visit succ n ((succ x).reverse ++ stack) (x :: seen)

/-- The successors that visits of unseen nodes may still push. -/
def weight (succ : α → List α) (nodes seen : List α) : ℕ :=
  (nodes.map fun x => if x ∈ seen then 0 else (succ x).length).sum

theorem weight_le (succ : α → List α) (nodes seen : List α) :
    weight succ nodes seen ≤ (nodes.map fun x => (succ x).length).sum := by
  unfold weight
  apply List.sum_le_sum
  intro x _
  split <;> simp

theorem weight_cons_of_notMem (succ : α → List α) {nodes : List α} {x : α} (seen : List α)
    (hx : x ∉ nodes) : weight succ nodes (x :: seen) = weight succ nodes seen := by
  unfold weight
  congr 1
  apply List.map_congr_left
  intro y hy
  have hne : y ≠ x := fun h => hx (h ▸ hy)
  simp [hne]

/-- Visiting a node spends exactly its successors. -/
theorem weight_visit (succ : α → List α) {nodes seen : List α} {x : α} (hnd : nodes.Nodup)
    (hx : x ∈ nodes) (hs : x ∉ seen) :
    weight succ nodes seen = weight succ nodes (x :: seen) + (succ x).length := by
  induction nodes with
  | nil => simp at hx
  | cons y ys ih =>
    obtain ⟨hy, hys⟩ := List.nodup_cons.mp hnd
    by_cases hxy : x = y
    · subst hxy
      have hrest := weight_cons_of_notMem succ seen hy
      simp only [weight, List.map_cons, List.sum_cons, hs, if_false, List.mem_cons, true_or,
        if_true] at hrest ⊢
      omega
    · have hmem : x ∈ ys := by simpa [hxy] using hx
      have hrest := ih hys hmem
      simp only [weight, List.map_cons, List.sum_cons, List.mem_cons, Ne.symm hxy,
        false_or] at hrest ⊢
      omega

theorem visit_fresh (succ : α → List α) (n : ℕ) (stack seen : List α) :
    (visit succ n stack seen).Nodup ∧ ∀ x ∈ visit succ n stack seen, x ∉ seen := by
  fun_induction visit succ n stack seen with
  | case1 => simp
  | case2 => simp
  | case3 n x stack seen hx ih => exact ih
  | case4 n x stack seen hx ih =>
    refine ⟨List.nodup_cons.mpr ⟨fun h => by simpa using ih.2 x h, ih.1⟩, ?_⟩
    intro y hy
    rcases List.mem_cons.mp hy with rfl | hy
    · exact hx
    · exact fun hs => ih.2 y hy (List.mem_cons_of_mem x hs)

/-- Every visited node is reached from the stack. -/
theorem visit_sound (succ : α → List α) (n : ℕ) (stack seen : List α) :
    ∀ x ∈ visit succ n stack seen,
      ∃ s ∈ stack, Relation.ReflTransGen (fun a b => b ∈ succ a) s x := by
  fun_induction visit succ n stack seen with
  | case1 => simp
  | case2 => simp
  | case3 n x stack seen hx ih =>
    intro y hy
    obtain ⟨s, hs, hr⟩ := ih y hy
    exact ⟨s, List.mem_cons_of_mem x hs, hr⟩
  | case4 n x stack seen hx ih =>
    intro y hy
    rcases List.mem_cons.mp hy with rfl | hy
    · exact ⟨y, by simp, .refl⟩
    · obtain ⟨s, hs, hr⟩ := ih y hy
      rcases List.mem_append.mp hs with hs | hs
      · exact ⟨x, by simp, .head (List.mem_reverse.mp hs) hr⟩
      · exact ⟨s, List.mem_cons_of_mem x hs, hr⟩

/-- A visited node stood on the stack at the start or was pushed by a visited node. -/
theorem visit_pushed (succ : α → List α) (n : ℕ) (stack seen : List α) :
    ∀ x ∈ visit succ n stack seen, x ∈ stack ∨ ∃ y ∈ visit succ n stack seen, x ∈ succ y := by
  fun_induction visit succ n stack seen with
  | case1 => simp
  | case2 => simp
  | case3 n x stack seen hx ih =>
    intro y hy
    exact (ih y hy).imp_left (List.mem_cons_of_mem x)
  | case4 n x stack seen hx ih =>
    intro y hy
    rcases List.mem_cons.mp hy with rfl | hy
    · exact Or.inl (by simp)
    · rcases ih y hy with hs | ⟨z, hz, hyz⟩
      · rcases List.mem_append.mp hs with hs | hs
        · exact Or.inr ⟨x, by simp, List.mem_reverse.mp hs⟩
        · exact Or.inl (List.mem_cons_of_mem x hs)
      · exact Or.inr ⟨z, List.mem_cons_of_mem x hz, hyz⟩

/-- With enough fuel the stack is used up: it is visited, and visited nodes push all their
successors. -/
theorem visit_complete (succ : α → List α) {nodes : List α} (hnd : nodes.Nodup)
    (hcl : ∀ x ∈ nodes, ∀ y ∈ succ x, y ∈ nodes) (n : ℕ) (stack seen : List α)
    (hst : ∀ x ∈ stack, x ∈ nodes) (hn : stack.length + weight succ nodes seen ≤ n) :
    (∀ x ∈ stack, x ∈ seen ∨ x ∈ visit succ n stack seen) ∧
      ∀ x ∈ visit succ n stack seen, ∀ y ∈ succ x, y ∈ seen ∨ y ∈ visit succ n stack seen := by
  fun_induction visit succ n stack seen with
  | case1 stack seen =>
    have hnil : stack = [] := List.length_eq_zero_iff.mp (by omega)
    simp [hnil]
  | case2 => simp
  | case3 n x stack seen hx ih =>
    obtain ⟨hstack, hsucc⟩ := ih (fun y hy => hst y (List.mem_cons_of_mem x hy))
      (by simp only [List.length_cons] at hn; omega)
    refine ⟨?_, hsucc⟩
    intro y hy
    rcases List.mem_cons.mp hy with rfl | hy
    · exact Or.inl hx
    · exact hstack y hy
  | case4 n x stack seen hx ih =>
    have hxn : x ∈ nodes := hst x (by simp)
    have hw := weight_visit succ hnd hxn hx
    obtain ⟨hstack, hsucc⟩ := ih
      (fun y hy => by
        rcases List.mem_append.mp hy with hy | hy
        · exact hcl x hxn y (List.mem_reverse.mp hy)
        · exact hst y (List.mem_cons_of_mem x hy))
      (by simp only [List.length_append, List.length_reverse, List.length_cons] at hn ⊢; omega)
    have hmove : ∀ y, y ∈ x :: seen ∨ y ∈ visit succ n ((succ x).reverse ++ stack) (x :: seen) →
        y ∈ seen ∨ y ∈ x :: visit succ n ((succ x).reverse ++ stack) (x :: seen) := by
      intro y hy
      simp only [List.mem_cons] at hy ⊢
      tauto
    refine ⟨?_, ?_⟩
    · intro y hy
      rcases List.mem_cons.mp hy with rfl | hy
      · exact Or.inr (by simp)
      · exact hmove y (hstack y (by simp [hy]))
    · intro y hy z hz
      rcases List.mem_cons.mp hy with rfl | hy
      · exact hmove z (hstack z (by simp [hz]))
      · exact hmove z (hsucc y hy z hz)

end Worklist
end Batiste
