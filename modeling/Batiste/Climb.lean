import Mathlib.Tactic

/-! The fold that moves on to the next element whenever it is above the one it holds. -/
namespace Batiste
namespace Climb

variable {α : Type*} (le : α → α → Bool)

def climb (a : α) (xs : List α) : α := xs.foldl (fun acc x => if le acc x then x else acc) a

variable {le} {a : α} {xs : List α}

@[simp] theorem climb_nil : climb le a [] = a := rfl

theorem climb_cons (x : α) :
    climb le a (x :: xs) = climb le (if le a x then x else a) xs := rfl

theorem climb_mem : climb le a xs ∈ a :: xs := by
  induction xs generalizing a with
  | nil => exact List.mem_singleton_self a
  | cons x xs ih =>
    rw [climb_cons]
    split
    · exact List.mem_cons_of_mem a ih
    · rcases List.mem_cons.mp (ih (a := a)) with h | h
      · exact List.mem_cons.mpr (.inl h)
      · exact List.mem_cons_of_mem a (List.mem_cons_of_mem x h)

/-- What holds of all elements holds of those that are left after a step. -/
theorem forall_mem_step {P : α → Prop} {x : α} (h : ∀ y ∈ a :: x :: xs, P y) :
    ∀ y ∈ (if le a x then x else a) :: xs, P y := by
  have hrest := (List.forall_mem_cons.mp h).2
  rw [List.forall_mem_cons]
  refine ⟨?_, (List.forall_mem_cons.mp hrest).2⟩
  split
  · exact hrest x List.mem_cons_self
  · exact h a List.mem_cons_self

variable (trans : ∀ x y z, le x y = true → le y z = true → le x z = true)
include trans

/-- Every step goes up. -/
theorem le_climb (refl : ∀ x ∈ a :: xs, le x x = true) : le a (climb le a xs) = true := by
  induction xs generalizing a with
  | nil => exact refl a List.mem_cons_self
  | cons x xs ih =>
    have hstep := ih (a := if le a x then x else a) (forall_mem_step refl)
    rw [climb_cons]
    split
    · rename_i hup
      rw [if_pos hup] at hstep
      exact trans a x _ hup hstep
    · rename_i hup
      rwa [if_neg hup] at hstep

/-- Whatever stands above all that is met is not left below. -/
theorem greatest_le_climb (refl : ∀ x ∈ a :: xs, le x x = true) {g : α} (hg : g ∈ a :: xs)
    (habove : ∀ x ∈ a :: xs, le x g = true) : le g (climb le a xs) = true := by
  induction xs generalizing a with
  | nil =>
    rw [List.mem_singleton.mp hg]
    exact refl a List.mem_cons_self
  | cons x xs ih =>
    rcases List.mem_cons.mp hg with rfl | hg
    · exact le_climb trans refl
    · rw [climb_cons]
      refine ih (forall_mem_step refl) ?_ (forall_mem_step habove)
      rcases List.mem_cons.mp hg with rfl | hg
      · rw [if_pos (habove a List.mem_cons_self)]
        exact List.mem_cons_self
      · exact List.mem_cons_of_mem _ hg

/-- The fold ends above all just when one of the elements stands there. -/
theorem climb_above_iff (refl : ∀ x ∈ a :: xs, le x x = true) :
    (∀ x ∈ a :: xs, le x (climb le a xs) = true) ↔
      ∃ g ∈ a :: xs, ∀ x ∈ a :: xs, le x g = true := by
  constructor
  · exact fun h => ⟨climb le a xs, climb_mem, h⟩
  · rintro ⟨g, hg, habove⟩ x hx
    exact trans x g _ (habove x hx) (greatest_le_climb trans refl hg habove)

end Climb
end Batiste
