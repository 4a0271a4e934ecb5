import Mathlib.Tactic
import Mathlib.Data.List.Sort

/-! One pass over intervals in order of their first points, which takes an interval into the one
before it when it begins close enough to that one's last point. -/
namespace Batiste
namespace Sweep

/-- Items with a first and a last point, what is close to a last point, and how an item takes in
another. -/
structure Joining (Line α : Type*) [LinearOrder Line] where
  first : α → Line
  last : α → Line
  close : Line → Line → Bool
  absorb : α → α → α
  close_mono : ∀ {e e' s s' : Line}, e ≤ e' → s' ≤ s → close e s = true → close e' s' = true
  first_absorb : ∀ a b, first (absorb a b) = first a
  last_absorb : ∀ a b, last (absorb a b) = max (last a) (last b)

namespace Joining

variable {Line α : Type*} [LinearOrder Line] (J : Joining Line α)

def joins (a b : α) : Bool := J.close (J.last a) (J.first b)

/-- The pass, with the item that is still open. -/
def runFrom (cur : α) : List α → List α
  | [] => [cur]
  | x :: xs => if J.joins cur x then runFrom (J.absorb cur x) xs else cur :: runFrom x xs

def run : List α → List α
  | [] => []
  | x :: xs => J.runFrom x xs

/-- By first point, then by last point. -/
def Before (a b : α) : Prop :=
  J.first a < J.first b ∨ J.first a = J.first b ∧ J.last a ≤ J.last b

instance : DecidableRel J.Before := fun a b => by
  unfold Before
  exact inferInstance

instance : Std.Total J.Before where
  total a b := by
    unfold Before
    rcases lt_trichotomy (J.first a) (J.first b) with h | h | h
    · exact .inl (.inl h)
    · exact (le_total (J.last a) (J.last b)).imp (fun hle => .inr ⟨h, hle⟩)
        fun hle => .inr ⟨h.symm, hle⟩
    · exact .inr (.inl h)

instance : IsTrans α J.Before where
  trans a b c := by
    unfold Before
    rintro (hab | ⟨hab, hab'⟩) (hbc | ⟨hbc, hbc'⟩)
    · exact .inl (hab.trans hbc)
    · exact .inl (hbc ▸ hab)
    · exact .inl (hab ▸ hbc)
    · exact .inr ⟨hab.trans hbc, hab'.trans hbc'⟩

variable {J}

theorem Before.first_le {a b : α} (h : J.Before a b) : J.first a ≤ J.first b := by
  rcases h with h | h
  · exact h.le
  · exact h.1.le

@[simp] theorem joins_absorb_iff {a b c : α} :
    J.joins (J.absorb a b) c = J.close (max (J.last a) (J.last b)) (J.first c) := by
  rw [joins, J.last_absorb]

theorem joins_absorb {a b c : α} (h : J.joins a c = true) : J.joins (J.absorb a b) c = true := by
  rw [joins_absorb_iff]
  exact J.close_mono (le_max_left _ _) le_rfl h

theorem Before.eq_of {a b : α} (hab : J.Before a b) (hba : J.Before b a) :
    J.first a = J.first b ∧ J.last a = J.last b := by
  unfold Before at hab hba
  rcases hab with hab | ⟨hfirst, hab⟩
  · exact absurd hba (by simp [hab.not_gt, hab.ne'])
  · rcases hba with hba | ⟨-, hba⟩
    · exact absurd hfirst hba.ne'
    · exact ⟨hfirst, le_antisymm hab hba⟩

/-! ## The items that went into one -/

theorem exists_of_forall₂ {β γ : Type*} {r : β → γ → Prop} {xs : List β} {ys : List γ}
    (h : List.Forall₂ r xs ys) {x : β} (hx : x ∈ xs) : ∃ y ∈ ys, r x y := by
  induction h with
  | nil => exact absurd hx List.not_mem_nil
  | cons hr _ ih =>
    rcases List.mem_cons.mp hx with rfl | hx
    · exact ⟨_, List.mem_cons_self, hr⟩
    · obtain ⟨y, hy, hxy⟩ := ih hx
      exact ⟨y, List.mem_cons_of_mem _ hy, hxy⟩

theorem forall₂_imp_of_mem {β γ : Type*} {r s : β → γ → Prop} {xs : List β} {ys : List γ}
    (h : List.Forall₂ r xs ys) (himp : ∀ x ∈ xs, ∀ y, r x y → s x y) : List.Forall₂ s xs ys := by
  induction h with
  | nil => exact .nil
  | cons hr _ ih =>
    rw [List.forall_mem_cons] at himp
    exact .cons (himp.1 _ hr) (ih himp.2)

/-- The items of the list have been taken, in order, into the item. -/
inductive Merged (J : Joining Line α) : List α → α → Prop
  | one (x : α) : Merged J [x] x
  | snoc {xs : List α} {a x : α} : Merged J xs a → J.joins a x = true →
      Merged J (xs ++ [x]) (J.absorb a x)

theorem runFrom_merged {cur : α} {before : List α} (hcur : Merged J before cur) (xs : List α) :
    ∃ groups, groups.flatten = before ++ xs ∧ List.Forall₂ (Merged J) groups (J.runFrom cur xs) := by
  induction xs generalizing cur before with
  | nil => exact ⟨[before], by simp, .cons hcur .nil⟩
  | cons x xs ih =>
    rw [runFrom]
    split
    case isTrue hjoin =>
      obtain ⟨groups, hflat, hgroups⟩ := ih (hcur.snoc hjoin)
      exact ⟨groups, by simpa using hflat, hgroups⟩
    case isFalse =>
      obtain ⟨groups, hflat, hgroups⟩ := ih (.one x)
      exact ⟨before :: groups, by simp [hflat], .cons hcur hgroups⟩

/-- The list falls into consecutive groups, one for each item of the result. -/
theorem run_merged (xs : List α) :
    ∃ groups, groups.flatten = xs ∧ List.Forall₂ (Merged J) groups (J.run xs) := by
  cases xs with
  | nil => exact ⟨[], rfl, .nil⟩
  | cons x xs => exact runFrom_merged (.one x) xs

theorem Merged.ne_nil {xs : List α} {a : α} (h : Merged J xs a) : xs ≠ [] := by
  cases h <;> simp

theorem Merged.first_eq {xs : List α} {a : α} (h : Merged J xs a) (hne : xs ≠ []) :
    J.first a = J.first (xs.head hne) := by
  induction h with
  | one x => rfl
  | snoc hmerged _ ih => rw [J.first_absorb, ih hmerged.ne_nil, List.head_append_of_ne_nil]

theorem Merged.last_le {xs : List α} {a : α} (h : Merged J xs a) :
    ∀ x ∈ xs, J.last x ≤ J.last a := by
  induction h with
  | one x => simp
  | snoc _ _ ih =>
    intro y hy
    rw [J.last_absorb]
    rcases List.mem_append.mp hy with hy | hy
    · exact (ih y hy).trans (le_max_left _ _)
    · rw [List.mem_singleton.mp hy]
      exact le_max_right _ _

theorem Merged.exists_last {xs : List α} {a : α} (h : Merged J xs a) :
    ∃ x ∈ xs, J.last x = J.last a := by
  induction h with
  | one x => exact ⟨x, by simp, rfl⟩
  | snoc _ _ ih =>
    rename_i xs a y _ _
    obtain ⟨x, hx, hlast⟩ := ih
    rw [J.last_absorb]
    rcases le_total (J.last a) (J.last y) with hle | hle
    · exact ⟨y, by simp, (max_eq_right hle).symm⟩
    · exact ⟨x, List.mem_append_left _ hx, by rw [hlast, max_eq_left hle]⟩

/-- Each item but the first begins close to the last point of an earlier one. -/
theorem Merged.chained {xs : List α} {a : α} (h : Merged J xs a) {front back : List α} {x : α}
    (hxs : xs = front ++ x :: back) (hfront : front ≠ []) : ∃ y ∈ front, J.joins y x = true := by
  induction h generalizing back with
  | one z =>
    cases front with
    | nil => exact absurd rfl hfront
    | cons y front => simp at hxs
  | snoc hmerged hjoin ih =>
    rename_i xs a z
    rcases List.eq_nil_or_concat back with rfl | ⟨back, w, rfl⟩
    · obtain ⟨rfl, hz⟩ := List.append_inj' hxs rfl
      obtain rfl := List.singleton_inj.mp hz
      obtain ⟨y, hy, hlast⟩ := hmerged.exists_last
      exact ⟨y, hy, by rwa [joins, hlast]⟩
    · have hsplit : xs ++ [z] = (front ++ x :: back) ++ [w] := by simpa using hxs
      exact ih (List.append_inj' hsplit rfl).1

theorem Merged.first_le {xs : List α} {a : α} (h : Merged J xs a)
    (hsorted : xs.Pairwise J.Before) : ∀ x ∈ xs, J.first a ≤ J.first x := by
  intro x hx
  rw [h.first_eq h.ne_nil]
  cases xs with
  | nil => exact absurd hx List.not_mem_nil
  | cons y ys =>
    rcases List.mem_cons.mp hx with rfl | hx
    · exact le_rfl
    · exact (List.rel_of_pairwise_cons hsorted hx).first_le

/-! ## The items of the result -/

theorem Before.absorb_right {a b : α} (h : J.Before a b) (x : α) : J.Before a (J.absorb b x) := by
  unfold Before at h ⊢
  rw [J.first_absorb, J.last_absorb]
  exact h.imp_right fun h => ⟨h.1, h.2.trans (le_max_left _ _)⟩

theorem Before.absorb_left {a b x : α} (h : J.Before a b) (hax : J.Before a x)
    (hxb : J.Before x b) : J.Before (J.absorb a x) b := by
  unfold Before at *
  rw [J.first_absorb, J.last_absorb]
  rcases h with h | ⟨hfirst, hlast⟩
  · exact .inl h
  · refine .inr ⟨hfirst, max_le hlast ?_⟩
    rcases hxb with hxb | hxb
    · rw [← hfirst] at hxb
      exact absurd hax (by simp [hxb.not_gt, hxb.ne'])
    · exact hxb.2

theorem before_of_mem_runFrom {cur c : α} {xs : List α} (hcur : J.Before c cur)
    (hxs : ∀ x ∈ xs, J.Before c x) {a : α} (ha : a ∈ J.runFrom cur xs) : J.Before c a := by
  induction xs generalizing cur with
  | nil => rwa [List.mem_singleton.mp ha]
  | cons x xs ih =>
    rw [List.forall_mem_cons] at hxs
    rw [runFrom] at ha
    split at ha
    case isTrue => exact ih (hcur.absorb_right x) hxs.2 ha
    case isFalse =>
      rcases List.mem_cons.mp ha with rfl | ha
      · exact hcur
      · exact ih hxs.1 hxs.2 ha

theorem runFrom_before {cur : α} {xs : List α} (h : (cur :: xs).Pairwise J.Before) :
    (J.runFrom cur xs).Pairwise J.Before := by
  induction xs generalizing cur with
  | nil => exact List.pairwise_singleton _ _
  | cons x xs ih =>
    obtain ⟨hcur, hsorted⟩ := List.pairwise_cons.mp h
    rw [List.forall_mem_cons] at hcur
    obtain ⟨hx, hrest⟩ := List.pairwise_cons.mp hsorted
    rw [runFrom]
    split
    case isTrue =>
      refine ih (List.pairwise_cons.mpr ⟨fun y hy => ?_, hrest⟩)
      exact (hcur.2 y hy).absorb_left hcur.1 (hx y hy)
    case isFalse =>
      exact List.pairwise_cons.mpr
        ⟨fun a ha => before_of_mem_runFrom hcur.1 hcur.2 ha, ih hsorted⟩

/-- The result is in order again. -/
theorem run_before {xs : List α} (h : xs.Pairwise J.Before) : (J.run xs).Pairwise J.Before := by
  cases xs with
  | nil => exact List.Pairwise.nil
  | cons x xs => exact runFrom_before h

theorem runFrom_separated {cur : α} {xs : List α} (hsorted : xs.Pairwise J.Before) :
    (J.runFrom cur xs).Pairwise fun a b => J.joins a b = false := by
  induction xs generalizing cur with
  | nil => exact List.pairwise_singleton _ _
  | cons x xs ih =>
    obtain ⟨hx, hrest⟩ := List.pairwise_cons.mp hsorted
    rw [runFrom]
    split
    case isTrue => exact ih hrest
    case isFalse happart =>
      refine List.pairwise_cons.mpr ⟨fun b hb => ?_, ih hrest⟩
      have hfirst := (before_of_mem_runFrom (refl_of J.Before x) hx hb).first_le
      rw [Bool.eq_false_iff]
      exact fun hjoin => happart (J.close_mono le_rfl hfirst hjoin)

/-- No item of the result begins close to the last point of an earlier one. -/
theorem run_separated {xs : List α} (hsorted : xs.Pairwise J.Before) :
    (J.run xs).Pairwise fun a b => J.joins a b = false := by
  cases xs with
  | nil => exact List.Pairwise.nil
  | cons x xs => exact runFrom_separated hsorted.of_cons

theorem runFrom_eq_self {cur : α} {xs : List α}
    (h : (cur :: xs).Pairwise fun a b => J.joins a b = false) : J.runFrom cur xs = cur :: xs := by
  induction xs generalizing cur with
  | nil => rfl
  | cons x xs ih =>
    have hx := List.rel_of_pairwise_cons h List.mem_cons_self
    rw [runFrom, if_neg (by simp [hx]), ih h.of_cons]

/-- The pass leaves items that are separated as they are. -/
theorem run_eq_self {xs : List α} (h : xs.Pairwise fun a b => J.joins a b = false) :
    J.run xs = xs := by
  cases xs with
  | nil => rfl
  | cons x xs => exact runFrom_eq_self h

/-! ## Where an item lies -/

/-- The interval of the first item lies in that of the second. -/
def Within (J : Joining Line α) (x a : α) : Prop := J.first a ≤ J.first x ∧ J.last x ≤ J.last a

instance : DecidableRel J.Within := fun x a => by
  unfold Within
  exact inferInstance

/-- Where whatever begins no later than a last point is close to it, no two separated items hold one
interval. -/
theorem countP_within_le_one {xs : List α} (h : xs.Pairwise fun a b => J.joins a b = false)
    (hclose : ∀ e s, s ≤ e → J.close e s = true) {x : α} (hx : J.first x ≤ J.last x) :
    xs.countP (fun a => J.Within x a) ≤ 1 := by
  induction xs with
  | nil => simp
  | cons a xs ih =>
    obtain ⟨ha, hrest⟩ := List.pairwise_cons.mp h
    rw [List.countP_cons]
    split
    case isTrue hin =>
      have hin := of_decide_eq_true hin
      have hnone : xs.countP (fun b => J.Within x b) = 0 := by
        rw [List.countP_eq_zero]
        intro b hb hin'
        have hin' := of_decide_eq_true hin'
        have hjoin := hclose (J.last a) (J.first b) (hin'.1.trans (hx.trans hin.2))
        exact absurd hjoin (by simpa [joins] using ha b hb)
      omega
    case isFalse => exact ih hrest

/-! ## Another kind of items -/

/-- Items of one kind seen as items of another. -/
structure Sees {β : Type*} (J : Joining Line α) (K : Joining Line β) (f : α → β) : Prop where
  first : ∀ a, K.first (f a) = J.first a
  last : ∀ a, K.last (f a) = J.last a
  close : K.close = J.close
  absorb : ∀ a b, f (J.absorb a b) = K.absorb (f a) (f b)

section Sees

variable {β : Type*} {K : Joining Line β} {f : α → β}

theorem Sees.joins (h : Sees J K f) (a b : α) : K.joins (f a) (f b) = J.joins a b := by
  rw [Joining.joins, Joining.joins, h.first, h.last, h.close]

theorem Sees.runFrom (h : Sees J K f) (cur : α) (xs : List α) :
    (J.runFrom cur xs).map f = K.runFrom (f cur) (xs.map f) := by
  induction xs generalizing cur with
  | nil => rfl
  | cons x xs ih =>
    rw [Joining.runFrom, List.map_cons, Joining.runFrom, h.joins]
    split
    · rw [ih, h.absorb]
    · rw [List.map_cons, ih]

theorem Sees.run (h : Sees J K f) (xs : List α) : (J.run xs).map f = K.run (xs.map f) := by
  cases xs with
  | nil => rfl
  | cons x xs => exact h.runFrom x xs

theorem Sees.before (h : Sees J K f) {a b : α} : K.Before (f a) (f b) ↔ J.Before a b := by
  rw [Before, Before, h.first, h.first, h.last, h.last]

end Sees

/-! ## The order of items with one interval -/

/-- It does not matter which of two items is taken in first. -/
structure Commutes (J : Joining Line α) : Prop where
  absorb_absorb : ∀ a b c, J.absorb (J.absorb a b) c = J.absorb (J.absorb a c) b
  absorb_comm : ∀ a b, J.first a = J.first b → J.last a = J.last b → J.absorb a b = J.absorb b a

section Commutes

variable (hJ : Commutes J)

include hJ

theorem run_swap {x y : α} {xs : List α} (hfirst : J.first x = J.first y)
    (hlast : J.last x = J.last y) (hxs : ∀ z ∈ xs, J.first x ≤ J.first z) :
    (J.run (x :: y :: xs)).Perm (J.run (y :: x :: xs)) := by
  have hjoins : J.joins x y = J.joins y x := by rw [joins, joins, hfirst, hlast]
  show (J.runFrom x (y :: xs)).Perm (J.runFrom y (x :: xs))
  rw [runFrom, runFrom, hjoins]
  split
  case isTrue => rw [hJ.absorb_comm x y hfirst hlast]
  case isFalse happart =>
    cases xs with
    | nil => exact List.Perm.swap y x []
    | cons z xs =>
      -- what does not join its like joins nothing that begins later
      have hz : ∀ a, J.last a = J.last x → ¬ J.joins a z = true := by
        intro a ha hjoin
        refine happart ?_
        rw [joins, ha] at hjoin
        rw [joins, ← hlast]
        exact J.close_mono le_rfl (hxs z List.mem_cons_self) hjoin
      rw [runFrom, runFrom, if_neg (hz y hlast.symm), if_neg (hz x rfl)]
      exact List.Perm.swap y x _

theorem runFrom_swap (cur : α) {x y : α} {xs : List α} (hfirst : J.first x = J.first y)
    (hlast : J.last x = J.last y) (hxs : ∀ z ∈ xs, J.first x ≤ J.first z) :
    (J.runFrom cur (x :: y :: xs)).Perm (J.runFrom cur (y :: x :: xs)) := by
  have hjoins : J.joins cur x = J.joins cur y := by rw [joins, joins, hfirst]
  rw [runFrom, runFrom.eq_def J cur (y :: x :: xs)]
  simp only [hjoins]
  split
  case isTrue hjoin =>
    rw [runFrom, runFrom, if_pos (joins_absorb hjoin), if_pos (joins_absorb (hjoins ▸ hjoin)),
      hJ.absorb_absorb]
  case isFalse => exact (run_swap hJ hfirst hlast hxs).cons cur

omit hJ in
theorem runFrom_congr {xs ys : List α} (h : ∀ cur, (J.runFrom cur xs).Perm (J.runFrom cur ys))
    (cur x : α) : (J.runFrom cur (x :: xs)).Perm (J.runFrom cur (x :: ys)) := by
  rw [runFrom, runFrom]
  split
  · exact h _
  · exact (h x).cons cur

variable {r : α → α → Prop} [DecidableRel r] [Std.Total r] (hr : ∀ a b, r a b → J.Before a b)

include hr

/-- An item that is not behind the others may as well be put among its like. -/
theorem runFrom_orderedInsert (cur : α) {x : α} {ys : List α} (hx : ∀ y ∈ ys, J.Before x y)
    (hys : ys.Pairwise J.Before) :
    (J.runFrom cur (x :: ys)).Perm (J.runFrom cur (ys.orderedInsert r x)) := by
  induction ys generalizing cur with
  | nil => exact .refl _
  | cons y ys ih =>
    rw [List.forall_mem_cons] at hx
    obtain ⟨hy, hys⟩ := List.pairwise_cons.mp hys
    rw [List.orderedInsert]
    split
    case isTrue => exact .refl _
    case isFalse hnot =>
      obtain ⟨hfirst, hlast⟩ := hx.1.eq_of (hr y x ((Std.Total.total x y).resolve_left hnot))
      exact (runFrom_swap hJ cur hfirst hlast fun z hz => (hx.2 z hz).first_le).trans
        (runFrom_congr (fun cur => ih cur hx.2 hys) cur y)

theorem run_orderedInsert {x : α} {ys : List α} (hx : ∀ y ∈ ys, J.Before x y)
    (hys : ys.Pairwise J.Before) :
    (J.run (x :: ys)).Perm (J.run (ys.orderedInsert r x)) := by
  cases ys with
  | nil => exact .refl _
  | cons y ys =>
    rw [List.forall_mem_cons] at hx
    obtain ⟨hy, hys⟩ := List.pairwise_cons.mp hys
    rw [List.orderedInsert]
    split
    case isTrue => exact .refl _
    case isFalse hnot =>
      obtain ⟨hfirst, hlast⟩ := hx.1.eq_of (hr y x ((Std.Total.total x y).resolve_left hnot))
      exact (run_swap hJ hfirst hlast fun z hz => (hx.2 z hz).first_le).trans
        (runFrom_orderedInsert hJ hr y hx.2 hys)

variable [IsTrans α r]

omit hJ in
theorem before_insertionSort (xs : List α) : (xs.insertionSort r).Pairwise J.Before :=
  (List.pairwise_insertionSort r xs).imp fun {a b} => hr a b

theorem runFrom_insertionSort (cur : α) {xs : List α} (hxs : xs.Pairwise J.Before) :
    (J.runFrom cur xs).Perm (J.runFrom cur (xs.insertionSort r)) := by
  induction xs generalizing cur with
  | nil => exact .refl _
  | cons x xs ih =>
    obtain ⟨hx, hxs⟩ := List.pairwise_cons.mp hxs
    exact (runFrom_congr (fun cur => ih cur hxs) cur x).trans
      (runFrom_orderedInsert hJ hr cur (fun y hy => hx y ((List.mem_insertionSort r).mp hy))
        (before_insertionSort hr xs))

theorem run_insertionSort {xs : List α} (hxs : xs.Pairwise J.Before) :
    (J.run xs).Perm (J.run (xs.insertionSort r)) := by
  cases xs with
  | nil => exact .refl _
  | cons x xs =>
    obtain ⟨hx, hxs⟩ := List.pairwise_cons.mp hxs
    exact (runFrom_insertionSort hJ hr x hxs).trans
      (run_orderedInsert hJ hr (fun y hy => hx y ((List.mem_insertionSort r).mp hy))
        (before_insertionSort hr xs))

/-- Two lists of the same items in order have the same items in their results. -/
theorem run_perm [Std.Antisymm r] {xs ys : List α} (hxs : xs.Pairwise J.Before)
    (hys : ys.Pairwise J.Before) (h : xs.Perm ys) : (J.run xs).Perm (J.run ys) := by
  have hsort : xs.insertionSort r = ys.insertionSort r := by
    refine List.Perm.eq_of_pairwise' (List.pairwise_insertionSort r xs)
      (List.pairwise_insertionSort r ys) ?_
    exact (List.perm_insertionSort r xs).trans (h.trans (List.perm_insertionSort r ys).symm)
  exact (run_insertionSort hJ hr hxs).trans (hsort ▸ (run_insertionSort hJ hr hys).symm)

end Commutes

end Joining
end Sweep
end Batiste
