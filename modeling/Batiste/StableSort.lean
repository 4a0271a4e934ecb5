import Mathlib.Tactic

/-! Sorting a list, cutting it and leaving some of its elements out. -/
namespace Batiste
namespace StableSort

/-! ## Sorting -/

section Sorting

variable {α : Type*} {r : α → α → Prop} [DecidableRel r] [IsTrans α r] [Std.Total r]

omit [IsTrans α r] [Std.Total r] in
/-- An element that is left out does not move the others. -/
theorem filter_orderedInsert_of_neg {p : α → Bool} {a : α} (ha : p a = false) (xs : List α) :
    (xs.orderedInsert r a).filter p = xs.filter p := by
  induction xs with
  | nil => simp [ha]
  | cons b xs ih =>
    rw [List.orderedInsert_cons]
    split
    · rw [List.filter_cons_of_neg (by simp [ha])]
    · rw [List.filter_cons, List.filter_cons, ih]

omit [IsTrans α r] [Std.Total r] in
theorem orderedInsert_of_forall {a : α} {xs : List α} (h : ∀ b ∈ xs, r a b) :
    xs.orderedInsert r a = a :: xs := by
  cases xs with
  | nil => rfl
  | cons b xs => rw [List.orderedInsert_cons, if_pos (h b List.mem_cons_self)]

omit [Std.Total r] in
theorem filter_orderedInsert {p : α → Bool} {a : α} (ha : p a = true) {xs : List α}
    (hxs : xs.Pairwise r) :
    (xs.orderedInsert r a).filter p = (xs.filter p).orderedInsert r a := by
  induction xs with
  | nil => simp [ha]
  | cons b xs ih =>
    rw [List.pairwise_cons] at hxs
    rw [List.orderedInsert_cons]
    split
    case isTrue hab =>
      have hall : ∀ c ∈ (b :: xs).filter p, r a c := by
        intro c hc
        rcases List.mem_cons.mp (List.mem_of_mem_filter hc) with rfl | hc
        · exact hab
        · exact IsTrans.trans _ _ _ hab (hxs.1 c hc)
      rw [List.filter_cons_of_pos ha, orderedInsert_of_forall hall]
    case isFalse hab =>
      rw [List.filter_cons, List.filter_cons, ih hxs.2]
      split
      · rw [List.orderedInsert_cons, if_neg hab]
      · rfl

/-- Sorting commutes with leaving elements out. -/
theorem filter_insertionSort (p : α → Bool) (xs : List α) :
    (xs.insertionSort r).filter p = (xs.filter p).insertionSort r := by
  induction xs with
  | nil => rfl
  | cons a xs ih =>
    rw [List.insertionSort_cons]
    cases ha : p a with
    | true =>
      rw [filter_orderedInsert ha (List.pairwise_insertionSort r xs), ih,
        List.filter_cons_of_pos ha, List.insertionSort_cons]
    | false =>
      rw [filter_orderedInsert_of_neg ha, ih, List.filter_cons_of_neg (by simp [ha])]

omit [DecidableRel r] [IsTrans α r] [Std.Total r] in
/-- Where the elements of a kind stand before the others, the list is those and then the others. -/
theorem eq_filter_append_filter {p : α → Bool} {xs : List α}
    (h : xs.Pairwise fun a b => p b = true → p a = true) :
    xs = xs.filter p ++ xs.filter fun a => !p a := by
  induction xs with
  | nil => rfl
  | cons a xs ih =>
    obtain ⟨ha, hrest⟩ := List.pairwise_cons.mp h
    cases hp : p a with
    | true =>
      rw [List.filter_cons_of_pos hp, List.filter_cons_of_neg (by simp [hp]), List.cons_append,
        ← ih hrest]
    | false =>
      have hnone : ∀ b ∈ xs, p b = false := by
        intro b hb
        by_contra hpb
        rw [ha b hb (by simpa using hpb)] at hp
        cases hp
      have hfirst : (a :: xs).filter p = [] := by simpa [hp] using hnone
      have hsecond : (a :: xs).filter (fun b => !p b) = a :: xs := by simpa [hp] using hnone
      rw [hfirst, hsecond, List.nil_append]

omit [DecidableRel r] [IsTrans α r] [Std.Total r] in
/-- Of two elements one comes before the other. -/
theorem pair_sublist {a b : α} {xs : List α} (ha : a ∈ xs) (hb : b ∈ xs) (hne : a ≠ b) :
    [a, b].Sublist xs ∨ [b, a].Sublist xs := by
  induction xs with
  | nil => exact absurd ha List.not_mem_nil
  | cons x xs ih =>
    rcases List.mem_cons.mp ha with rfl | ha'
    · have hb' := (List.mem_cons.mp hb).resolve_left hne.symm
      exact .inl ((List.singleton_sublist.mpr hb').cons_cons a)
    · rcases List.mem_cons.mp hb with rfl | hb'
      · exact .inr ((List.singleton_sublist.mpr ha').cons_cons b)
      · exact (ih ha' hb').imp (List.Sublist.cons x) (List.Sublist.cons x)

/-- The first of the sorted elements has to come before the others, or stood in front of them. -/
theorem head_insertionSort {x y : α} {xs rest : List α} (hxs : xs.Nodup)
    (h : xs.insertionSort r = x :: rest) (hy : y ∈ rest) :
    r x y ∧ (r y x → [x, y].Sublist xs) := by
  have hperm := List.perm_insertionSort r xs
  have hsorted := List.pairwise_insertionSort r xs
  rw [h] at hperm hsorted
  have hnodup := hperm.nodup_iff.mpr hxs
  have hne : x ≠ y := fun heq => (List.nodup_cons.mp hnodup).1 (heq ▸ hy)
  refine ⟨(List.pairwise_cons.mp hsorted).1 y hy, fun hyx => ?_⟩
  have hx := hperm.mem_iff.mp List.mem_cons_self
  refine (pair_sublist hx (hperm.mem_iff.mp (List.mem_cons_of_mem x hy)) hne).resolve_right ?_
  intro hsub
  have hpair := List.pair_sublist_insertionSort hyx hsub
  rw [h] at hpair
  rcases List.sublist_cons_iff.mp hpair with hrest | ⟨rest, heq, hrest⟩
  · exact (List.nodup_cons.mp hnodup).1 (hrest.subset (by simp))
  · exact hne (List.cons.inj heq).1.symm

end Sorting

/-! ## Places -/

section Places

variable {α : Type*} {r : α → α → Prop} [DecidableRel r] [IsTrans α r] [Std.Total r] {a x : α}

omit [IsTrans α r] [Std.Total r] in
theorem orderedInsert_before (hax : r a x) (front back : List α) :
    (front ++ x :: back).orderedInsert r a = front.orderedInsert r a ++ x :: back := by
  induction front with
  | nil => simp [hax]
  | cons b front ih =>
    rw [List.cons_append, List.orderedInsert_cons, List.orderedInsert_cons, ih]
    split <;> rfl

omit [IsTrans α r] [Std.Total r] in
theorem orderedInsert_behind {front : List α} (hfront : ∀ b ∈ front, ¬ r a b) (hax : ¬ r a x)
    (back : List α) :
    (front ++ x :: back).orderedInsert r a = front ++ x :: back.orderedInsert r a := by
  induction front with
  | nil => simp [hax]
  | cons b front ih =>
    obtain ⟨hb, hrest⟩ := List.forall_mem_cons.mp hfront
    rw [List.cons_append, List.orderedInsert_cons, if_neg hb, ih hrest, List.cons_append]

omit [Std.Total r] in
/-- In a sorted list the elements that are before `x` come first. -/
theorem takeWhile_eq_filter {xs : List α} (hxs : xs.Pairwise r) :
    xs.takeWhile (fun b => ¬ r x b) = xs.filter fun b => ¬ r x b := by
  induction xs with
  | nil => rfl
  | cons b xs ih =>
    obtain ⟨hb, hrest⟩ := List.pairwise_cons.mp hxs
    rw [List.takeWhile_cons, List.filter_cons]
    by_cases hxb : r x b
    · have hall : ∀ c ∈ xs, r x c := fun c hc => IsTrans.trans _ _ _ hxb (hb c hc)
      rw [if_neg (by simpa using hxb)]
      simpa [hxb] using hall
    · simp only [hxb, not_false_eq_true, decide_true, if_true]
      rw [ih hrest]

/-- Where sorting puts an element: behind those in front of it that do not have to come after it,
and behind those after it that have to come before it. -/
theorem insertionSort_split (front back : List α) (x : α) :
    ∃ before after, (front ++ x :: back).insertionSort r = before ++ x :: after ∧
      before.length = (front.countP fun a => r a x) + back.countP (fun b => ¬ r x b) ∧
        before ⊆ front ++ back := by
  induction front with
  | nil =>
    have hsorted := List.pairwise_insertionSort r back
    have hperm := List.perm_insertionSort r back
    refine ⟨_, _, List.insertionSort_cons_eq_take_drop r x back, ?_, ?_⟩
    · rw [takeWhile_eq_filter hsorted, ← List.countP_eq_length_filter, hperm.countP_eq,
        List.countP_nil, Nat.zero_add]
    · exact fun b hb => hperm.subset ((List.takeWhile_prefix _).subset hb)
  | cons a front ih =>
    obtain ⟨before, after, hsplit, hlength, hsub⟩ := ih
    have hsorted := List.pairwise_insertionSort r (front ++ x :: back)
    rw [List.cons_append, List.insertionSort_cons]
    rw [hsplit] at hsorted ⊢
    have hin : before ⊆ a :: (front ++ back) := List.subset_cons_of_subset a hsub
    by_cases hax : r a x
    · refine ⟨before.orderedInsert r a, after, orderedInsert_before hax before after, ?_, ?_⟩
      · rw [List.orderedInsert_length, hlength, List.countP_cons_of_pos (by simpa using hax)]
        omega
      · intro b hb
        rcases (List.mem_orderedInsert r).mp hb with rfl | hb
        · exact List.mem_cons_self
        · exact hin hb
    · have hfront : ∀ b ∈ before, ¬ r a b := fun b hb hab =>
        hax (IsTrans.trans _ _ _ hab ((List.pairwise_append.mp hsorted).2.2 b hb x
          List.mem_cons_self))
      refine ⟨before, _, orderedInsert_behind hfront hax after, ?_, hin⟩
      rw [hlength, List.countP_cons_of_neg (by simpa using hax)]

theorem mem_take_insertionSort_iff {front back : List α} (hx : x ∉ front ++ back) (n : ℕ) :
    x ∈ ((front ++ x :: back).insertionSort r).take n ↔
      (front.countP fun a => r a x) + back.countP (fun b => ¬ r x b) < n := by
  obtain ⟨before, after, hsplit, hlength, hsub⟩ := insertionSort_split (r := r) front back x
  rw [hsplit, ← hlength]
  constructor
  · intro hmem
    by_contra hle
    rw [List.take_append_of_le_length (not_lt.mp hle)] at hmem
    exact hx (hsub (List.mem_of_mem_take hmem))
  · intro hlt
    rw [List.take_append, List.mem_append]
    obtain ⟨m, hm⟩ := Nat.exists_eq_add_of_lt hlt
    rw [hm, show before.length + m + 1 - before.length = m + 1 by omega, List.take_succ_cons]
    exact .inr List.mem_cons_self

omit [IsTrans α r] [Std.Total r] [DecidableRel r] in
/-- A list of distinct keys around one of its elements. -/
theorem split_key {κ : Type*} [DecidableEq κ] {key : α → κ} {xs : List α}
    (hkeys : (xs.map key).Nodup) (hx : x ∈ xs) : ∃ front back, xs = front ++ x :: back ∧
      (∀ a ∈ front, key a ≠ key x) ∧ (∀ a ∈ back, key a ≠ key x) ∧
        xs.takeWhile (fun a => key a ≠ key x) = front ∧
          xs.dropWhile (fun a => key a ≠ key x) = x :: back := by
  obtain ⟨front, back, rfl⟩ := List.append_of_mem hx
  rw [List.map_append, List.map_cons, List.nodup_append] at hkeys
  obtain ⟨-, hback, hdisjoint⟩ := hkeys
  have hfront : ∀ a ∈ front, key a ≠ key x := fun a ha =>
    hdisjoint (key a) (List.mem_map_of_mem ha) (key x) List.mem_cons_self
  have hpos : ∀ a ∈ front, decide (key a ≠ key x) = true := by simpa using hfront
  refine ⟨front, back, rfl, hfront, ?_, ?_, ?_⟩
  · exact fun a ha hid => (List.nodup_cons.mp hback).1 (hid ▸ List.mem_map_of_mem ha)
  · rw [List.takeWhile_append_of_pos hpos, List.takeWhile_cons_of_neg (by simp), List.append_nil]
  · rw [List.dropWhile_append_of_pos hpos, List.dropWhile_cons_of_neg (by simp)]

theorem mem_take_insertionSort_key {κ : Type*} [DecidableEq κ] {key : α → κ} {xs : List α}
    (hkeys : (xs.map key).Nodup) (hx : x ∈ xs) (n : ℕ) :
    x ∈ (xs.insertionSort r).take n ↔
      (xs.takeWhile fun a => key a ≠ key x).countP (fun a => r a x) +
        (xs.dropWhile fun a => key a ≠ key x).countP (fun b => ¬ r x b) < n := by
  obtain ⟨front, back, hxs, hfront, hback, htake, hdrop⟩ := split_key hkeys hx
  have hself : r x x := (Std.Total.total x x).elim id id
  have hnot : x ∉ front ++ back := by
    intro hin
    rcases List.mem_append.mp hin with hin | hin
    · exact hfront x hin rfl
    · exact hback x hin rfl
  rw [htake, hdrop, List.countP_cons_of_neg (by simpa using hself)]
  rw [hxs, mem_take_insertionSort_iff hnot]

end Places

/-! ## Cutting -/

section Cuts

variable {α β : Type*} (f : α → β) (p : α → Bool)

theorem filter_drop_eq_nil_iff (xs : List α) (n : ℕ) :
    (xs.drop n).filter p = [] ↔ ∀ x ∈ xs.drop n, ¬p x := by
  rw [List.filter_eq_nil_iff]

/-- A cut before the filter loses nothing where the filter drops everything behind it. -/
theorem map_filter_take_eq_all_iff (xs : List α) (n : ℕ) :
    ((xs.take n).filter p).map f = (xs.filter p).map f ↔ ∀ x ∈ xs.drop n, ¬p x := by
  have hsplit : xs.filter p = (xs.take n).filter p ++ (xs.drop n).filter p := by
    rw [← List.filter_append, List.take_append_drop]
  rw [hsplit, List.map_append, List.self_eq_append_right, List.map_eq_nil_iff,
    filter_drop_eq_nil_iff]

/-- A cut before the filter keeps what a cut after it keeps where the filter drops nothing before
the cut, or everything behind it. -/
theorem map_filter_take_eq_iff (xs : List α) (n : ℕ) :
    ((xs.take n).filter p).map f = ((xs.filter p).take n).map f ↔
      (∀ x ∈ xs.take n, p x) ∨ ∀ x ∈ xs.drop n, ¬p x := by
  have hlength : ((xs.take n).filter p).length ≤ n :=
    (List.length_filter_le p _).trans (List.length_take_le n xs)
  have hsplit : (xs.filter p).take n = (xs.take n).filter p ++
      ((xs.drop n).filter p).take (n - ((xs.take n).filter p).length) := by
    conv_lhs => rw [← List.take_append_drop n xs, List.filter_append, List.take_append,
      List.take_of_length_le hlength]
  rw [hsplit, List.map_append, List.self_eq_append_right, List.map_eq_nil_iff,
    List.take_eq_nil_iff, filter_drop_eq_nil_iff]
  constructor
  · rintro (hfull | hnone)
    · have hfilter := List.length_filter_le p (xs.take n)
      have htake := List.length_take_le n xs
      exact .inl (List.length_filter_eq_length_iff.mp (by omega))
    · exact .inr hnone
  · rintro (hall | hnone)
    · rcases Nat.lt_or_ge xs.length n with hshort | hlong
      · exact .inr (by simp [List.drop_of_length_le hshort.le])
      · rw [List.filter_eq_self.mpr hall, List.length_take, min_eq_left hlong]
        exact .inl (Nat.sub_self n)
    · exact .inr hnone

end Cuts

end StableSort
end Batiste
