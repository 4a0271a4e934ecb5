import Mathlib.Data.List.Nodup
import Mathlib.Data.List.Perm.Subperm
import Mathlib.Data.Set.Lattice
import Mathlib.Logic.Relation
import Mathlib.Order.Minimal

/-! Flood fill with an explicit stack, where a node is marked when it is pushed, and the regions
that it finds from a list of starts. -/
namespace Batiste
namespace FloodFill

open Relation

variable {α : Type*}

/-! ## Connected sets -/

/-- Every two nodes of the set are joined by a path in the set. -/
def ConnectedIn (adj : α → α → Prop) (S : Set α) : Prop :=
  ∀ x ∈ S, ∀ y ∈ S, ReflTransGen (fun a b => b ∈ S ∧ adj a b) x y

def component (adj : α → α → Prop) (U : Set α) (s : α) : Set α :=
  {x | ReflTransGen (fun a b => b ∈ U ∧ adj a b) s x}

theorem component_path {adj : α → α → Prop} {U : Set α} {s x y : α} (hx : x ∈ component adj U s)
    (h : ReflTransGen (fun a b => b ∈ U ∧ adj a b) x y) :
    ReflTransGen (fun a b => b ∈ component adj U s ∧ adj a b) x y := by
  induction h with
  | refl => exact .refl
  | tail hpath hstep ih => exact ih.tail ⟨(ReflTransGen.trans hx hpath).tail hstep, hstep.2⟩

/-- A component of a symmetric relation is a largest connected set of nodes. -/
theorem maximal_component {adj : α → α → Prop} (hsymm : ∀ x y, adj x y → adj y x) {U : Set α}
    {s : α} (hs : s ∈ U) :
    Maximal (fun S => S.Nonempty ∧ S ⊆ U ∧ ConnectedIn adj S) (component adj U s) := by
  have hU : component adj U s ⊆ U := by
    intro x hx
    rcases ReflTransGen.cases_tail hx with rfl | ⟨y, -, hstep⟩
    · exact hs
    · exact hstep.1
  have hback : ∀ x ∈ component adj U s, ReflTransGen (fun a b => b ∈ U ∧ adj a b) x s := by
    intro x hx
    induction hx with
    | refl => exact .refl
    | tail hpath hstep ih => exact .head ⟨hU hpath, hsymm _ _ hstep.2⟩ ih
  refine ⟨⟨⟨s, .refl⟩, hU, ?_⟩, ?_⟩
  · intro x hx y hy
    exact component_path hx ((hback x hx).trans hy)
  · rintro S ⟨-, hSU, hS⟩ hsub x hx
    have hpath : ReflTransGen (fun a b => b ∈ S ∧ adj a b) s x := hS s (hsub .refl) x hx
    exact ReflTransGen.mono (fun a b h => ⟨hSU h.1, h.2⟩) _ _ hpath

/-! ## One fill -/

/-- What holds while the component of a start is filled, with the marks of earlier fills. -/
structure Filling (next : α → List α) (before : List α) (s : α) (stack seen idx : List α) : Prop where
  nodup : (idx ++ stack).Nodup
  seen_iff : ∀ x, x ∈ seen ↔ x ∈ before ∨ x ∈ idx ∨ x ∈ stack
  apart : ∀ x, x ∈ idx ∨ x ∈ stack → x ∉ before
  reached : ∀ x, x ∈ idx ∨ x ∈ stack → ReflTransGen (fun a b => b ∈ next a) s x
  done : ∀ x ∈ idx, ∀ y ∈ next x, y ∈ seen
  start : s ∈ idx ∨ s ∈ stack

variable {next : α → List α}

theorem Filling.begin {before : List α} {s : α} (hs : s ∉ before) :
    Filling next before s [s] (s :: before) [] where
  nodup := by simp
  seen_iff x := by simp [or_comm]
  apart x hx := by
    rcases hx with hx | hx
    · cases hx
    · exact List.mem_singleton.mp hx ▸ hs
  reached x hx := by
    rcases hx with hx | hx
    · cases hx
    · exact List.mem_singleton.mp hx ▸ .refl
  done x hx := by cases hx
  start := Or.inr List.mem_cons_self

theorem mem_of_path {nodes : List α} (hclosed : ∀ x ∈ nodes, ∀ y ∈ next x, y ∈ nodes) {s x : α}
    (hs : s ∈ nodes) (h : ReflTransGen (fun a b => b ∈ next a) s x) : x ∈ nodes := by
  induction h with
  | refl => exact hs
  | tail hpath hstep ih => exact hclosed _ ih _ hstep

/-- A finished fill holds the component of its start. -/
theorem Filling.mem_iff {nodes before : List α} (hclosed : ∀ x ∈ nodes, ∀ y ∈ next x, y ∈ nodes)
    (hsymm : ∀ x ∈ nodes, ∀ y ∈ next x, x ∈ next y)
    (hbefore : ∀ x ∈ before, ∀ y ∈ next x, y ∈ before) {s : α} (hs : s ∈ nodes)
    {seen idx : List α} (h : Filling next before s [] seen idx) (x : α) :
    x ∈ idx ↔ ReflTransGen (fun a b => b ∈ next a) s x := by
  constructor
  · exact fun hx => h.reached x (Or.inl hx)
  · intro hx
    induction hx with
    | refl => exact h.start.resolve_right (List.not_mem_nil)
    | tail hpath hstep ih =>
      rcases (h.seen_iff _).mp (h.done _ ih _ hstep) with hold | hidx | hstack
      · exact absurd (hbefore _ hold _ (hsymm _ (mem_of_path hclosed hs hpath) _ hstep))
          (h.apart _ (Or.inl ih))
      · exact hidx
      · cases hstack

variable [DecidableEq α]

/-- The nodes that are marked and pushed, in this order. -/
def fresh : List α → List α → List α
  | [], _ => []
  | q :: qs, seen => if q ∈ seen then fresh qs seen else q :: fresh qs (q :: seen)

theorem mem_fresh {qs seen : List α} {x : α} : x ∈ fresh qs seen ↔ x ∈ qs ∧ x ∉ seen := by
  induction qs generalizing seen with
  | nil => simp [fresh]
  | cons q qs ih =>
    unfold fresh
    split
    · next hq =>
      rw [ih, List.mem_cons]
      constructor
      · exact fun h => ⟨Or.inr h.1, h.2⟩
      · rintro ⟨rfl | hx, hseen⟩
        · exact absurd hq hseen
        · exact ⟨hx, hseen⟩
    · next hq =>
      rw [List.mem_cons, List.mem_cons, ih, List.mem_cons, not_or]
      constructor
      · rintro (rfl | ⟨hx, -, hseen⟩)
        · exact ⟨Or.inl rfl, hq⟩
        · exact ⟨Or.inr hx, hseen⟩
      · rintro ⟨rfl | hx, hseen⟩
        · exact Or.inl rfl
        · by_cases heq : x = q
          · exact Or.inl heq
          · exact Or.inr ⟨hx, heq, hseen⟩

theorem nodup_fresh (qs seen : List α) : (fresh qs seen).Nodup := by
  induction qs generalizing seen with
  | nil => exact List.nodup_nil
  | cons q qs ih =>
    unfold fresh
    split
    · exact ih seen
    · exact List.nodup_cons.mpr ⟨fun h => (mem_fresh.mp h).2 List.mem_cons_self, ih _⟩

/-- The top of the stack is the head of the list. The result is the popped nodes in their order and
the marks; it is none where the fuel ends before the stack. -/
def flood (next : α → List α) : ℕ → List α → List α → List α → Option (List α × List α)
  | _, [], seen, idx => some (idx, seen)
  | 0, _ :: _, _, _ => none
  | n + 1, p :: stack, seen, idx =>
    let new := (fresh (next p) seen).reverse
    flood next n (new ++ stack) (new ++ seen) (idx ++ [p])

theorem Filling.step {before : List α} {s p : α} {stack seen idx : List α}
    (h : Filling next before s (p :: stack) seen idx) :
    Filling next before s ((fresh (next p) seen).reverse ++ stack)
      ((fresh (next p) seen).reverse ++ seen) (idx ++ [p]) := by
  have hnew : ∀ x, x ∈ (fresh (next p) seen).reverse ↔ x ∈ next p ∧ x ∉ seen := by
    intro x
    rw [List.mem_reverse, mem_fresh]
  have hmem : ∀ x, (x ∈ idx ++ [p] ∨ x ∈ (fresh (next p) seen).reverse ++ stack) ↔
      (x ∈ idx ∨ x ∈ p :: stack) ∨ x ∈ next p ∧ x ∉ seen := by
    intro x
    rw [List.mem_append, List.mem_append, hnew, List.mem_singleton, List.mem_cons]
    tauto
  have hp : p ∈ idx ∨ p ∈ p :: stack := Or.inr List.mem_cons_self
  constructor
  · -- The new nodes are not marked yet, and every node of the two lists is.
    rw [(List.perm_append_comm_assoc _ _ _).nodup_iff, List.append_assoc, List.singleton_append]
    refine (List.nodup_reverse.mpr (nodup_fresh _ _)).append h.nodup fun x hx hold => ?_
    exact ((hnew x).mp hx).2 ((h.seen_iff x).mpr (Or.inr (List.mem_append.mp hold)))
  · intro x
    rw [hmem, List.mem_append, hnew, h.seen_iff]
    tauto
  · intro x hx
    rcases (hmem x).mp hx with hx | ⟨-, hseen⟩
    · exact h.apart x hx
    · exact fun hbefore => hseen ((h.seen_iff x).mpr (Or.inl hbefore))
  · intro x hx
    rcases (hmem x).mp hx with hx | ⟨hnext, -⟩
    · exact h.reached x hx
    · exact (h.reached p hp).tail hnext
  · intro x hx y hy
    rw [List.mem_append, hnew]
    rcases List.mem_append.mp hx with hx | hx
    · exact Or.inr (h.done x hx y hy)
    · obtain rfl := List.mem_singleton.mp hx
      by_cases hseen : y ∈ seen
      · exact Or.inr hseen
      · exact Or.inl ⟨hy, hseen⟩
  · exact (hmem s).mpr (Or.inl h.start)

/-- The number of nodes that are not marked. -/
def unmarked (nodes seen : List α) : ℕ := (nodes.filter (· ∉ seen)).length

theorem unmarked_append {nodes seen new : List α} (hnodes : nodes.Nodup) (hnew : new.Nodup)
    (hsub : ∀ x ∈ new, x ∈ nodes ∧ x ∉ seen) :
    unmarked nodes (new ++ seen) + new.length ≤ unmarked nodes seen := by
  have hnodup : (nodes.filter (· ∉ new ++ seen) ++ new).Nodup := by
    refine (hnodes.filter _).append hnew fun x hx hxnew => ?_
    have hout := of_decide_eq_true (List.mem_filter.mp hx).2
    exact hout (List.mem_append_left _ hxnew)
  have hsubset : nodes.filter (· ∉ new ++ seen) ++ new ⊆ nodes.filter (· ∉ seen) := by
    intro x hx
    rcases List.mem_append.mp hx with hx | hx
    · obtain ⟨hmem, hout⟩ := List.mem_filter.mp hx
      refine List.mem_filter.mpr ⟨hmem, ?_⟩
      simp only [List.mem_append, not_or, decide_eq_true_eq] at hout ⊢
      exact hout.2
    · exact List.mem_filter.mpr ⟨(hsub x hx).1, decide_eq_true (hsub x hx).2⟩
  have hle := (List.subperm_of_subset hnodup hsubset).length_le
  rwa [List.length_append] at hle

/-- With fuel for the stack and the unmarked nodes the fill ends with an empty stack. -/
theorem Filling.total {nodes before : List α} (hnodes : nodes.Nodup)
    (hclosed : ∀ x ∈ nodes, ∀ y ∈ next x, y ∈ nodes) {s : α} (hs : s ∈ nodes) {n : ℕ}
    {stack seen idx : List α} (h : Filling next before s stack seen idx)
    (hfuel : unmarked nodes seen + stack.length ≤ n) :
    ∃ idx' seen', flood next n stack seen idx = some (idx', seen') ∧
      Filling next before s [] seen' idx' := by
  induction n generalizing stack seen idx with
  | zero =>
    cases stack with
    | nil => exact ⟨idx, seen, rfl, h⟩
    | cons p stack => simp at hfuel
  | succ n ih =>
    cases stack with
    | nil => exact ⟨idx, seen, rfl, h⟩
    | cons p stack =>
      refine ih h.step ?_
      have hp := mem_of_path hclosed hs (h.reached p (Or.inr List.mem_cons_self))
      have hle : unmarked nodes ((fresh (next p) seen).reverse ++ seen) +
          (fresh (next p) seen).reverse.length ≤ unmarked nodes seen := unmarked_append hnodes
        (List.nodup_reverse.mpr (nodup_fresh (next p) seen)) fun x hx => by
          obtain ⟨hnext, hseen⟩ := mem_fresh.mp (List.mem_reverse.mp hx)
          exact ⟨hclosed p hp x hnext, hseen⟩
      simp only [List.length_append, List.length_cons] at hfuel ⊢
      omega

/-! ## The regions of a list of starts -/

/-- One region for each start that no earlier region holds. -/
def regions (next : α → List α) (fuel : ℕ) : List α → List α → Option (List (List α))
  | [], _ => some []
  | s :: starts, seen =>
    if s ∈ seen then regions next fuel starts seen
    else (flood next fuel [s] (s :: seen) []).bind fun r =>
      (regions next fuel starts r.2).map (r.1 :: ·)

structure Regions (next : α → List α) (starts seen : List α) (rs : List (List α)) : Prop where
  region : ∀ r ∈ rs, r.Nodup ∧ ∃ s ∈ starts, ∀ x, x ∈ r ↔ ReflTransGen (fun a b => b ∈ next a) s x
  apart : ∀ r ∈ rs, ∀ x ∈ r, x ∉ seen
  disjoint : rs.Pairwise List.Disjoint
  cover : ∀ s ∈ starts, s ∈ seen ∨ ∃ r ∈ rs, s ∈ r

section Cons

omit [DecidableEq α]

variable {s : α} {starts seen seen' idx : List α} {rs : List (List α)}

theorem Regions.region_cons (h : Regions next starts seen rs) : ∀ r ∈ rs, r.Nodup ∧
    ∃ t ∈ s :: starts, ∀ x, x ∈ r ↔ ReflTransGen (fun a b => b ∈ next a) t x := by
  intro r hr
  obtain ⟨hnodup, t, ht, hmem⟩ := h.region r hr
  exact ⟨hnodup, t, List.mem_cons_of_mem s ht, hmem⟩

/-- A start that an earlier region holds. -/
theorem Regions.cons_of_mem (h : Regions next starts seen rs) (hs : s ∈ seen) :
    Regions next (s :: starts) seen rs where
  region := h.region_cons
  apart := h.apart
  disjoint := h.disjoint
  cover x hx := by
    rcases List.mem_cons.mp hx with rfl | hx
    · exact Or.inl hs
    · exact h.cover x hx

/-- A start whose fill is `idx`. -/
theorem Regions.cons_of_fill (h : Regions next starts seen' rs) (hnodup : idx.Nodup)
    (hidx : ∀ x, x ∈ idx ↔ ReflTransGen (fun a b => b ∈ next a) s x) (hapart : ∀ x ∈ idx, x ∉ seen)
    (hseen' : ∀ x, x ∈ seen' ↔ x ∈ seen ∨ x ∈ idx) :
    Regions next (s :: starts) seen (idx :: rs) := by
  constructor
  · intro r hr
    rcases List.mem_cons.mp hr with rfl | hr
    · exact ⟨hnodup, s, List.mem_cons_self, hidx⟩
    · exact h.region_cons r hr
  · intro r hr x hx
    rcases List.mem_cons.mp hr with rfl | hr
    · exact hapart x hx
    · exact fun hold => h.apart r hr x hx ((hseen' x).mpr (Or.inl hold))
  · refine List.pairwise_cons.mpr ⟨fun r hr x hx hxr => ?_, h.disjoint⟩
    exact h.apart r hr x hxr ((hseen' x).mpr (Or.inr hx))
  · intro x hx
    rcases List.mem_cons.mp hx with rfl | hx
    · exact Or.inr ⟨idx, List.mem_cons_self, (hidx x).mpr .refl⟩
    · rcases h.cover x hx with hx | ⟨r, hr, hx⟩
      · rcases (hseen' x).mp hx with hx | hx
        · exact Or.inl hx
        · exact Or.inr ⟨idx, List.mem_cons_self, hx⟩
      · exact Or.inr ⟨r, List.mem_cons_of_mem idx hr, hx⟩

end Cons

/-- The fuel is enough for the fill of one start. -/
theorem unmarked_start_le {nodes seen : List α} (hnodes : nodes.Nodup) {s : α} (hs : s ∈ nodes)
    (hmarked : s ∉ seen) : unmarked nodes (s :: seen) + [s].length ≤ nodes.length := by
  have hle : unmarked nodes ([s] ++ seen) + [s].length ≤ unmarked nodes seen :=
    unmarked_append hnodes (List.nodup_singleton s)
      fun x hx => by rw [List.mem_singleton.mp hx]; exact ⟨hs, hmarked⟩
  exact hle.trans (List.length_filter_le _ _)

/-- The fills end, and their regions are disjoint components that cover the starts. -/
theorem regions_spec {nodes : List α} (hnodes : nodes.Nodup)
    (hclosed : ∀ x ∈ nodes, ∀ y ∈ next x, y ∈ nodes) (hsymm : ∀ x ∈ nodes, ∀ y ∈ next x, x ∈ next y)
    {fuel : ℕ} (hfuel : nodes.length ≤ fuel) {starts seen : List α} (hstarts : starts ⊆ nodes)
    (hseen : ∀ x ∈ seen, ∀ y ∈ next x, y ∈ seen) :
    ∃ rs, regions next fuel starts seen = some rs ∧ Regions next starts seen rs := by
  induction starts generalizing seen with
  | nil => exact ⟨[], rfl, ⟨by simp, by simp, .nil, by simp⟩⟩
  | cons s starts ih =>
    have hs : s ∈ nodes := hstarts List.mem_cons_self
    have hstarts' : starts ⊆ nodes := fun x hx => hstarts (List.mem_cons_of_mem s hx)
    by_cases hmarked : s ∈ seen
    · obtain ⟨rs, hrs, h⟩ := ih hstarts' hseen
      exact ⟨rs, by rw [regions, if_pos hmarked, hrs], h.cons_of_mem hmarked⟩
    · have hroom := (unmarked_start_le hnodes hs hmarked).trans hfuel
      obtain ⟨idx, seen', hflood, hfilled⟩ :=
        (Filling.begin hmarked).total hnodes hclosed hs hroom
      have hidx := hfilled.mem_iff hclosed hsymm hseen hs
      have hseen' : ∀ x, x ∈ seen' ↔ x ∈ seen ∨ x ∈ idx := by
        intro x
        rw [hfilled.seen_iff]
        simp
      have hkept : ∀ x ∈ seen', ∀ y ∈ next x, y ∈ seen' := by
        intro x hx y hy
        rcases (hseen' x).mp hx with hx | hx
        · exact (hseen' y).mpr (Or.inl (hseen x hx y hy))
        · exact (hseen' y).mpr (Or.inr ((hidx y).mpr (((hidx x).mp hx).tail hy)))
      obtain ⟨rs, hrs, h⟩ := ih hstarts' hkept
      refine ⟨idx :: rs, by rw [regions, if_neg hmarked, hflood, Option.bind_some, hrs]; rfl, ?_⟩
      exact h.cons_of_fill (by simpa using hfilled.nodup) hidx
        (fun x hx => hfilled.apart x (Or.inl hx)) hseen'

end FloodFill
end Batiste
