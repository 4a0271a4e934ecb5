import Mathlib.Tactic

/-! Forests as parent maps: a new leaf, and the children of one node handed to another. -/
namespace Batiste
namespace Forest

open Relation

variable {I : Type*}

/-- The second is the parent of the first, or its parent, and so on. -/
def Descends (parent : I → Option I) : I → I → Prop :=
  TransGen fun child above => parent child = some above

def Acyclic (parent : I → Option I) : Prop := ∀ a, ¬ Descends parent a a

theorem acyclic_none : Acyclic fun _ : I => none := by
  intro a h
  obtain ⟨b, hb, -⟩ := TransGen.head'_iff.mp h
  cases hb

variable [DecidableEq I] {parent : I → Option I}

/-- A node that nothing has as parent gets a parent. -/
theorem acyclic_update (h : Acyclic parent) {leaf : I} {above : Option I}
    (hleaf : ∀ a, parent a ≠ some leaf) (habove : above ≠ some leaf) :
    Acyclic (Function.update parent leaf above) := by
  have hnever : ∀ a, Function.update parent leaf above a ≠ some leaf := by
    intro a
    by_cases ha : a = leaf
    · subst ha
      simpa using habove
    · simpa [ha] using hleaf a
  intro a hcycle
  have hold : ∀ b, Descends (Function.update parent leaf above) a b → Descends parent a b := by
    intro b hb
    have hlast : ∀ c d, Function.update parent leaf above c = some d → c ≠ leaf →
        parent c = some d := by
      intro c d hcd hc
      simpa [hc] using hcd
    have hfirst : a ≠ leaf := by
      rintro rfl
      obtain ⟨c, -, hc⟩ := TransGen.tail'_iff.mp hcycle
      exact hnever c hc
    induction hb with
    | single hab => exact TransGen.single (hlast _ _ hab hfirst)
    | tail hac hcd ih =>
      refine ih.tail (hlast _ _ hcd ?_)
      rintro rfl
      obtain ⟨e, -, he⟩ := TransGen.tail'_iff.mp hac
      exact hnever e he
  exact h a (hold a hcycle)

/-- The children of the source become children of the target. -/
def redirect (parent : I → Option I) (source target : I) (a : I) : Option I :=
  if parent a = some source then some target else parent a

section Redirect

variable {source target : I}

theorem acyclic_redirect (h : Acyclic parent) (houtside : ¬ Descends parent target source) :
    Acyclic (redirect parent source target) := by
  -- A path either uses no redirected edge, or it meets a child of the source and comes from
  -- the target afterwards.
  have hpath : ∀ a b, Descends (redirect parent source target) a b → Descends parent a b ∨
      (∃ c, ReflTransGen (fun child above => parent child = some above) a c ∧
        parent c = some source) ∧
      ReflTransGen (fun child above => parent child = some above) target b := by
    intro a b hab
    induction hab with
    | single hstep =>
      unfold redirect at hstep
      split at hstep
      · next hsource =>
        obtain rfl := Option.some.inj hstep
        exact Or.inr ⟨⟨a, .refl, hsource⟩, .refl⟩
      · exact Or.inl (TransGen.single hstep)
    | tail hac hstep ih =>
      rename_i c d
      unfold redirect at hstep
      split at hstep
      · next hsource =>
        obtain rfl := Option.some.inj hstep
        rcases ih with hold | ⟨-, hfrom⟩
        · exact Or.inr ⟨⟨c, hold.to_reflTransGen, hsource⟩, .refl⟩
        · exact absurd (TransGen.tail' hfrom hsource) houtside
      · rcases ih with hold | ⟨hmeets, hfrom⟩
        · exact Or.inl (hold.tail hstep)
        · exact Or.inr ⟨hmeets, hfrom.tail hstep⟩
  intro a hcycle
  rcases hpath a a hcycle with hold | ⟨⟨c, hac, hsource⟩, hfrom⟩
  · exact h a hold
  · exact houtside (TransGen.tail' (hfrom.trans hac) hsource)

end Redirect

/-- Follow the parents until the node is met, one is met again, or none is left. -/
def leadsTo (parent : I → Option I) (node : I) : ℕ → List I → Option I → Bool
  | 0, _, _ => false
  | _ + 1, _, none => false
  | fuel + 1, seen, some current =>
    if current = node then true
    else if current ∈ seen then false
    else leadsTo parent node fuel (current :: seen) (parent current)

/-- As many steps as there are nodes meet every ancestor. -/
theorem leadsTo_of_reaches (h : Acyclic parent) {nodes : List I}
    (hnodes : ∀ a b, parent a = some b → b ∈ nodes) {start node : I} (hstart : start ∈ nodes)
    (hreach : ReflTransGen (fun child above => parent child = some above) start node) :
    leadsTo parent node nodes.length [] (some start) = true := by
  have hwalk : ∀ (fuel : ℕ) (seen : List I) (current : I), nodes.length ≤ fuel + seen.length →
      seen.Nodup → (∀ a ∈ seen, a ∈ nodes ∧ Descends parent a current) → current ∈ nodes →
      ReflTransGen (fun child above => parent child = some above) current node →
      leadsTo parent node fuel seen (some current) = true := by
    intro fuel
    induction fuel with
    | zero =>
      intro seen current hfuel hnodup hseen hcurrent _
      have hnew : current ∉ seen := fun hmem => h current (hseen current hmem).2
      have hsub : current :: seen ⊆ nodes := by
        intro a ha
        exact (List.mem_cons.mp ha).elim (fun heq => heq ▸ hcurrent) fun hmem => (hseen a hmem).1
      have hle := (List.subperm_of_subset (List.nodup_cons.mpr ⟨hnew, hnodup⟩) hsub).length_le
      simp only [List.length_cons] at hle
      omega
    | succ fuel ih =>
      intro seen current hfuel hnodup hseen hcurrent hreach
      have hnew : current ∉ seen := fun hmem => h current (hseen current hmem).2
      rw [leadsTo]
      by_cases hnode : current = node
      · rw [if_pos hnode]
      · rw [if_neg hnode, if_neg hnew]
        obtain hrefl | ⟨above, habove, hrest⟩ := hreach.cases_head
        · exact absurd hrefl hnode
        · rw [habove]
          refine ih (current :: seen) above (by simp only [List.length_cons]; omega)
            (List.nodup_cons.mpr ⟨hnew, hnodup⟩) ?_ (hnodes current above habove) hrest
          intro a ha
          rcases List.mem_cons.mp ha with rfl | hmem
          · exact ⟨hcurrent, TransGen.single habove⟩
          · exact ⟨(hseen a hmem).1, (hseen a hmem).2.tail habove⟩
  exact hwalk nodes.length [] start (by simp) List.nodup_nil (by simp) hstart hreach

open Classical in
/-- How many of the nodes descend from one. -/
noncomputable def below (parent : I → Option I) (nodes : List I) (a : I) : ℕ :=
  (nodes.toFinset.filter fun b => Descends parent b a).card

theorem below_lt (h : Acyclic parent) {nodes : List I} {child above : I} (hchild : child ∈ nodes)
    (hparent : parent child = some above) : below parent nodes child < below parent nodes above := by
  classical
  unfold below
  refine Finset.card_lt_card (Finset.ssubset_iff_of_subset ?_ |>.mpr ⟨child, ?_, ?_⟩)
  · intro a ha
    rw [Finset.mem_filter] at ha ⊢
    exact ⟨ha.1, ha.2.tail hparent⟩
  · exact Finset.mem_filter.mpr ⟨List.mem_toFinset.mpr hchild, .single hparent⟩
  · exact fun hmem => h child (Finset.mem_filter.mp hmem).2

theorem below_lt_length (h : Acyclic parent) {nodes : List I} {a : I} (ha : a ∈ nodes) :
    below parent nodes a < nodes.length := by
  classical
  unfold below
  refine (Finset.card_lt_card (Finset.ssubset_iff_of_subset (Finset.filter_subset _ _) |>.mpr
    ⟨a, List.mem_toFinset.mpr ha, ?_⟩)).trans_le (List.toFinset_card_le nodes)
  exact fun hmem => h a (Finset.mem_filter.mp hmem).2

end Forest
end Batiste
