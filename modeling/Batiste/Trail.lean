import Mathlib.Tactic

/-! Walks along a partial successor function.  The walk from a node is the only one, so that one
that comes back has no end. -/
namespace Batiste
namespace Trail

variable {α : Type*} {next : α → Option α}

/-- The walk follows the successors to a node that has none. -/
inductive Ends (next : α → Option α) : α → List α → Prop
  | last {a : α} (h : next a = none) : Ends next a [a]
  | step {a b : α} {path : List α} (h : next a = some b) (rest : Ends next b path) :
      Ends next a (a :: path)

theorem Ends.unique {a : α} {p q : List α} (hp : Ends next a p) (hq : Ends next a q) : p = q := by
  induction hp generalizing q with
  | last h =>
    cases hq with
    | last _ => rfl
    | step h' _ => exact absurd (h.symm.trans h') (by simp)
  | step h _ ih =>
    cases hq with
    | last h' => exact absurd (h'.symm.trans h) (by simp)
    | step h' rest' =>
      obtain rfl := Option.some.inj (h.symm.trans h')
      rw [ih rest']

/-- What follows a node of the walk is the walk from there. -/
theorem Ends.tail {a c : α} {path : List α} (h : Ends next a path) (hc : c ∈ path) :
    ∃ p, Ends next c p ∧ p.length ≤ path.length := by
  induction h with
  | last h =>
    obtain rfl := List.mem_singleton.mp hc
    exact ⟨_, .last h, le_rfl⟩
  | step h rest ih =>
    rcases List.mem_cons.mp hc with rfl | hc
    · exact ⟨_, .step h rest, le_rfl⟩
    · obtain ⟨p, hp, hlength⟩ := ih hc
      exact ⟨p, hp, hlength.trans (Nat.le_succ _)⟩

/-- No walk that ends meets a node twice. -/
theorem Ends.nodup {a : α} {path : List α} (h : Ends next a path) : path.Nodup := by
  induction h with
  | last _ => exact List.nodup_singleton _
  | @step a b path h rest ih =>
    refine List.nodup_cons.mpr ⟨fun hback => ?_, ih⟩
    obtain ⟨p, hp, hlength⟩ := rest.tail hback
    -- the walk from the node it comes back to would be longer than itself
    rw [hp.unique (.step h rest), List.length_cons] at hlength
    omega

theorem Ends.length_le {a : α} {path nodes : List α} (h : Ends next a path) (hsub : path ⊆ nodes) :
    path.length ≤ nodes.length := (List.subperm_of_subset h.nodup hsub).length_le

theorem Ends.exists_cons {a : α} {path : List α} (h : Ends next a path) :
    ∃ rest, path = a :: rest := by
  cases h with
  | last _ => exact ⟨[], rfl⟩
  | step _ _ => exact ⟨_, rfl⟩

end Trail
end Batiste
