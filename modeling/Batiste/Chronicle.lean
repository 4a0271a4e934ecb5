import Batiste.Transition

/-! Records that are only appended to, where what stands before an entry justifies it. -/
namespace Batiste
namespace Chronicle

variable {α : Type*} (justified : List α → α → Prop)

/-- Every entry is justified by the entries before it. -/
def Told (entries : List α) : Prop :=
  ∀ pre e post, entries = pre ++ e :: post → justified pre e

variable {justified}

theorem told_nil : Told justified [] := by
  intro pre e post h
  simp at h

theorem Told.snoc {entries : List α} (h : Told justified entries) {e : α}
    (he : justified entries e) : Told justified (entries ++ [e]) := by
  intro pre f post hsplit
  rcases Transition.snoc_split hsplit with ⟨rfl, rfl⟩ | ⟨rest, hentries⟩
  · exact he
  · exact h pre f rest hentries

/-- Several entries at once, each justified by the ones before it and the record so far. -/
theorem Told.append {entries more : List α} (h : Told justified entries)
    (hmore : ∀ pre e post, more = pre ++ e :: post → justified (entries ++ pre) e) :
    Told justified (entries ++ more) := by
  induction more using List.reverseRecOn with
  | nil => rwa [List.append_nil]
  | append_singleton more e ih =>
    rw [← List.append_assoc]
    refine Told.snoc (ih fun pre f post hsplit => ?_) (hmore more e [] rfl)
    exact hmore pre f (post ++ [e]) (by simp [hsplit])

theorem Told.initial {entries more : List α} (h : Told justified (entries ++ more)) :
    Told justified entries := by
  intro pre e post hsplit
  exact h pre e (post ++ more) (by simp [hsplit])

end Chronicle
end Batiste
