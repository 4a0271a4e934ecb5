import Mathlib.Data.List.Basic
import Mathlib.Logic.Function.Basic

/-! Keyed stores to which entries are offered: a stored entry with the same body stays, any
other gives way to the entry that is offered. -/
namespace Batiste
namespace KeyedOffer

variable {K V B F : Type*} [DecidableEq K] [DecidableEq B] (body : V → B)

def offer (s : K → Option V) (e : K × V) : K → Option V :=
  if (s e.1).any fun old => decide (body old = body e.2) then s
  else Function.update s e.1 (some e.2)

def offerAll (s : K → Option V) (es : List (K × V)) : K → Option V := es.foldl (offer body) s

variable {body}

@[simp] theorem offerAll_nil (s : K → Option V) : offerAll body s [] = s := rfl

@[simp] theorem offerAll_cons (s : K → Option V) (e : K × V) (es : List (K × V)) :
    offerAll body s (e :: es) = offerAll body (offer body s e) es := rfl

theorem offer_other (s : K → Option V) (e : K × V) {k : K} (h : k ≠ e.1) :
    offer body s e k = s k := by
  unfold offer
  split
  · rfl
  · exact Function.update_of_ne h _ _

/-- An entry of the body that is stored changes nothing. -/
theorem offer_same {s : K → Option V} {e : K × V} {old : V} (hs : s e.1 = some old)
    (hbody : body old = body e.2) : offer body s e = s := by
  unfold offer
  rw [if_pos (by simp [hs, hbody])]

/-- What a key holds once an entry was offered for it. -/
theorem offer_self (body : V → B) (s : K → Option V) (e : K × V) :
    (∃ old, s e.1 = some old ∧ body old = body e.2 ∧ offer body s e e.1 = some old) ∨
      ((∀ old, s e.1 = some old → body old ≠ body e.2) ∧ offer body s e e.1 = some e.2) := by
  unfold offer
  cases hs : s e.1 with
  | none => exact Or.inr (by simp)
  | some old =>
    by_cases hbody : body old = body e.2
    · exact Or.inl ⟨old, rfl, hbody, by simp [hbody, hs]⟩
    · exact Or.inr ⟨by simpa using hbody, by simp [hbody]⟩

/-- A key that no entry is offered for holds what it held. -/
theorem offerAll_other {s : K → Option V} {es : List (K × V)} {k : K} (h : ∀ e ∈ es, k ≠ e.1) :
    offerAll body s es k = s k := by
  induction es generalizing s with
  | nil => rfl
  | cons e es ih =>
    rw [offerAll_cons, ih fun e' he' => h e' (List.mem_cons_of_mem e he')]
    exact offer_other s e (h e List.mem_cons_self)

section Faces

variable {face : V → F} (hface : ∀ v w, face v = face w → body v = body w)

include hface

/-- A key whose entries all have one face keeps that face. -/
theorem offerAll_settled {s : K → Option V} {es : List (K × V)} {k : K} {f : F}
    (hall : ∀ v, (k, v) ∈ es → face v = f) (hs : ∃ w, s k = some w ∧ face w = f) :
    ∃ w, offerAll body s es k = some w ∧ face w = f := by
  induction es generalizing s with
  | nil => exact hs
  | cons e es ih =>
    refine ih (fun v hv => hall v (List.mem_cons_of_mem e hv)) ?_
    obtain ⟨w, hw, hf⟩ := hs
    by_cases hk : k = e.1
    · subst hk
      have hbody := hface w e.2 (hf.trans (hall e.2 List.mem_cons_self).symm)
      exact ⟨w, by rw [offer_same hw hbody, hw], hf⟩
    · exact ⟨w, (offer_other s e hk).trans hw, hf⟩

omit hface in
/-- A stored entry that every offer for its key has the body of stays. -/
theorem offerAll_kept {s : K → Option V} {es : List (K × V)} {k : K} {old : V}
    (hs : s k = some old) (hbody : ∀ e ∈ es, k = e.1 → body old = body e.2) :
    offerAll body s es k = some old := by
  induction es generalizing s with
  | nil => exact hs
  | cons e es ih =>
    refine ih ?_ fun e' he' => hbody e' (List.mem_cons_of_mem e he')
    by_cases hk : k = e.1
    · have hsame := hbody e List.mem_cons_self hk
      subst hk
      rw [offer_same hs hsame, hs]
    · exact (offer_other s e hk).trans hs

/-- The first offer for a key brings its face about, and the others keep it. -/
theorem offerAll_shown {s : K → Option V} {es : List (K × V)} {e : K × V} (he : e ∈ es)
    (hone : ∀ e' ∈ es, e.1 = e'.1 → face e'.2 = face e.2)
    (hstored : ∀ old, s e.1 = some old → body old = body e.2 → face old = face e.2) :
    ∃ w, offerAll body s es e.1 = some w ∧ face w = face e.2 := by
  induction es generalizing s with
  | nil => simp at he
  | cons e' es ih =>
    have hrest := fun e'' he'' => hone e'' (List.mem_cons_of_mem e' he'')
    rw [offerAll_cons]
    by_cases hk : e.1 = e'.1
    · have hf := hone e' List.mem_cons_self hk
      refine offerAll_settled hface (fun v hv => hrest (e.1, v) hv rfl) ?_
      rcases offer_self body s e' with ⟨old, hold, hbody, hkept⟩ | ⟨-, hnew⟩
      · rw [← hk] at hold hkept
        exact ⟨old, hkept, hstored old hold (hbody.trans (hface _ _ hf))⟩
      · rw [← hk] at hnew
        exact ⟨e'.2, hnew, hf⟩
    · have hne : e ≠ e' := fun heq => hk (congrArg Prod.fst heq)
      refine ih ((List.mem_cons.mp he).resolve_left hne) hrest fun old hold => ?_
      exact hstored old ((offer_other s e' hk).symm.trans hold)

/-- After some offers every key shows the entries offered for it, exactly when those of one
key have one face and a stored entry of the same body has it already. -/
theorem offerAll_iff (s : K → Option V) (es : List (K × V)) :
    (∀ e ∈ es, ∃ w, offerAll body s es e.1 = some w ∧ face w = face e.2) ↔
      (∀ e ∈ es, ∀ e' ∈ es, e.1 = e'.1 → face e'.2 = face e.2) ∧
        ∀ e ∈ es, ∀ old, s e.1 = some old → body old = body e.2 → face old = face e.2 := by
  constructor
  · intro hshown
    have hone : ∀ e ∈ es, ∀ e' ∈ es, e.1 = e'.1 → face e'.2 = face e.2 := by
      intro e he e' he' hk
      obtain ⟨w, hw, hf⟩ := hshown e he
      obtain ⟨w', hw', hf'⟩ := hshown e' he'
      rw [hk, hw'] at hw
      exact hf'.symm.trans (Option.some.inj hw ▸ hf)
    refine ⟨hone, fun e he old hold hbody => ?_⟩
    have hkept : offerAll body s es e.1 = some old := offerAll_kept hold fun e' he' hk =>
      hbody.trans (hface _ _ (hone e he e' he' hk).symm)
    obtain ⟨w, hw, hf⟩ := hshown e he
    rw [hkept] at hw
    exact Option.some.inj hw ▸ hf
  · rintro ⟨hone, hstored⟩ e he
    exact offerAll_shown hface he (hone e he) (hstored e he)

end Faces

end KeyedOffer
end Batiste
