import Mathlib.Data.String.Basic
import Mathlib.Tactic

/-! Regular expressions that are matched by trying one length after another: the lengths in the
order in which they are tried, and the language they come from. -/
namespace Batiste
namespace SpanRegex

/-- Repetition is of single characters; it is tried from the longest run on when it is greedy, from
the shortest when it is not. -/
inductive Re
  | eps
  | cls (p : Char → Bool)
  | seq (a b : Re)
  | opt (a : Re)
  | rep (greedy : Bool) (p : Char → Bool) (least : ℕ) (most : Option ℕ)

def lit : List Char → Re
  | [] => .eps
  | c :: cs => .seq (.cls fun d => d == c) (lit cs)

/-- How far a repetition reaches at most. -/
def reach (p : Char → Bool) (most : Option ℕ) (cs : List Char) : ℕ :=
  most.elim (cs.takeWhile p).length (min (cs.takeWhile p).length)

/-- The lengths of the matches at the beginning of a text, in the order in which they are tried. -/
def spans : Re → List Char → List ℕ
  | .eps, _ => [0]
  | .cls _, [] => []
  | .cls p, c :: _ => if p c then [1] else []
  | .seq a b, cs => (spans a cs).flatMap fun n => (spans b (cs.drop n)).map (n + ·)
  | .opt a, cs => spans a cs ++ [0]
  | .rep greedy p least most, cs =>
    let lengths := (List.range (reach p most cs + 1)).filter fun n => decide (least ≤ n)
    if greedy then lengths.reverse else lengths

/-- The words that an expression matches. -/
def Lang : Re → List Char → Prop
  | .eps, w => w = []
  | .cls p, w => ∃ c, p c = true ∧ w = [c]
  | .seq a b, w => ∃ u v, w = u ++ v ∧ Lang a u ∧ Lang b v
  | .opt a, w => Lang a w ∨ w = []
  | .rep _ p least most, w =>
    (∀ c ∈ w, p c = true) ∧ least ≤ w.length ∧ ∀ m ∈ most, w.length ≤ m

/-! ## The lengths are those of the words -/

theorem le_reach_iff {p : Char → Bool} {most : Option ℕ} {cs : List Char} {n : ℕ} :
    n ≤ reach p most cs ↔
      (n ≤ cs.length ∧ ∀ c ∈ cs.take n, p c = true) ∧ ∀ m ∈ most, n ≤ m := by
  have hrun : n ≤ (cs.takeWhile p).length ↔ n ≤ cs.length ∧ ∀ c ∈ cs.take n, p c = true := by
    induction cs generalizing n with
    | nil => simp
    | cons c cs ih =>
      cases n with
      | zero => simp
      | succ n =>
        rw [List.takeWhile_cons, List.take_succ_cons, List.forall_mem_cons, List.length_cons]
        cases hc : p c with
        | false => simp
        | true => simp [ih]
  unfold reach
  cases most with
  | none => simp [hrun]
  | some m => simp [hrun]

theorem mem_spans_rep {greedy : Bool} {p : Char → Bool} {least : ℕ} {most : Option ℕ}
    {cs : List Char} {n : ℕ} :
    n ∈ spans (.rep greedy p least most) cs ↔ n ≤ reach p most cs ∧ least ≤ n := by
  have hlengths : n ∈ (List.range (reach p most cs + 1)).filter (fun n => decide (least ≤ n)) ↔
      n ≤ reach p most cs ∧ least ≤ n := by
    simp
  rw [← hlengths, spans]
  cases greedy with
  | false => simp
  | true => simp

theorem mem_spans {re : Re} {cs : List Char} {n : ℕ} :
    n ∈ spans re cs ↔ ∃ w v, w ++ v = cs ∧ Lang re w ∧ w.length = n := by
  induction re generalizing cs n with
  | eps =>
    constructor
    · intro h
      exact ⟨[], cs, rfl, rfl, (List.mem_singleton.mp h).symm⟩
    · rintro ⟨w, v, hcs, rfl, rfl⟩
      exact List.mem_singleton.mpr rfl
  | cls p =>
    constructor
    · intro h
      cases cs with
      | nil => cases h
      | cons c cs =>
        rw [spans] at h
        split at h
        · rename_i hc
          exact ⟨[c], cs, rfl, ⟨c, hc, rfl⟩, (List.mem_singleton.mp h).symm⟩
        · cases h
    · rintro ⟨w, v, rfl, ⟨c, hc, rfl⟩, rfl⟩
      simp [spans, hc]
  | seq a b iha ihb =>
    rw [spans, List.mem_flatMap]
    constructor
    · rintro ⟨n, hn, hmem⟩
      obtain ⟨k, hk, rfl⟩ := List.mem_map.mp hmem
      obtain ⟨u, v, rfl, hu, rfl⟩ := iha.mp hn
      rw [List.drop_left] at hk
      obtain ⟨u', v', rfl, hu', rfl⟩ := ihb.mp hk
      exact ⟨u ++ u', v', by simp, ⟨u, u', rfl, hu, hu'⟩, by simp⟩
    · rintro ⟨w, v, rfl, ⟨u, u', rfl, hu, hu'⟩, rfl⟩
      refine ⟨u.length, iha.mpr ⟨u, u' ++ v, by simp, hu, rfl⟩, List.mem_map.mpr ⟨u'.length, ?_, by simp⟩⟩
      rw [List.append_assoc, List.drop_left]
      exact ihb.mpr ⟨u', v, rfl, hu', rfl⟩
  | opt a iha =>
    rw [spans, List.mem_append, iha, List.mem_singleton]
    constructor
    · rintro (⟨w, v, rfl, hw, rfl⟩ | rfl)
      · exact ⟨w, v, rfl, .inl hw, rfl⟩
      · exact ⟨[], cs, rfl, .inr rfl, rfl⟩
    · rintro ⟨w, v, rfl, hw | rfl, rfl⟩
      · exact .inl ⟨w, v, rfl, hw, rfl⟩
      · exact .inr rfl
  | rep greedy p least most =>
    rw [mem_spans_rep, le_reach_iff]
    constructor
    · rintro ⟨⟨⟨hlen, hall⟩, hmost⟩, hleast⟩
      have htake : (cs.take n).length = n := List.length_take_of_le hlen
      refine ⟨cs.take n, cs.drop n, List.take_append_drop n cs, ⟨hall, ?_, ?_⟩, htake⟩
      · rwa [htake]
      · rwa [htake]
    · rintro ⟨w, v, rfl, ⟨hall, hleast, hmost⟩, rfl⟩
      refine ⟨⟨⟨by simp, ?_⟩, hmost⟩, hleast⟩
      rwa [List.take_left]

/-! ## What a word of an expression looks like -/

@[simp] theorem lang_lit {cs w : List Char} : Lang (lit cs) w ↔ w = cs := by
  induction cs generalizing w with
  | nil => rfl
  | cons c cs ih =>
    rw [lit, Lang]
    constructor
    · rintro ⟨u, v, rfl, ⟨d, hd, rfl⟩, hv⟩
      rw [ih.mp hv, beq_iff_eq.mp hd]
      rfl
    · rintro rfl
      exact ⟨[c], cs, rfl, ⟨c, beq_self_eq_true c, rfl⟩, ih.mpr rfl⟩

def least : Re → ℕ
  | .eps => 0
  | .cls _ => 1
  | .seq a b => least a + least b
  | .opt _ => 0
  | .rep _ _ n _ => n

/-- The characters that can stand in a word. -/
def admits (c : Char) : Re → Bool
  | .eps => false
  | .cls p => p c
  | .seq a b => admits c a || admits c b
  | .opt a => admits c a
  | .rep _ p _ _ => p c

/-- The characters that can begin a word. -/
def begins (c : Char) : Re → Bool
  | .eps => false
  | .cls p => p c
  | .seq a b => begins c a || (least a == 0 && begins c b)
  | .opt a => begins c a
  | .rep _ p _ _ => p c

/-- The characters that can end a word. -/
def ends (c : Char) : Re → Bool
  | .eps => false
  | .cls p => p c
  | .seq a b => ends c b || (least b == 0 && ends c a)
  | .opt a => ends c a
  | .rep _ p _ _ => p c

variable {re : Re} {w : List Char} {c : Char}

theorem least_le (h : Lang re w) : least re ≤ w.length := by
  induction re generalizing w with
  | eps => exact Nat.zero_le _
  | cls p =>
    obtain ⟨c, -, rfl⟩ := h
    exact le_rfl
  | seq a b iha ihb =>
    obtain ⟨u, v, rfl, hu, hv⟩ := h
    rw [List.length_append]
    exact Nat.add_le_add (iha hu) (ihb hv)
  | opt a => exact Nat.zero_le _
  | rep greedy p n most => exact h.2.1

theorem admits_of_mem (h : Lang re w) (hc : c ∈ w) : admits c re = true := by
  induction re generalizing w with
  | eps => exact absurd hc (by rw [show w = [] from h]; exact List.not_mem_nil)
  | cls p =>
    obtain ⟨d, hd, rfl⟩ := h
    rwa [List.mem_singleton.mp hc]
  | seq a b iha ihb =>
    obtain ⟨u, v, rfl, hu, hv⟩ := h
    rw [admits, Bool.or_eq_true]
    exact (List.mem_append.mp hc).imp (iha hu) (ihb hv)
  | opt a iha =>
    obtain hw | rfl := h
    · exact iha hw hc
    · cases hc
  | rep greedy p n most => exact h.1 c hc

theorem begins_of_head (h : Lang re (c :: w)) : begins c re = true := by
  induction re generalizing w with
  | eps => cases h
  | cls p =>
    obtain ⟨d, hd, heq⟩ := h
    rwa [(List.cons.inj heq).1]
  | seq a b iha ihb =>
    obtain ⟨u, v, heq, hu, hv⟩ := h
    rw [begins, Bool.or_eq_true, Bool.and_eq_true, beq_iff_eq]
    cases u with
    | nil =>
      rw [List.nil_append] at heq
      exact .inr ⟨Nat.le_zero.mp (least_le hu), ihb (heq ▸ hv)⟩
    | cons d u =>
      rw [List.cons_append] at heq
      exact .inl (iha ((List.cons.inj heq).1 ▸ hu))
  | opt a iha =>
    obtain hw | hw := h
    · exact iha hw
    · cases hw
  | rep greedy p n most => exact h.1 c List.mem_cons_self

theorem ends_of_last (h : Lang re (w ++ [c])) : ends c re = true := by
  induction re generalizing w with
  | eps => exact absurd h (by simp [Lang])
  | cls p =>
    obtain ⟨d, hd, heq⟩ := h
    rwa [(List.append_inj' (heq.trans (List.nil_append [d]).symm) rfl).2 |> List.singleton_inj.mp]
  | seq a b iha ihb =>
    obtain ⟨u, v, heq, hu, hv⟩ := h
    rw [ends, Bool.or_eq_true, Bool.and_eq_true, beq_iff_eq]
    rcases List.eq_nil_or_concat' v with rfl | ⟨v, d, rfl⟩
    · rw [List.append_nil] at heq
      exact .inr ⟨Nat.le_zero.mp (least_le hv), iha (heq ▸ hu)⟩
    · rw [← List.append_assoc] at heq
      obtain rfl := List.singleton_inj.mp (List.append_inj' heq rfl).2
      exact .inl (ihb hv)
  | opt a iha =>
    obtain hw | hw := h
    · exact iha hw
    · simp at hw
  | rep greedy p n most => exact h.1 c (by simp)

/-! ## Greedy ends -/

/-- The class of the unbounded greedy repetition that an expression ends with. -/
def trailing : Re → Option (Char → Bool)
  | .seq _ b => trailing b
  | .rep true p _ none => some p
  | _ => none

theorem not_run_after {p : Char → Bool} {cs : List Char} :
    ∀ c ∈ (cs.drop (cs.takeWhile p).length).head?, p c = false := by
  induction cs with
  | nil => simp
  | cons c cs ih =>
    rw [List.takeWhile_cons]
    cases hc : p c with
    | false => simpa using hc
    | true => simpa using ih

/-- The first match that is tried is followed by no further character of the run it ends with. -/
theorem not_trailing_after {p : Char → Bool} {cs : List Char} {n : ℕ} (htrail : trailing re = some p)
    (h : (spans re cs).head? = some n) : ∀ c ∈ (cs.drop n).head?, p c = false := by
  induction re generalizing cs n with
  | eps => cases htrail
  | cls q => cases htrail
  | opt a => cases htrail
  | seq a b iha ihb =>
    rw [spans, List.head?_flatMap] at h
    obtain ⟨k, -, hk⟩ := List.exists_of_findSome?_eq_some h
    rw [List.head?_map, Option.map_eq_some_iff] at hk
    obtain ⟨m, hm, rfl⟩ := hk
    rw [← List.drop_drop]
    exact ihb htrail hm
  | rep greedy q least most =>
    cases greedy with
    | false => cases htrail
    | true =>
      cases most with
      | some m => cases htrail
      | none =>
        obtain rfl := Option.some.inj htrail
        have hmem := mem_spans_rep.mp (List.mem_of_mem_head? h)
        have hleast : least ≤ reach q none cs := hmem.2.trans hmem.1
        rw [spans, List.range_succ, List.filter_append, List.filter_cons_of_pos (by simpa using hleast),
          List.filter_nil, if_pos rfl, List.reverse_append] at h
        have hn : reach q none cs = n := Option.some.inj h
        rw [← hn, show reach q none cs = (cs.takeWhile q).length from rfl]
        exact not_run_after

end SpanRegex
end Batiste
