import Batiste.Designators

/-! The score of two indexed tasks with all its parts, and what it says of the same two tasks in
the other order. The arithmetic is that of an ordered field. -/
namespace Batiste
namespace ScoreOrder

open Designators

variable {K : Type}

/-! ## The source -/

/-- An indexed task. A `Map` or a `Set` holds every key once, in the order of insertion. -/
structure Doc (K : Type) where
  label : String
  feats : Dict K
  labelToks : List String
  refs : List String
  product : Option String
  prefixOf : String
  desig : List String
  feats_nodup : (feats.map Prod.fst).Nodup
  labelToks_nodup : labelToks.Nodup
  refs_nodup : refs.Nodup
  desig_nodup : desig.Nodup

structure SimIndex (K : Type) where
  docs : Dict (Doc K)
  idf : Dict K
  refDf : Dict ℕ
  norms : Dict K

inductive SimKind
  | same | related | distinct
  deriving DecidableEq, Repr

structure SimResult (K : Type) where
  score : K
  kind : SimKind
  cosine : K
  bonus : K
  penalty : K
  sharedRefs : List String

/-- `x === y || (Math.min(x.length, y.length) >= 3 && (x.startsWith(y) || y.startsWith(x)))` -/
def sameProduct (x y : String) : Bool :=
  x == y || decide (3 ≤ min (JsString.codeUnits x).length (JsString.codeUnits y).length) &&
    (y.toList.isPrefixOf x.toList || x.toList.isPrefixOf y.toList)

/-- The products of two tasks that have one, or an empty one, which counts as none. -/
def products (a b : Doc K) : Option (String × String) :=
  if a.product.getD "" ≠ "" ∧ b.product.getD "" ≠ "" then
    some (a.product.getD "", b.product.getD "")
  else none

/-- A designator of the second task is not the one that is kept of its kind for the first. -/
def capped (a b : Doc K) : Bool :=
  decide (a.desig ≠ [] ∧ b.desig ≠ []) &&
    b.desig.any fun d => ((byKind a.desig).get? (kind d)).any fun o => o != d

def sameDesignators (a b : Doc K) : Bool :=
  decide (a.desig.length = b.desig.length) && a.desig.all fun d => d ∈ b.desig

section Score

variable [Field K] [LinearOrder K] [IsStrictOrderedRing K] [FloorRing K]

def clamp (x : K) : K := max 0 (min 1 x)

def toThousandths (x : K) : K := ⌊x * 1000 + 1 / 2⌋ / 1000

def classify (score : K) : SimKind :=
  if 8 / 10 ≤ score then .same else if 5 / 10 ≤ score then .related else .distinct

variable (normalizeText : String → String) (ix : SimIndex K)

def idfOf (key : String) : K := (ix.idf.get? key).getD 0

/-- The features of the smaller task that the larger one has too. -/
def dot (a b : Doc K) : K :=
  let (small, big) := if a.feats.length ≤ b.feats.length then (a, b) else (b, a)
  (small.feats.map fun e =>
    (big.feats.get? e.1).elim 0 fun w2 => e.2 * w2 * idfOf ix e.1 ^ 2).sum

def cosine (aId bId : String) (a b : Doc K) : K :=
  let na := (ix.norms.get? aId).getD 0
  let nb := (ix.norms.get? bId).getD 0
  if na ≠ 0 ∧ nb ≠ 0 then dot ix a b / (na * nb) else 0

def tokenWeight (tokens : List String) : K := (tokens.map fun k => idfOf ix ("u:" ++ k)).sum

/-- How much of the weight of the shorter label is in the longer one; of labels of one length the
first counts as the shorter. -/
def containment (a b : Doc K) : K :=
  let (lo, hi) := if a.labelToks.length ≤ b.labelToks.length then (a, b) else (b, a)
  if 3 ≤ lo.labelToks.length then
    let shared := tokenWeight ix (lo.labelToks.filter fun k => k ∈ hi.labelToks)
    let total := tokenWeight ix lo.labelToks
    let ratio := if total ≠ 0 then shared / total else 0
    if 7 / 10 ≤ ratio then min (75 / 100) (85 / 100 * ratio) else 0
  else 0

def sharedRefs (a b : Doc K) : List String :=
  a.refs.filter fun r => r ∈ b.refs ∧ (ix.refDf.get? r).getD 0 ≤ 4

def bonus (a b : Doc K) : K :=
  (if a.prefixOf ≠ "" ∧ a.prefixOf = b.prefixOf then 4 / 100 else 0) +
    (if (products a b).any fun p => sameProduct p.1 p.2 then 4 / 100 else 0) +
      if sharedRefs ix a b ≠ [] then
        min (25 / 100) (15 / 100 + 5 / 100 * (((sharedRefs ix a b).length : K) - 1))
      else 0

def penalty (a b : Doc K) : K :=
  (if (products a b).any fun p => !sameProduct p.1 p.2 then 15 / 100 else 0) +
    if a.desig ≠ [] ∧ b.desig ≠ [] ∧ sameDesignators a b = false then 2 / 10 else 0

def siblingCap (a b : Doc K) : K := if capped a b then 45 / 100 else 1

def identical (a b : Doc K) : Bool :=
  JsString.trim (normalizeText a.label).toList == JsString.trim (normalizeText b.label).toList

/-- `score` before it is rounded. -/
def pairScore (aId bId : String) (a b : Doc K) : K :=
  if identical normalizeText a b then 1
  else min (siblingCap a b) (clamp
    (max (cosine ix aId bId a b) (containment ix a b) + bonus ix a b - penalty a b))

def must (found : Option (Doc K)) (id : String) : Except String (Doc K) :=
  found.elim (.error ("invariante violada: tarefa " ++ id ++ " fora do indice")) .ok

def scoreIndexed (aId bId : String) : Except String (SimResult K) := do
  let a ← must (ix.docs.get? aId) aId
  let b ← must (ix.docs.get? bId) bId
  let score := pairScore normalizeText ix aId bId a b
  return {
    score := toThousandths score
    kind := classify score
    cosine := toThousandths (cosine ix aId bId a b)
    bonus := toThousandths (bonus ix a b)
    penalty := toThousandths (penalty a b)
    sharedRefs := sharedRefs ix a b }

end Score

/-! ## The parts that do not depend on the order -/

section Keyed

variable {β γ M : Type} [AddCommMonoid M]

/-- A sum over the keys that two maps share: what a key of the first contributes is the sum over the
second of what it contributes with that key. -/
theorem sum_elim_get? {e : Dict γ} (he : (e.map Prod.fst).Nodup) (key : String) (f : γ → M) :
    (Dict.get? e key).elim 0 f = (e.map fun y => if y.1 = key then f y.2 else 0).sum := by
  induction e with
  | nil => rfl
  | cons y e ih =>
    obtain ⟨hy, hrest⟩ := List.nodup_cons.mp he
    rw [Dict.get?_cons, List.map_cons, List.sum_cons, ← ih hrest]
    by_cases hkey : y.1 = key
    · have hnone : Dict.get? e key = none := Dict.get?_eq_none.mpr (hkey ▸ hy)
      simp [hkey, hnone]
    · simp [hkey]

theorem sum_shared_comm {d : Dict β} {e : Dict γ} (hd : (d.map Prod.fst).Nodup)
    (he : (e.map Prod.fst).Nodup) (f : String → β → γ → M) :
    (d.map fun x => (Dict.get? e x.1).elim 0 fun w => f x.1 x.2 w).sum =
      (e.map fun y => (Dict.get? d y.1).elim 0 fun w => f y.1 w y.2).sum := by
  induction d with
  | nil => simp
  | cons x d ih =>
    obtain ⟨hx, hrest⟩ := List.nodup_cons.mp hd
    rw [List.map_cons, List.sum_cons, ih hrest, sum_elim_get? he, ← List.sum_map_add]
    congr 1
    refine List.map_congr_left fun y _ => ?_
    rw [Dict.get?_cons]
    by_cases hkey : y.1 = x.1
    · have hnone : Dict.get? d x.1 = none := Dict.get?_eq_none.mpr hx
      simp [hkey, hnone]
    · have hkey' : ¬ x.1 = y.1 := fun h => hkey h.symm
      simp [hkey, hkey']

end Keyed

/-- What two lists without repetition share, in the order of either. -/
theorem filter_mem_perm {l l' : List String} (h : l.Nodup) (h' : l'.Nodup) (p : String → Bool) :
    (l.filter fun k => decide (k ∈ l') && p k).Perm (l'.filter fun k => decide (k ∈ l) && p k) := by
  rw [List.perm_ext_iff_of_nodup (h.filter _) (h'.filter _)]
  intro k
  simp only [List.mem_filter, Bool.and_eq_true, decide_eq_true_eq]
  tauto

theorem sameDesignators_comm (a b : Doc K) : sameDesignators a b = sameDesignators b a := by
  have himp : ∀ a b : Doc K, sameDesignators a b = true → sameDesignators b a = true := by
    intro a b h
    simp only [sameDesignators, Bool.and_eq_true, decide_eq_true_eq, List.all_eq_true] at h ⊢
    obtain ⟨hlength, hsub⟩ := h
    have hperm := (List.subperm_of_subset a.desig_nodup hsub).perm_of_length_le hlength.ge
    exact ⟨hlength.symm, fun d hd => hperm.mem_iff.mpr hd⟩
  rw [Bool.eq_iff_iff]
  exact ⟨himp a b, himp b a⟩

theorem sameProduct_comm (x y : String) : sameProduct x y = sameProduct y x := by
  rw [sameProduct, sameProduct, min_comm, Bool.or_comm (y.toList.isPrefixOf x.toList), Bool.beq_comm]

theorem products_comm (a b : Doc K) : products b a = (products a b).map Prod.swap := by
  unfold products
  by_cases h : a.product.getD "" ≠ "" ∧ b.product.getD "" ≠ ""
  · rw [if_pos h, if_pos h.symm, Option.map_some, Prod.swap_prod_mk]
  · rw [if_neg h, if_neg fun h' => h h'.symm, Option.map_none]

section Parts

variable (ix : SimIndex K) (a b : Doc K)

theorem sharedRefs_perm : (sharedRefs ix a b).Perm (sharedRefs ix b a) := by
  have hperm := filter_mem_perm a.refs_nodup b.refs_nodup
    fun r => decide ((ix.refDf.get? r).getD 0 ≤ 4)
  simpa only [sharedRefs, Bool.decide_and] using hperm

theorem identical_comm (normalizeText : String → String) :
    identical normalizeText a b = identical normalizeText b a := Bool.beq_comm

variable [Field K]

theorem dot_comm : dot ix a b = dot ix b a := by
  unfold dot
  rcases lt_trichotomy a.feats.length b.feats.length with hlt | heq | hgt
  · rw [if_pos hlt.le, if_neg (not_le.mpr hlt)]
  · rw [if_pos heq.le, if_pos heq.ge]
    refine (sum_shared_comm a.feats_nodup b.feats_nodup
      fun key w w2 => w * w2 * idfOf ix key ^ 2).trans ?_
    simp only [mul_comm]
  · rw [if_neg (not_le.mpr hgt), if_pos hgt.le]

theorem penalty_comm : penalty a b = penalty b a := by
  have hproduct : ((products b a).any fun p => !sameProduct p.1 p.2) =
      (products a b).any fun p => !sameProduct p.1 p.2 := by
    rw [products_comm, Option.any_map]
    congr 1
    funext p
    exact congrArg not (sameProduct_comm p.2 p.1)
  unfold penalty
  rw [hproduct, sameDesignators_comm a b]
  simp only [and_left_comm]

variable [LinearOrder K]

theorem cosine_comm (aId bId : String) : cosine ix aId bId a b = cosine ix bId aId b a := by
  unfold cosine
  simp only [dot_comm ix a b, mul_comm ((ix.norms.get? aId).getD 0), and_comm]

theorem bonus_comm : bonus ix a b = bonus ix b a := by
  have hfirst : (a.prefixOf ≠ "" ∧ a.prefixOf = b.prefixOf) ↔
      (b.prefixOf ≠ "" ∧ b.prefixOf = a.prefixOf) := by
    constructor
    · rintro ⟨hne, heq⟩
      exact ⟨heq ▸ hne, heq.symm⟩
    · rintro ⟨hne, heq⟩
      exact ⟨heq ▸ hne, heq.symm⟩
  have hproduct : ((products b a).any fun p => sameProduct p.1 p.2) =
      (products a b).any fun p => sameProduct p.1 p.2 := by
    rw [products_comm, Option.any_map]
    congr 1
    funext p
    exact sameProduct_comm p.2 p.1
  have hlength := (sharedRefs_perm ix a b).length_eq
  have hempty : sharedRefs ix a b ≠ [] ↔ sharedRefs ix b a ≠ [] := by
    rw [← List.length_pos_iff, ← List.length_pos_iff, hlength]
  unfold bonus
  simp only [hfirst, hproduct, hempty, hlength]

end Parts

/-! ## Thousandths -/

section Thousandths

variable [Field K] [LinearOrder K] [IsStrictOrderedRing K]

/-- Where the rounding steps from `n` thousandths to the next. -/
def boundary (n : ℕ) : K := (n + 1 / 2) / 1000

theorem boundary_mono {m n : ℕ} (h : m ≤ n) : (boundary m : K) ≤ boundary n := by
  unfold boundary
  gcongr

theorem boundary_pos (n : ℕ) : (0 : K) < boundary n := by
  unfold boundary
  positivity

theorem boundary_le_div_iff (n m : ℕ) : (boundary n : K) ≤ m / 1000 ↔ n < m := by
  have hstep : (n : K) + 1 / 2 ≤ m ↔ n < m := by
    constructor
    · intro h
      have hlt : (n : K) < m := by linarith
      exact_mod_cast hlt
    · intro h
      have hle : (n : K) + 1 ≤ m := by exact_mod_cast h
      linarith
  rw [boundary, div_le_div_iff_of_pos_right (by norm_num), hstep]

theorem boundary_le_one {n : ℕ} (h : n < 1000) : (boundary n : K) ≤ 1 := by
  have hle := (boundary_le_div_iff (K := K) n 1000).mpr h
  norm_num at hle
  exact hle

theorem boundary_le_cap_iff (n : ℕ) : (boundary n : K) ≤ 45 / 100 ↔ n < 450 := by
  rw [← boundary_le_div_iff (K := K)]
  norm_num

variable [FloorRing K]

theorem boundary_le_iff (n : ℕ) (x : K) : boundary n ≤ x ↔ (n : ℤ) + 1 ≤ ⌊x * 1000 + 1 / 2⌋ := by
  rw [Int.le_floor, boundary, div_le_iff₀ (by norm_num)]
  push_cast
  constructor <;> intro h <;> linarith

/-- Two values round to the same number of thousandths when no step lies between them. -/
theorem toThousandths_eq_iff {x y : K} (hx : 0 ≤ x) (hx' : x ≤ 1) (hy : 0 ≤ y) (hy' : y ≤ 1) :
    toThousandths x = toThousandths y ↔ ∀ n < 1000, boundary n ≤ x ↔ boundary n ≤ y := by
  have hle : ∀ x y : K, 0 ≤ y → x ≤ 1 → (∀ n < 1000, boundary n ≤ x → boundary n ≤ y) →
      ⌊x * 1000 + 1 / 2⌋ ≤ ⌊y * 1000 + 1 / 2⌋ := by
    intro x y hy hx hsteps
    have hnonneg : 0 ≤ ⌊y * 1000 + 1 / 2⌋ := Int.floor_nonneg.mpr (by linarith)
    have hmost : ⌊x * 1000 + 1 / 2⌋ ≤ 1000 := by
      rw [← Int.lt_add_one_iff, Int.floor_lt]
      push_cast
      linarith
    by_cases hpos : ⌊x * 1000 + 1 / 2⌋ ≤ 0
    · exact hpos.trans hnonneg
    · obtain ⟨n, hn⟩ : ∃ n : ℕ, (n : ℤ) + 1 = ⌊x * 1000 + 1 / 2⌋ :=
        ⟨(⌊x * 1000 + 1 / 2⌋ - 1).toNat, by omega⟩
      rw [← hn, ← boundary_le_iff]
      exact hsteps n (by omega) ((boundary_le_iff n x).mpr hn.le)
  have hfloor : toThousandths x = toThousandths y ↔
      ⌊x * 1000 + 1 / 2⌋ = ⌊y * 1000 + 1 / 2⌋ := by
    unfold toThousandths
    rw [div_left_inj' (by norm_num), Int.cast_inj]
  rw [hfloor]
  constructor
  · intro heq n _
    rw [boundary_le_iff, boundary_le_iff, heq]
  · intro hsteps
    exact le_antisymm (hle x y hy hx' fun n hn => (hsteps n hn).mp)
      (hle y x hx hy' fun n hn => (hsteps n hn).mpr)

end Thousandths

/-! ## The two orders -/

section Orders

variable [Field K] [LinearOrder K] (ix : SimIndex K)

/-- What is added to the cosine or the containment. -/
def margin (a b : Doc K) : K := bonus ix a b - penalty a b

/-- The labels have as many tokens, enough to be compared, but weigh differently. -/
def Tied (a b : Doc K) : Prop :=
  a.labelToks.length = b.labelToks.length ∧ 3 ≤ a.labelToks.length ∧
    tokenWeight ix a.labelToks ≠ tokenWeight ix b.labelToks

/-- Where the first order sees no conflict of siblings that the other one sees, the score stays
below the step behind the cap. -/
def Unseen (aId bId : String) (a b : Doc K) : Prop :=
  capped a b = false → capped b a = true →
    max (cosine ix aId bId a b) (containment ix a b) + margin ix a b < boundary 450

/-- What makes the order of two tasks not matter. Between labels that tie, the containments reach
the same steps, of those that the cap allows and the cosine does not reach. -/
structure Balanced (aId bId : String) (a b : Doc K) : Prop where
  tied : Tied ix a b → ∀ n < 1000, (capped a b = true ∨ capped b a = true → n < 450) →
    cosine ix aId bId a b + margin ix a b < boundary n →
      (boundary n ≤ containment ix a b + margin ix a b ↔
        boundary n ≤ containment ix b a + margin ix a b)
  unseen : Unseen ix aId bId a b
  unseen' : Unseen ix bId aId b a

theorem margin_comm (a b : Doc K) : margin ix a b = margin ix b a := by
  rw [margin, margin, bonus_comm ix a b, penalty_comm a b]

/-- The containment depends on the order between tied labels only. -/
theorem containment_comm {a b : Doc K} (h : ¬ Tied ix a b) :
    containment ix a b = containment ix b a := by
  unfold containment
  rcases lt_trichotomy a.labelToks.length b.labelToks.length with hlt | heq | hgt
  · rw [if_pos hlt.le, if_neg (not_le.mpr hlt)]
  · rw [if_pos heq.le, if_pos heq.ge]
    simp only [heq]
    by_cases hthree : 3 ≤ b.labelToks.length
    · have htotal : tokenWeight ix a.labelToks = tokenWeight ix b.labelToks := by
        by_contra hne
        exact h ⟨heq, heq ▸ hthree, hne⟩
      have hperm := filter_mem_perm a.labelToks_nodup b.labelToks_nodup fun _ => true
      simp only [Bool.and_true] at hperm
      have hshared : tokenWeight ix (a.labelToks.filter fun k => k ∈ b.labelToks) =
          tokenWeight ix (b.labelToks.filter fun k => k ∈ a.labelToks) := (hperm.map _).sum_eq
      rw [hshared, htotal]
    · rw [if_neg hthree, if_neg hthree]
  · rw [if_neg (not_le.mpr hgt), if_pos hgt.le]

variable [IsStrictOrderedRing K]

theorem boundary_le_clamp_iff {n : ℕ} (hn : n < 1000) (x : K) :
    boundary n ≤ clamp x ↔ boundary n ≤ x := by
  rw [clamp, le_max_iff, le_min_iff]
  constructor
  · rintro (h | ⟨-, h⟩)
    · exact absurd (boundary_pos n) (not_lt.mpr h)
    · exact h
  · exact fun h => .inr ⟨boundary_le_one hn, h⟩

theorem boundary_le_siblingCap_iff {n : ℕ} (hn : n < 1000) (a b : Doc K) :
    (boundary n : K) ≤ siblingCap a b ↔ (capped a b = true → n < 450) := by
  unfold siblingCap
  split_ifs with hcap
  · simpa [hcap] using boundary_le_cap_iff n
  · simpa [hcap] using boundary_le_one hn

/-- The cosine or the containment brings the pair to a step. -/
def Reaches (aId bId : String) (a b : Doc K) (n : ℕ) : Prop :=
  boundary n ≤ cosine ix aId bId a b + margin ix a b ∨
    boundary n ≤ containment ix a b + margin ix a b

theorem Reaches.mono {ix : SimIndex K} {aId bId : String} {a b : Doc K} {m n : ℕ} (hmn : m ≤ n)
    (h : Reaches ix aId bId a b n) : Reaches ix aId bId a b m :=
  h.imp (boundary_mono hmn).trans (boundary_mono hmn).trans

/-- The steps that the score of different labels reaches. -/
theorem boundary_le_score_iff {n : ℕ} (hn : n < 1000) (aId bId : String) (a b : Doc K) :
    boundary n ≤ min (siblingCap a b) (clamp (max (cosine ix aId bId a b) (containment ix a b) +
        bonus ix a b - penalty a b)) ↔
      (capped a b = true → n < 450) ∧ Reaches ix aId bId a b n := by
  rw [le_min_iff, boundary_le_siblingCap_iff hn, boundary_le_clamp_iff hn, add_sub_assoc,
    ← margin, ← max_add_add_right, le_max_iff, Reaches]

theorem score_range (x : K) (a b : Doc K) :
    0 ≤ min (siblingCap a b) (clamp x) ∧ min (siblingCap a b) (clamp x) ≤ 1 := by
  have hcap : (0 : K) ≤ siblingCap a b := by
    unfold siblingCap
    split_ifs <;> norm_num
  exact ⟨le_min hcap (le_max_left 0 _),
    (min_le_right _ _).trans (max_le zero_le_one (min_le_left 1 _))⟩

theorem unseen_iff (aId bId : String) (a b : Doc K) : Unseen ix aId bId a b ↔
    (¬ capped a b = true → capped b a = true → ¬ Reaches ix aId bId a b 450) := by
  rw [Unseen, ← max_add_add_right, Bool.not_eq_true, Reaches, ← le_max_iff, not_le]

omit [IsStrictOrderedRing K] in
/-- Up to the cap the orders reach the same steps where tied labels do not set them apart. -/
theorem reaches_comm_iff (aId bId : String) (a b : Doc K) (cap : ℕ → Prop) :
    (∀ n < 1000, cap n → (Reaches ix aId bId a b n ↔ Reaches ix bId aId b a n)) ↔
      (Tied ix a b → ∀ n < 1000, cap n → cosine ix aId bId a b + margin ix a b < boundary n →
        (boundary n ≤ containment ix a b + margin ix a b ↔
          boundary n ≤ containment ix b a + margin ix a b)) := by
  unfold Reaches
  rw [← cosine_comm ix a b aId bId, ← margin_comm ix a b]
  constructor
  · intro h _ n hn hcap hbelow
    have hnot := not_le.mpr hbelow
    simpa only [hnot, false_or] using h n hn hcap
  · intro h n hn hcap
    by_cases htied : Tied ix a b
    · by_cases hcosine : boundary n ≤ cosine ix aId bId a b + margin ix a b
      · exact iff_of_true (.inl hcosine) (.inl hcosine)
      · exact or_congr Iff.rfl (h htied n hn hcap (not_le.mp hcosine))
    · rw [containment_comm ix htied]

omit [Field K] [LinearOrder K] [IsStrictOrderedRing K] in
/-- Two scores, of which either may be capped, reach the same steps. -/
theorem capped_steps_iff {c c' : Prop} {r r' : ℕ → Prop} {cap top : ℕ} (htop : cap < top)
    (hr : ∀ m n, m ≤ n → r n → r m) (hr' : ∀ m n, m ≤ n → r' n → r' m) :
    (∀ n < top, ((c → n < cap) ∧ r n ↔ (c' → n < cap) ∧ r' n)) ↔
      (∀ n < top, (c ∨ c' → n < cap) → (r n ↔ r' n)) ∧
        (¬ c → c' → ¬ r cap) ∧ (¬ c' → c → ¬ r' cap) := by
  constructor
  · intro h
    refine ⟨fun n hn hcap => ?_, fun hc hc' hreach => ?_, fun hc' hc hreach => ?_⟩
    · have hstep := h n hn
      grind
    · exact lt_irrefl cap (((h cap htop).mp ⟨fun hc'' => absurd hc'' hc, hreach⟩).1 hc')
    · exact lt_irrefl cap (((h cap htop).mpr ⟨fun hc'' => absurd hc'' hc', hreach⟩).1 hc)
  · rintro ⟨hsame, hunseen, hunseen'⟩ n hn
    by_cases hcap : n < cap
    · simpa only [hcap, implies_true, true_and] using hsame n hn fun _ => hcap
    · -- behind the cap: a score that is not capped does not come this far either
      have hle := not_lt.mp hcap
      have hback := hr cap n hle
      have hback' := hr' cap n hle
      have hfree := hsame n hn
      grind

variable [FloorRing K] (normalizeText : String → String)

theorem toThousandths_pairScore_eq_iff (aId bId : String) {a b : Doc K}
    (hlabels : identical normalizeText a b = false) :
    toThousandths (pairScore normalizeText ix aId bId a b) =
        toThousandths (pairScore normalizeText ix bId aId b a) ↔ Balanced ix aId bId a b := by
  have hlabels' := (identical_comm b a normalizeText).trans hlabels
  have hscore : ∀ aId bId (a b : Doc K), identical normalizeText a b = false →
      pairScore normalizeText ix aId bId a b = min (siblingCap a b) (clamp
        (max (cosine ix aId bId a b) (containment ix a b) + bonus ix a b - penalty a b)) := by
    intro aId bId a b h
    rw [pairScore, h, if_neg Bool.false_ne_true]
  rw [hscore aId bId a b hlabels, hscore bId aId b a hlabels',
    toThousandths_eq_iff (score_range _ a b).1 (score_range _ a b).2 (score_range _ b a).1
      (score_range _ b a).2]
  have hsteps : (∀ n < 1000, _ ↔ _) ↔ ∀ n < 1000,
      ((capped a b = true → n < 450) ∧ Reaches ix aId bId a b n ↔
        (capped b a = true → n < 450) ∧ Reaches ix bId aId b a n) :=
    forall₂_congr fun n hn => iff_congr (boundary_le_score_iff ix hn aId bId a b)
      (boundary_le_score_iff ix hn bId aId b a)
  rw [hsteps, capped_steps_iff (by norm_num) (fun _ _ => Reaches.mono) fun _ _ => Reaches.mono,
    reaches_comm_iff, ← unseen_iff, ← unseen_iff]
  constructor
  · rintro ⟨htied, hunseen, hunseen'⟩
    exact ⟨htied, hunseen, hunseen'⟩
  · intro h
    exact ⟨h.tied, h.unseen, h.unseen'⟩

/-- Two indexed tasks have one score in both orders. -/
def Symmetric (aId bId : String) : Prop :=
  (scoreIndexed normalizeText ix aId bId).map SimResult.score =
    (scoreIndexed normalizeText ix bId aId).map SimResult.score

theorem scoreIndexed_symmetric_iff {aId bId : String} {a b : Doc K}
    (ha : ix.docs.get? aId = some a) (hb : ix.docs.get? bId = some b) :
    Symmetric ix normalizeText aId bId ↔
      identical normalizeText a b = true ∨ Balanced ix aId bId a b := by
  have hscores : Symmetric ix normalizeText aId bId ↔
      toThousandths (pairScore normalizeText ix aId bId a b) =
        toThousandths (pairScore normalizeText ix bId aId b a) := by
    simp [Symmetric, scoreIndexed, must, ha, hb, Except.map, bind, Except.bind, pure, Except.pure]
  rw [hscores]
  cases hlabels : identical normalizeText a b with
  | false =>
    rw [toThousandths_pairScore_eq_iff ix normalizeText aId bId hlabels]
    simp
  | true =>
    have hlabels' := (identical_comm b a normalizeText).trans hlabels
    simp [pairScore, hlabels, hlabels']

end Orders

/-! ## Where the order cannot matter -/

theorem get?_byKind {desig : List String} (hkinds : (desig.map kind).Nodup) {key o : String} :
    (byKind desig).get? key = some o ↔ o ∈ desig ∧ kind o = key := by
  constructor
  · exact mem_byKind
  · rintro ⟨ho, rfl⟩
    have hkeys : ((desig.map fun d => (kind d, d)).map Prod.fst).Nodup := by
      rwa [List.map_map]
    rw [byKind, Dict.get?_spread_of_nodup _ hkeys,
      Dict.get?_of_mem hkeys (List.mem_map_of_mem ho), Option.some_or]

/-- With one designator of a kind, a conflict is seen from either side. -/
theorem capped_comm {a b : Doc K} (ha : (a.desig.map kind).Nodup)
    (hb : (b.desig.map kind).Nodup) : capped a b = capped b a := by
  have himp : ∀ a b : Doc K, (a.desig.map kind).Nodup → (b.desig.map kind).Nodup →
      capped a b = true → capped b a = true := by
    intro a b ha hb h
    simp only [capped, Bool.and_eq_true, decide_eq_true_eq, List.any_eq_true, Option.any_eq_true,
      bne_iff_ne] at h ⊢
    obtain ⟨⟨hane, hbne⟩, d, hd, o, hget, hne⟩ := h
    obtain ⟨ho, hkind⟩ := (get?_byKind ha).mp hget
    exact ⟨⟨hbne, hane⟩, o, ho, d, (get?_byKind hb).mpr ⟨hd, hkind.symm⟩, hne.symm⟩
  rw [Bool.eq_iff_iff]
  exact ⟨himp a b ha hb, himp b a hb ha⟩

/-- Labels of different lengths or of one weight, and no two designators of a kind. -/
theorem balanced_of_single [Field K] [LinearOrder K] [IsStrictOrderedRing K] (ix : SimIndex K)
    (aId bId : String) {a b : Doc K} (htied : ¬ Tied ix a b) (ha : (a.desig.map kind).Nodup)
    (hb : (b.desig.map kind).Nodup) : Balanced ix aId bId a b where
  tied h := absurd h htied
  unseen hopen hcapped := by rw [capped_comm ha hb, hcapped] at hopen; cases hopen
  unseen' hopen hcapped := by rw [← capped_comm ha hb, hcapped] at hopen; cases hopen

/-! ## The scores of a board -/

section Board

variable (normalizeText : String → String) (designators : String → List String)
  (doc : Task → Doc ℚ) (ix : List Task → SimIndex ℚ)

/-- The parts of a score, read off an index. -/
def reader : Reader where
  normalizeText label := String.ofList (JsString.trim (normalizeText label).toList)
  designators := designators
  cosine tasks s t := cosine (ix tasks) s.id t.id (doc s) (doc t)
  containment tasks s t := containment (ix tasks) (doc s) (doc t)
  bonus tasks s t := bonus (ix tasks) (doc s) (doc t)
  productPenalty _ s t :=
    if (products (doc s) (doc t)).any fun p => !sameProduct p.1 p.2 then 15 / 100 else 0

variable {normalizeText designators doc}

theorem designators_siblingCap (s t : Doc ℚ) :
    Designators.siblingCap s.desig t.desig = siblingCap s t := by
  rw [Designators.siblingCap, siblingCap, capped]
  simp [and_assoc]

theorem pairScore_reader (hlabel : ∀ t, (doc t).label = t.label)
    (hdesig : ∀ t, (doc t).desig = designators t.label) (tasks : List Task)
    (s t : Task) :
    Designators.pairScore (reader normalizeText designators doc ix) tasks s t =
      pairScore normalizeText (ix tasks) s.id t.id (doc s) (doc t) := by
  have hidentical : identical normalizeText (doc s) (doc t) = true ↔
      (reader normalizeText designators doc ix).normalizeText s.label =
        (reader normalizeText designators doc ix).normalizeText t.label := by
    rw [identical, beq_iff_eq, hlabel, hlabel]
    exact String.ofList_inj.symm
  have hpenalty : designatorPenalty (doc s).desig (doc t).desig =
      if (doc s).desig ≠ [] ∧ (doc t).desig ≠ [] ∧ sameDesignators (doc s) (doc t) = false
        then 2 / 10 else 0 := by
    rw [designatorPenalty]
    simp [sameDesignators]
  rw [pairScore, penalty, ← hpenalty, ← designators_siblingCap, hdesig, hdesig]
  exact if_congr hidentical.symm rfl rfl

end Board

/-! ## A report on two branches -/

/-- "relatorio mensal b1 b2" -/
def bothReports : Doc ℚ where
  label := "relatorio mensal b1 b2"
  feats := [("u:relatorio", 3), ("u:mensal", 3), ("u:b1", 3), ("u:b2", 3),
    ("b:relatorio_mensal", 3 / 2), ("b:mensal_b1", 3 / 2), ("b:b1_b2", 3 / 2)]
  labelToks := ["relatorio", "mensal", "b1", "b2"]
  refs := []
  product := none
  prefixOf := "relatorio"
  desig := ["b1", "b2"]
  feats_nodup := by decide
  labelToks_nodup := by decide
  refs_nodup := by decide
  desig_nodup := by decide

/-- "relatorio mensal b2" -/
def oneReport : Doc ℚ where
  label := "relatorio mensal b2"
  feats := [("u:relatorio", 3), ("u:mensal", 3), ("u:b2", 3), ("b:relatorio_mensal", 3 / 2),
    ("b:mensal_b2", 3 / 2)]
  labelToks := ["relatorio", "mensal", "b2"]
  refs := []
  product := none
  prefixOf := "relatorio"
  desig := ["b2"]
  feats_nodup := by decide
  labelToks_nodup := by decide
  refs_nodup := by decide
  desig_nodup := by decide

def reportIndex : SimIndex ℚ where
  docs := [("t1", bothReports), ("t2", oneReport)]
  idf := [("u:relatorio", 1), ("u:mensal", 2), ("u:b1", 4), ("u:b2", 2)]
  refDf := []
  norms := [("t1", 15), ("t2", 9)]

theorem reports_symmetric_iff : Symmetric reportIndex id "t1" "t2" ↔
    identical id bothReports oneReport = true ∨ Balanced reportIndex "t1" "t2" bothReports oneReport :=
  scoreIndexed_symmetric_iff reportIndex id rfl rfl

/-- From the side of the single branch the other one is a sibling; from the other side it is not
seen behind the branch that both name. -/
theorem reports_not_symmetric :
    (∀ e ∈ reportIndex.idf, 0 ≤ e.2) ∧
      (scoreIndexed id reportIndex "t1" "t2").map SimResult.score = .ok (590 / 1000) ∧
      (scoreIndexed id reportIndex "t2" "t1").map SimResult.score = .ok (450 / 1000) ∧
        ¬ Symmetric reportIndex id "t1" "t2" := by
  have hfirst : (scoreIndexed id reportIndex "t1" "t2").map SimResult.score =
      .ok (590 / 1000) := by
    decide +kernel
  have hsecond : (scoreIndexed id reportIndex "t2" "t1").map SimResult.score =
      .ok (450 / 1000) := by
    decide +kernel
  refine ⟨by decide, hfirst, hsecond, ?_⟩
  rw [Symmetric, hfirst, hsecond]
  norm_num

end ScoreOrder
end Batiste
