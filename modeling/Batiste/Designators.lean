import Batiste.SimilarClusters

/-! Tasks whose designators conflict, such as phase 1 and phase 2: what the score of such a pair is
and when a cluster proposes to merge one into the other. -/
namespace Batiste
namespace Designators

open TaskActions SimilarClusters

/-! ## Scores -/

/-- What is read from the labels, and the parts of a score that are floating-point numbers over the
whole index. -/
structure Reader where
  normalizeText : String → String
  designators : String → List String
  cosine : List Task → Task → Task → ℚ
  containment : List Task → Task → Task → ℚ
  bonus : List Task → Task → Task → ℚ
  productPenalty : List Task → Task → Task → ℚ

/-- `d.replace(/[\d.]+$/, '')`, or the length for a bare number. -/
def kind (d : String) : String :=
  let stem := d.toList.rdropWhile fun c => c.isDigit || c = '.'
  if stem = [] then "#" ++ toString d.length else String.ofList stem

/-- The last designator of each kind. -/
def byKind (desig : List String) : Dict String :=
  Dict.spread [] (desig.map fun d => (kind d, d))

/-- Siblings are never more than distinct. -/
def siblingCap (a b : List String) : ℚ :=
  if a ≠ [] ∧ b ≠ [] ∧ b.any fun d => ((byKind a).get? (kind d)).any fun o => o != d then 45 / 100
  else 1

def designatorPenalty (a b : List String) : ℚ :=
  if a ≠ [] ∧ b ≠ [] ∧ ¬ (a.length = b.length ∧ ∀ d ∈ a, d ∈ b) then 2 / 10 else 0

def clamp01 (x : ℚ) : ℚ := max 0 (min 1 x)

def round3 (x : ℚ) : ℚ := ⌊x * 1000 + 1 / 2⌋ / 1000

section Score

variable (r : Reader) (tasks : List Task)

/-- `score` before it is rounded. -/
def pairScore (a b : Task) : ℚ :=
  let desigA := r.designators a.label
  let desigB := r.designators b.label
  let penalty := r.productPenalty tasks a b + designatorPenalty desigA desigB
  if r.normalizeText a.label = r.normalizeText b.label then 1
  else min (siblingCap desigA desigB)
    (clamp01 (max (r.cosine tasks a b) (r.containment tasks a b) + r.bonus tasks a b - penalty))

/-- The indexed task with an id. -/
def docOf (id : String) : Option Task := tasks.reverse.find? fun task => task.id = id

/-- Both ids come from the index. -/
def scoreIndexed (aId bId : String) : ℚ :=
  match docOf tasks aId, docOf tasks bId with
  | some a, some b => round3 (pairScore r tasks a b)
  | _, _ => 0

/-- The similarity with these scores. -/
def scored (sim : Similarity) : Similarity := { sim with scoreIndexed := scoreIndexed r }

end Score

/-! ## Conflicts -/

/-- The tasks carry different designators of one kind. -/
def Conflict (r : Reader) (s t : Task) : Prop :=
  ∃ d ∈ r.designators s.label, ∃ e ∈ r.designators t.label, kind d = kind e ∧ d ≠ e

theorem mem_byKind {desig : List String} {key d : String} (h : (byKind desig).get? key = some d) :
    d ∈ desig ∧ kind d = key := by
  rw [byKind, Dict.get?_spread, Dict.get?_nil, Option.or_none] at h
  obtain ⟨o, ho, heq⟩ := List.mem_map.mp (List.mem_reverse.mp (Dict.mem_of_get? h))
  obtain ⟨hkey, rfl⟩ := Prod.mk.inj heq
  exact ⟨ho, hkey⟩

/-- Only a conflict is capped. -/
theorem conflict_of_capped {r : Reader} {s t : Task}
    (h : siblingCap (r.designators s.label) (r.designators t.label) ≠ 1) : Conflict r s t := by
  rw [siblingCap] at h
  split at h
  · rename_i hany
    obtain ⟨d, hd, hother⟩ := List.any_eq_true.mp hany.2.2
    cases hget : (byKind (r.designators s.label)).get? (kind d) with
    | none => simp [hget] at hother
    | some o =>
      obtain ⟨ho, hkind⟩ := mem_byKind hget
      exact ⟨o, ho, d, hd, hkind, by simpa [hget] using hother⟩
  · exact absurd rfl h

theorem round3_le {x : ℚ} {n : ℕ} (h : x ≤ n / 1000) : round3 x ≤ n / 1000 := by
  have hfloor : ⌊x * 1000 + 1 / 2⌋ ≤ (n : ℤ) := by
    rw [← Int.lt_add_one_iff, Int.floor_lt]
    push_cast
    linarith
  rw [round3]
  gcongr
  exact_mod_cast hfloor

/-- A capped pair of different labels scores too little to be similar; it takes other tasks
between the two for a chain. -/
theorem capped_score (r : Reader) (tasks : List Task) {a b : Task}
    (hlabels : r.normalizeText a.label ≠ r.normalizeText b.label)
    (hcap : siblingCap (r.designators a.label) (r.designators b.label) ≠ 1) :
    round3 (pairScore r tasks a b) < THRESHOLD_SAME := by
  have hcapped : siblingCap (r.designators a.label) (r.designators b.label) = 45 / 100 := by
    rw [siblingCap] at hcap ⊢
    split at hcap
    · rename_i hany
      rw [if_pos hany]
    · exact absurd rfl hcap
  have hscore : pairScore r tasks a b ≤ (450 : ℕ) / 1000 := by
    rw [pairScore, if_neg hlabels, hcapped]
    refine (min_le_left _ _).trans ?_
    norm_num
  refine (round3_le hscore).trans_lt ?_
  norm_num [THRESHOLD_SAME]

/-! ## The target of a component -/

section Target

variable (numberText : ℚ → String)

/-- The first of the two would be the target: its phase is higher, or it is older, or it comes
first. -/
def Outranks (tasks : List Task) (a b : Task) : Prop :=
  phaseRank numberText b < phaseRank numberText a ∨
    phaseRank numberText a = phaseRank numberText b ∧
      (a.createdAt.getD 0 < b.createdAt.getD 0 ∨
        a.createdAt.getD 0 = b.createdAt.getD 0 ∧ [a, b].Sublist tasks)

/-- The order that `pickTarget` sorts by. -/
def NotAfter (a b : Task) : Prop :=
  phaseRank numberText b < phaseRank numberText a ∨
    phaseRank numberText a = phaseRank numberText b ∧ a.createdAt.getD 0 ≤ b.createdAt.getD 0

instance : DecidableRel (NotAfter numberText) := fun _ _ => inferInstanceAs (Decidable (_ ∨ _ ∧ _))

variable {numberText} {tasks : List Task}

theorem NotAfter.trans {a b c : Task} (hab : NotAfter numberText a b)
    (hbc : NotAfter numberText b c) : NotAfter numberText a c := by
  unfold NotAfter at *
  omega

theorem NotAfter.outranks {a b : Task} (h : NotAfter numberText a b)
    (hsub : [a, b].Sublist tasks) : Outranks numberText tasks a b := by
  rcases h with hphase | ⟨hphase, hage⟩
  · exact Or.inl hphase
  · rcases hage.lt_or_eq with hage | hage
    · exact Or.inr ⟨hphase, Or.inl hage⟩
    · exact Or.inr ⟨hphase, Or.inr ⟨hage, hsub⟩⟩

theorem Outranks.notAfter {a b : Task} (h : Outranks numberText tasks a b) :
    NotAfter numberText a b := by
  rcases h with hphase | ⟨hphase, hage | ⟨hage, -⟩⟩
  · exact Or.inl hphase
  · exact Or.inr ⟨hphase, hage.le⟩
  · exact Or.inr ⟨hphase, hage.le⟩

theorem Outranks.mono {tasks' : List Task} (hsub : tasks.Sublist tasks') {a b : Task}
    (h : Outranks numberText tasks a b) : Outranks numberText tasks' a b :=
  h.imp_right fun hage => hage.imp_right fun hage => hage.imp_right fun hage =>
    hage.imp_right fun hplace => hplace.trans hsub

theorem sublist_pair_asymm {α : Type*} {a b : α} {l : List α} (hl : l.Nodup)
    (hab : [a, b].Sublist l) : ¬ [b, a].Sublist l := by
  induction l with
  | nil => simp at hab
  | cons x l ih =>
    rw [List.nodup_cons] at hl
    intro hba
    rcases List.sublist_cons_iff.mp hab with hback | ⟨rest, heq, hrest⟩
    · rcases List.sublist_cons_iff.mp hba with hba | ⟨rest', heq', -⟩
      · exact ih hl.2 hback hba
      · obtain rfl := (List.cons.inj heq').1
        exact hl.1 (hback.subset (List.mem_cons_of_mem a List.mem_cons_self))
    · obtain ⟨rfl, rfl⟩ := List.cons.inj heq
      have hb : b ∈ l := List.singleton_sublist.mp hrest
      rcases List.sublist_cons_iff.mp hba with hba | ⟨rest', heq', -⟩
      · exact hl.1 (hba.subset (List.mem_cons_of_mem b List.mem_cons_self))
      · exact hl.1 ((List.cons.inj heq').1 ▸ hb)

/-- No two tasks outrank each other. -/
theorem Outranks.asymm (htasks : tasks.Nodup) {a b : Task} (hab : Outranks numberText tasks a b) :
    ¬ Outranks numberText tasks b a := by
  intro hba
  rcases hab with hphase | ⟨hphase, hage | ⟨hage, hplace⟩⟩
  · rcases hba with hphase' | ⟨hphase', -⟩
    · omega
    · omega
  · rcases hba with hphase' | ⟨-, hage' | ⟨hage', -⟩⟩
    · omega
    · omega
    · omega
  · rcases hba with hphase' | ⟨-, hage' | ⟨-, hplace'⟩⟩
    · omega
    · omega
    · exact sublist_pair_asymm htasks hplace hplace'

/-- The head of a list into which an element is put. -/
theorem head?_orderedInsert {α : Type*} (r : α → α → Prop) [DecidableRel r] (x : α) (l : List α) :
    (l.orderedInsert r x).head? = some x ∧ (∀ h, l.head? = some h → r x h) ∨
      ∃ h, l.head? = some h ∧ ¬ r x h ∧ (l.orderedInsert r x).head? = some h := by
  cases l with
  | nil => exact Or.inl ⟨rfl, by simp⟩
  | cons h l =>
    rw [List.orderedInsert_cons]
    by_cases hxh : r x h
    · refine Or.inl ⟨by rw [if_pos hxh, List.head?_cons], fun h' heq => ?_⟩
      obtain rfl := Option.some.inj heq
      exact hxh
    · exact Or.inr ⟨h, rfl, hxh, by rw [if_neg hxh, List.head?_cons]⟩

/-- The target outranks the other tasks. -/
theorem pickTarget_outranks {members : List Task} {target : Task}
    (h : pickTarget numberText members = some target) {t : Task} (ht : t ∈ members)
    (hne : t ≠ target) : Outranks numberText members target t := by
  induction members generalizing target t with
  | nil => exact absurd ht List.not_mem_nil
  | cons x members ih =>
    have hcons : ∀ u ∈ members, [x, u].Sublist (x :: members) := fun u hu =>
      (List.singleton_sublist.mpr hu).cons_cons x
    rw [pickTarget, List.insertionSort_cons] at h
    rcases head?_orderedInsert (NotAfter numberText) x
      (members.insertionSort (NotAfter numberText)) with ⟨hhead, hfirst⟩ | ⟨y, hy, hxy, hhead⟩
    · obtain rfl : x = target := Option.some.inj (hhead.symm.trans h)
      have hmem : t ∈ members := (List.mem_cons.mp ht).resolve_left hne
      refine NotAfter.outranks ?_ (hcons t hmem)
      obtain ⟨y, hy⟩ := pickTarget_isSome numberText (List.ne_nil_of_mem hmem)
      by_cases hty : t = y
      · exact hty ▸ hfirst y hy
      · exact (hfirst y hy).trans (ih hy hmem hty).notAfter
    · obtain rfl : y = target := Option.some.inj (hhead.symm.trans h)
      rcases List.mem_cons.mp ht with rfl | hmem
      · unfold NotAfter at hxy
        rcases lt_trichotomy (phaseRank numberText t) (phaseRank numberText y) with hlt | heq | hgt
        · exact Or.inl hlt
        · exact Or.inr ⟨heq.symm, Or.inl (by omega)⟩
        · exact absurd (Or.inl hgt) hxy
      · exact (ih hy hmem hne).mono (List.sublist_cons_self x members)

end Target

/-! ## Merges of siblings -/

/-- No proposed merge joins two tasks whose designators conflict. -/
def SiblingsApart (r : Reader) (tasks : List Task) (clusters : List SimCluster) : Prop :=
  ∀ c ∈ clusters, ∀ m ∈ c.merges, ∀ s ∈ tasks, ∀ t ∈ tasks, s.id = m.sourceId → t.id = m.targetId →
    ¬ Conflict r s t

section Merges

variable {r : Reader} {sim : Similarity} {numberText : ℚ → String} {threshold : ℚ}
  {tasks members : List Task} {cluster : SimCluster}

/-- The merges of a cluster, by their two tasks. -/
theorem IsCluster.merge_iff (h : IsCluster numberText sim threshold tasks members cluster)
    {target : Task} (htarget : pickTarget numberText members = some target) {x y : String} :
    (∃ m ∈ cluster.merges, m.sourceId = x ∧ m.targetId = y) ↔
      (∃ s ∈ members, s.id ≠ target.id ∧ s.id = x) ∧ y = target.id := by
  obtain ⟨chosen, hchosen, -, -, hmerges⟩ := h.chosen
  obtain rfl : chosen = target := Option.some.inj (hchosen.symm.trans htarget)
  have hmem : (∃ m ∈ cluster.merges, m.sourceId = x ∧ m.targetId = y) ↔
      (x, y) ∈ cluster.merges.map fun m => (m.sourceId, m.targetId) := by
    simp [List.mem_map]
  rw [hmem, hmerges, List.mem_map]
  constructor
  · rintro ⟨s, hs, heq⟩
    obtain ⟨rfl, rfl⟩ := Prod.mk.inj heq
    obtain ⟨hs, hne⟩ := List.mem_filter.mp hs
    exact ⟨⟨s, hs, by simpa using hne, rfl⟩, rfl⟩
  · rintro ⟨⟨s, hs, hne, rfl⟩, rfl⟩
    exact ⟨s, List.mem_filter.mpr ⟨hs, by simpa using hne⟩, rfl⟩

theorem siblingsApart_iff (hids : (tasks.map Task.id).Nodup) :
    SiblingsApart r tasks (clusterSimilar numberText (paired sim) threshold tasks) ↔
      ∀ s ∈ tasks, ∀ t ∈ tasks, Conflict r s t → s.id ≠ t.id →
        Chained sim threshold tasks s.id t.id →
          ∃ u ∈ tasks, Chained sim threshold tasks t.id u.id ∧ Outranks numberText tasks u t := by
  have hinj : ∀ a ∈ tasks, ∀ b ∈ tasks, a.id = b.id → a = b := fun a ha b hb =>
    List.inj_on_of_nodup_map hids ha hb
  constructor
  · intro hapart s hs t ht hconflict hne hchained
    obtain ⟨c, hc, members, hcluster, hsm⟩ := exists_cluster numberText hs
      (hchained.scored hne)
    have hcomponent := hcluster.component
    have htm := (hcomponent.closed s hsm t ht).mpr hchained
    obtain ⟨target, htarget, -⟩ := hcluster.chosen
    have hmem := mem_of_pickTarget htarget
    have htasks := hcomponent.sublist.subset hmem
    by_cases hid : t.id = target.id
    · -- the other one is proposed for the target
      obtain ⟨m, hm, hsource, hmtarget⟩ := (IsCluster.merge_iff hcluster htarget).mpr
        ⟨⟨s, hsm, hid ▸ hne, rfl⟩, hid⟩
      exact absurd hconflict (hapart c hc m hm s hs t ht hsource.symm hmtarget.symm)
    · refine ⟨target, htasks, (hcomponent.closed t htm target htasks).mp hmem, ?_⟩
      have hother : t ≠ target := fun heq => hid (congrArg Task.id heq)
      exact (pickTarget_outranks htarget htm hother).mono hcomponent.sublist
  · intro houtranked c hc m hm s hs t ht hsource hmtarget hconflict
    obtain ⟨members, hcluster⟩ := clusterSimilar_isCluster hc
    have hcomponent := hcluster.component
    obtain ⟨target, htarget, -⟩ := hcluster.chosen
    have hmem := mem_of_pickTarget htarget
    have htasks := hcomponent.sublist.subset hmem
    obtain ⟨⟨s', hs', hne, hsid⟩, htid⟩ := (IsCluster.merge_iff hcluster htarget).mp
      ⟨m, hm, hsource.symm, hmtarget.symm⟩
    obtain rfl := hinj s' (hcomponent.sublist.subset hs') s hs hsid
    obtain rfl := hinj t ht target htasks htid
    obtain ⟨u, hu, hchained, hout⟩ := houtranked s' hs t ht hconflict hne
      ((hcomponent.closed s' hs' t ht).mp hmem)
    have hum := (hcomponent.closed t hmem u hu).mpr hchained
    have hut : u ≠ t := by
      rintro rfl
      exact hout.asymm (hids.of_map _) hout
    exact hout.asymm (hids.of_map _)
      ((pickTarget_outranks htarget hum hut).mono hcomponent.sublist)

end Merges

/-- On a board no task is proposed to be merged into one with a conflicting designator exactly
where each of two such tasks, if a chain of pairs connects them, is outranked by another task that
the chains lead to. -/
theorem board_siblings_apart_iff (r : Reader) (sim : Similarity) (numberText : ℚ → String)
    (threshold : ℚ) (board : Board) (keep : Task → Bool) :
    SiblingsApart r (board.rows.filter keep) (clusterSimilar numberText (paired (scored r sim))
        threshold (board.rows.filter keep)) ↔
      ∀ s ∈ board.rows.filter keep, ∀ t ∈ board.rows.filter keep, Conflict r s t → s.id ≠ t.id →
        Chained (scored r sim) threshold (board.rows.filter keep) s.id t.id →
          ∃ u ∈ board.rows.filter keep,
            Chained (scored r sim) threshold (board.rows.filter keep) t.id u.id ∧
              Outranks numberText (board.rows.filter keep) u t :=
  siblingsApart_iff (board.nodup.sublist (List.filter_sublist.map _))

/-! ## A task between two siblings -/

/-- The designators and the parts of the scores of the three tasks below; without a designator the
label is contained in the other one. -/
def missionReader : Reader where
  normalizeText := id
  designators label :=
    if label = "hefesto-bp B1 missao e visao" then ["b1"]
    else if label = "hefesto-bp B2 missao e visao" then ["b2"] else []
  cosine _ a b :=
    if a.label = "hefesto-bp missao e visao" ∨ b.label = "hefesto-bp missao e visao" then 70 / 100
    else 56 / 100
  containment _ a b :=
    if a.label = "hefesto-bp missao e visao" ∨ b.label = "hefesto-bp missao e visao" then 75 / 100
    else 61 / 100
  bonus _ _ _ := 8 / 100
  productPenalty _ _ _ := 0

def missionTask (id label : String) (createdAt : ℤ) : Task :=
  { id, label, status := .pending, createdAt := some createdAt }

def missionBoard : Board where
  rows := [missionTask "t1" "hefesto-bp B1 missao e visao" 1,
    missionTask "t2" "hefesto-bp missao e visao" 2,
    missionTask "t3" "hefesto-bp B2 missao e visao" 3]
  nodup := by decide
  parents := by decide

def noSimilarity : Similarity where
  allPairs := fun _ _ => []
  scoreIndexed := fun _ _ _ => 0
  findSimilar := fun _ _ => []
  obsoleteWord := fun _ => none
  localeLe := fun a b => decide (a ≤ b)

/-- B2 is proposed to be merged into B1. -/
theorem bridged_siblings_merged :
    ¬ ∀ (r : Reader) (sim : Similarity) (numberText : ℚ → String) (threshold : ℚ) (board : Board)
      (keep : Task → Bool), SiblingsApart r (board.rows.filter keep)
        (clusterSimilar numberText (paired (scored r sim)) threshold (board.rows.filter keep)) := by
  intro h
  have hmerges : (clusterSimilar (fun _ => "") (paired (scored missionReader noSimilarity))
      THRESHOLD_SAME (missionBoard.rows.filter fun _ => true)).map
        (fun c => c.merges.map fun m => (m.sourceId, m.targetId, m.score)) =
      [[("t2", "t1", 83 / 100), ("t3", "t1", 45 / 100)]] := by
    decide +kernel
  have hsingle : [("t2", "t1", (83 / 100 : ℚ)), ("t3", "t1", 45 / 100)] ∈
      (clusterSimilar (fun _ => "") (paired (scored missionReader noSimilarity)) THRESHOLD_SAME
        (missionBoard.rows.filter fun _ => true)).map
          fun c => c.merges.map fun m => (m.sourceId, m.targetId, m.score) := by
    rw [hmerges]
    exact List.mem_singleton_self _
  obtain ⟨c, hc, hcm⟩ := List.mem_map.mp hsingle
  have hlast : ("t3", "t1", (45 / 100 : ℚ)) ∈
      c.merges.map fun m => (m.sourceId, m.targetId, m.score) := by
    rw [hcm]
    exact List.mem_cons_of_mem _ (List.mem_singleton_self _)
  obtain ⟨m, hm, heq⟩ := List.mem_map.mp hlast
  obtain ⟨hsource, htarget, -⟩ := by simpa only [Prod.mk.injEq] using heq
  have hconflict : Conflict missionReader (missionTask "t3" "hefesto-bp B2 missao e visao" 3)
      (missionTask "t1" "hefesto-bp B1 missao e visao" 1) :=
    ⟨"b2", by decide, "b1", by decide, by decide +kernel, by decide⟩
  exact h missionReader noSimilarity (fun _ => "") THRESHOLD_SAME missionBoard (fun _ => true) c hc
    m hm _ (by simp [missionBoard]) _ (by simp [missionBoard]) hsource.symm htarget.symm hconflict

end Designators
end Batiste
