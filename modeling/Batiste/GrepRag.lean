import Batiste.Grouping
import Batiste.JsNumber
import Batiste.JsString
import Batiste.Json
import Batiste.Sweep

/-! `mergeOverlappingHits` of `grep-rag.ts`. -/
namespace Batiste
namespace GrepRag

open Grouping Sweep Joining

/-- `Score` is the order of the numbers that are scores. -/
structure RetrievalHit (Score : Type) where
  filePath : String
  startLine : ℤ
  endLine : ℤ
  text : String
  score : Option Score
  deriving DecidableEq, Repr

/-- `xs.slice(first, last)`: a negative position counts from the end. -/
def sliceLines (xs : List String) (first last : ℤ) : List String :=
  let position := fun (i : ℤ) => if i < 0 then (xs.length + i).toNat else i.toNat
  (xs.take (position last)).drop (position first)

section Merge

variable {Score : Type} [LinearOrder Score]

def mergeScore : Option Score → Option Score → Option Score
  | none, b => b
  | some a, none => some a
  | some a, some b => some (max a b)

def finalizeText (hit : RetrievalHit Score) (lines : Option (List String)) : RetrievalHit Score :=
  match lines with
  | some lines =>
    { hit with text := "\n".intercalate (sliceLines lines (hit.startLine - 1) hit.endLine) }
  | none => hit

/-- `startLine <= endLine + gap` -/
def reaches (gap : JsNumber) (endLine startLine : ℤ) : Bool :=
  match gap with
  | .finite value => decide ((startLine : ℚ) ≤ endLine + value)
  | .nan => false
  | .infinity negative => !negative

/-- What the merged hit becomes with one more hit. -/
def extend (lines : Option (List String)) (cur h : RetrievalHit Score) : RetrievalHit Score :=
  { cur with
    endLine := max cur.endLine h.endLine
    score := mergeScore cur.score h.score
    text :=
      if lines.isNone then
        if (JsString.codeUnits h.text).length ≤ (JsString.codeUnits cur.text).length then cur.text
        else h.text
      else cur.text }

/-- The loop over the hits of a file, with the merged hit that is still open. -/
def mergeGroup (gap : JsNumber) (lines : Option (List String)) :
    Option (RetrievalHit Score) → List (RetrievalHit Score) → List (RetrievalHit Score)
  | none, [] => []
  | some cur, [] => [finalizeText cur lines]
  | none, h :: rest => mergeGroup gap lines (some h) rest
  | some cur, h :: rest =>
    if reaches gap cur.endLine h.startLine then mergeGroup gap lines (some (extend lines cur h)) rest
    else finalizeText cur lines :: mergeGroup gap lines (some h) rest

/-- The comparison of the sort. -/
def notAfter (a b : RetrievalHit Score) : Prop :=
  a.startLine < b.startLine ∨ a.startLine = b.startLine ∧ a.endLine ≤ b.endLine

instance : DecidableRel (notAfter : RetrievalHit Score → RetrievalHit Score → Prop) := fun a b => by
  unfold notAfter
  exact inferInstance

def mergeOverlappingHits (hits : List (RetrievalHit Score)) (fileLines : Dict (List String))
    (gap : JsNumber) : List (RetrievalHit Score) :=
  (groupBy RetrievalHit.filePath hits).flatMap fun group =>
    mergeGroup gap (fileLines.get? group.1) none (group.2.insertionSort notAfter)

end Merge

/-! ## The loop as a sweep -/

theorem reaches_mono {gap : JsNumber} {e e' s s' : ℤ} (he : e ≤ e') (hs : s' ≤ s)
    (h : reaches gap e s = true) : reaches gap e' s' = true := by
  cases gap with
  | finite value =>
    have he' : (e : ℚ) ≤ e' := by exact_mod_cast he
    have hs' : (s' : ℚ) ≤ s := by exact_mod_cast hs
    simp only [reaches, decide_eq_true_eq] at h ⊢
    linarith
  | nan => exact h
  | infinity negative => exact h

/-- With a gap that is not negative, what begins on a line or before it is close to it. -/
theorem reaches_of_nonneg {gap : JsNumber} (hgap : gap.nonneg = true) (e s : ℤ) (h : s ≤ e) :
    reaches gap e s = true := by
  cases gap with
  | finite value =>
    have h' : (s : ℚ) ≤ e := by exact_mod_cast h
    simp only [reaches, JsNumber.nonneg, decide_eq_true_eq] at hgap ⊢
    linarith
  | nan => exact hgap
  | infinity negative => exact hgap

section Texts

variable {Score : Type}

@[simp] theorem finalizeText_filePath (hit : RetrievalHit Score) (lines : Option (List String)) :
    (finalizeText hit lines).filePath = hit.filePath := by
  cases lines <;> rfl

@[simp] theorem finalizeText_startLine (hit : RetrievalHit Score) (lines : Option (List String)) :
    (finalizeText hit lines).startLine = hit.startLine := by
  cases lines <;> rfl

@[simp] theorem finalizeText_endLine (hit : RetrievalHit Score) (lines : Option (List String)) :
    (finalizeText hit lines).endLine = hit.endLine := by
  cases lines <;> rfl

@[simp] theorem finalizeText_score (hit : RetrievalHit Score) (lines : Option (List String)) :
    (finalizeText hit lines).score = hit.score := by
  cases lines <;> rfl

@[simp] theorem finalizeText_finalizeText (hit : RetrievalHit Score)
    (lines : Option (List String)) :
    finalizeText (finalizeText hit lines) lines = finalizeText hit lines := by
  cases lines <;> rfl

end Texts

section Sweeping

variable {Score : Type} [LinearOrder Score]

def hits (gap : JsNumber) (lines : Option (List String)) : Joining ℤ (RetrievalHit Score) where
  first := RetrievalHit.startLine
  last := RetrievalHit.endLine
  close := reaches gap
  absorb := extend lines
  close_mono := reaches_mono
  first_absorb _ _ := rfl
  last_absorb _ _ := rfl

theorem mergeGroup_some (gap : JsNumber) (lines : Option (List String)) (cur : RetrievalHit Score)
    (xs : List (RetrievalHit Score)) : mergeGroup gap lines (some cur) xs =
      ((hits gap lines).runFrom cur xs).map fun hit => finalizeText hit lines := by
  induction xs generalizing cur with
  | nil => rfl
  | cons h rest ih =>
    rw [mergeGroup, Joining.runFrom]
    show (if (hits gap lines).joins cur h then _ else _) = _
    split
    · exact ih _
    · rw [ih, List.map_cons]

theorem mergeGroup_eq (gap : JsNumber) (lines : Option (List String))
    (xs : List (RetrievalHit Score)) : mergeGroup gap lines none xs =
      ((hits gap lines).run xs).map fun hit => finalizeText hit lines := by
  cases xs with
  | nil => rfl
  | cons h rest => exact mergeGroup_some gap lines h rest

/-! ## Scores -/

/-- The greatest of the scores that are there, if any is. -/
structure IsBest (scores : List (Option Score)) (best : Option Score) : Prop where
  mem : ∀ b ∈ best, some b ∈ scores
  le : ∀ s, some s ∈ scores → ∃ b ∈ best, s ≤ b

theorem isBest_single (s : Option Score) : IsBest [s] s where
  mem b hb := by
    rw [Option.mem_def] at hb
    simp [hb]
  le t ht := ⟨t, (List.mem_singleton.mp ht).symm, le_rfl⟩

theorem le_mergeScore {s : Score} {a b : Option Score} (h : (∃ t ∈ a, s ≤ t) ∨ ∃ t ∈ b, s ≤ t) :
    ∃ t ∈ mergeScore a b, s ≤ t := by
  cases a with
  | none => simpa [mergeScore] using h
  | some x =>
    cases b with
    | none => simpa [mergeScore] using h
    | some y => simpa [mergeScore] using h

theorem mergeScore_mem {s : Score} {a b : Option Score} (h : s ∈ mergeScore a b) :
    s ∈ a ∨ s ∈ b := by
  cases a with
  | none => exact .inr (by simpa [mergeScore] using h)
  | some x =>
    cases b with
    | none => exact .inl h
    | some y =>
      have hs : max x y = s := by simpa [mergeScore] using h
      rcases max_choice x y with hmax | hmax
      · exact .inl (by simp [← hs, hmax])
      · exact .inr (by simp [← hs, hmax])

theorem IsBest.snoc {scores : List (Option Score)} {best : Option Score} (h : IsBest scores best)
    (s : Option Score) : IsBest (scores ++ [s]) (mergeScore best s) where
  mem b hb := by
    rcases mergeScore_mem hb with hb | hb
    · exact List.mem_append_left _ (h.mem b hb)
    · rw [Option.mem_def] at hb
      simp [hb]
  le t ht := by
    refine le_mergeScore ?_
    rcases List.mem_append.mp ht with ht | ht
    · exact .inl (h.le t ht)
    · exact .inr ⟨t, (List.mem_singleton.mp ht).symm, le_rfl⟩

theorem mergeScore_right_comm (a b c : Option Score) :
    mergeScore (mergeScore a b) c = mergeScore (mergeScore a c) b := by
  cases a <;> cases b <;> cases c <;> simp [mergeScore, max_comm, max_left_comm]

theorem mergeScore_comm (a b : Option Score) : mergeScore a b = mergeScore b a := by
  cases a <;> cases b <;> simp [mergeScore, max_comm]

/-! ## What a merged hit spans -/

/-- The hit spans the hits of the group, each of which but the first begins within the gap of an
earlier one. -/
structure Spans (gap : JsNumber) (group : List (RetrievalHit Score)) (o : RetrievalHit Score) :
    Prop where
  file : ∀ h ∈ group, h.filePath = o.filePath
  first : (∃ h ∈ group, h.startLine = o.startLine) ∧ ∀ h ∈ group, o.startLine ≤ h.startLine
  last : (∃ h ∈ group, h.endLine = o.endLine) ∧ ∀ h ∈ group, h.endLine ≤ o.endLine
  chained : ∀ front h back, group = front ++ h :: back → front ≠ [] →
    ∃ q ∈ front, q.startLine ≤ h.startLine ∧ reaches gap q.endLine h.startLine = true
  score : IsBest (group.map RetrievalHit.score) o.score

theorem merged_file {gap : JsNumber} {lines : Option (List String)}
    {group : List (RetrievalHit Score)} {o : RetrievalHit Score} (h : Merged (hits gap lines) group o)
    {filePath : String} (hfile : ∀ h ∈ group, h.filePath = filePath) : o.filePath = filePath := by
  induction h with
  | one x => exact hfile x (List.mem_singleton_self x)
  | snoc _ _ ih => exact ih fun h hh => hfile h (List.mem_append_left _ hh)

theorem merged_best {gap : JsNumber} {lines : Option (List String)}
    {group : List (RetrievalHit Score)} {o : RetrievalHit Score}
    (h : Merged (hits gap lines) group o) : IsBest (group.map RetrievalHit.score) o.score := by
  induction h with
  | one x => exact isBest_single _
  | snoc _ _ ih =>
    rw [List.map_append]
    exact ih.snoc _

theorem merged_spans {gap : JsNumber} {lines : Option (List String)} {filePath : String}
    {group : List (RetrievalHit Score)} {o : RetrievalHit Score} (h : Merged (hits gap lines) group o)
    (hfile : ∀ h ∈ group, h.filePath = filePath) (hsorted : group.Pairwise notAfter) :
    Spans gap group (finalizeText o lines) where
  file q hq := by rw [finalizeText_filePath, merged_file h hfile, hfile q hq]
  first := by
    rw [finalizeText_startLine]
    exact ⟨⟨_, List.head_mem h.ne_nil, (h.first_eq h.ne_nil).symm⟩, h.first_le hsorted⟩
  last := by
    rw [finalizeText_endLine]
    exact ⟨h.exists_last, h.last_le⟩
  chained front q back hsplit hfront := by
    obtain ⟨w, hw, hjoin⟩ := h.chained hsplit hfront
    refine ⟨w, hw, ?_, hjoin⟩
    rw [hsplit, List.pairwise_append] at hsorted
    exact Before.first_le (J := hits gap lines) (hsorted.2.2 w hw q List.mem_cons_self)
  score := by
    rw [finalizeText_score]
    exact merged_best h

/-! ## The merged hits of a file -/

theorem sorted_notAfter (xs : List (RetrievalHit Score)) :
    (xs.insertionSort notAfter).Pairwise notAfter :=
  List.pairwise_insertionSort (hits .nan none).Before xs

theorem mergeGroup_groups {gap : JsNumber} {lines : Option (List String)} {filePath : String}
    {xs : List (RetrievalHit Score)} (hfile : ∀ h ∈ xs, h.filePath = filePath)
    (hsorted : xs.Pairwise notAfter) :
    ∃ groups, groups.flatten = xs ∧
      List.Forall₂ (Spans gap) groups (mergeGroup gap lines none xs) := by
  obtain ⟨groups, hflat, hgroups⟩ := run_merged (J := hits gap lines) xs
  refine ⟨groups, hflat, ?_⟩
  rw [mergeGroup_eq, List.forall₂_map_right_iff]
  refine forall₂_imp_of_mem hgroups fun group hgroup o hmerged => ?_
  have hsub := List.sublist_flatten_of_mem hgroup
  rw [hflat] at hsub
  exact merged_spans hmerged (fun h hh => hfile h (hsub.subset hh)) (hsorted.sublist hsub)

/-- Groups of the parts are groups of the whole. -/
theorem groups_flatMap {β : Type*} {bs : List β} {items out : β → List (RetrievalHit Score)}
    {gap : JsNumber} (h : ∀ b ∈ bs, ∃ groups : List (List (RetrievalHit Score)),
      groups.flatten.Perm (items b) ∧ List.Forall₂ (Spans gap) groups (out b)) :
    ∃ groups : List (List (RetrievalHit Score)), groups.flatten.Perm (bs.flatMap items) ∧
      List.Forall₂ (Spans gap) groups (bs.flatMap out) := by
  induction bs with
  | nil => exact ⟨[], .refl _, .nil⟩
  | cons b bs ih =>
    rw [List.forall_mem_cons] at h
    obtain ⟨front, hfront, hfront'⟩ := h.1
    obtain ⟨back, hback, hback'⟩ := ih h.2
    refine ⟨front ++ back, ?_, List.rel_append hfront' hback'⟩
    rw [List.flatten_append, List.flatMap_cons]
    exact hfront.append hback

theorem mem_mergeGroup_file {gap : JsNumber} {lines : Option (List String)} {filePath : String}
    {xs : List (RetrievalHit Score)} (hfile : ∀ h ∈ xs, h.filePath = filePath)
    {o : RetrievalHit Score} (ho : o ∈ mergeGroup gap lines none xs) : o.filePath = filePath := by
  rw [mergeGroup_eq] at ho
  obtain ⟨a, ha, rfl⟩ := List.mem_map.mp ho
  obtain ⟨groups, rfl, hgroups⟩ := run_merged (J := hits gap lines) xs
  obtain ⟨group, hgroup, hmerged⟩ := exists_of_forall₂ hgroups.flip ha
  rw [finalizeText_filePath]
  exact merged_file hmerged fun h hh => hfile h (List.mem_flatten_of_mem hgroup hh)

theorem mergeGroup_separated {gap : JsNumber} {lines : Option (List String)}
    {xs : List (RetrievalHit Score)} (hsorted : xs.Pairwise notAfter) :
    (mergeGroup gap lines none xs).Pairwise fun a b =>
      reaches gap a.endLine b.startLine = false := by
  rw [mergeGroup_eq, List.pairwise_map]
  refine (run_separated (J := hits gap lines) hsorted).imp fun {a b} hab => ?_
  rw [finalizeText_endLine, finalizeText_startLine]
  exact hab

/-- Merging the merged hits of a file changes nothing. -/
theorem mergeGroup_mergeGroup {gap : JsNumber} {lines : Option (List String)}
    {xs : List (RetrievalHit Score)} (hsorted : xs.Pairwise notAfter) :
    mergeGroup gap lines none ((mergeGroup gap lines none xs).insertionSort notAfter) =
      mergeGroup gap lines none xs := by
  have hbefore : (mergeGroup gap lines none xs).Pairwise notAfter := by
    rw [mergeGroup_eq, List.pairwise_map]
    refine (run_before (J := hits gap lines) hsorted).imp fun {a b} hab => ?_
    unfold notAfter
    simp only [finalizeText_endLine, finalizeText_startLine]
    exact hab
  rw [hbefore.insertionSort_eq, mergeGroup_eq gap lines (mergeGroup gap lines none xs),
    run_eq_self (J := hits gap lines) (mergeGroup_separated hsorted), mergeGroup_eq, List.map_map]
  exact List.map_congr_left fun a _ => finalizeText_finalizeText a lines

/-! ## Spans -/

/-- What a merged hit says besides its text. -/
structure Span (Score : Type) where
  startLine : ℤ
  endLine : ℤ
  score : Option Score
  deriving DecidableEq, Repr

def RetrievalHit.span (h : RetrievalHit Score) : Span Score := ⟨h.startLine, h.endLine, h.score⟩

def spans (gap : JsNumber) : Joining ℤ (Span Score) where
  first := Span.startLine
  last := Span.endLine
  close := reaches gap
  absorb a b := ⟨a.startLine, max a.endLine b.endLine, mergeScore a.score b.score⟩
  close_mono := reaches_mono
  first_absorb _ _ := rfl
  last_absorb _ _ := rfl

theorem hits_sees_spans (gap : JsNumber) (lines : Option (List String)) :
    Sees (hits gap lines) (spans gap) (RetrievalHit.span : RetrievalHit Score → Span Score) where
  first _ := rfl
  last _ := rfl
  close := rfl
  absorb _ _ := rfl

theorem spans_commutes (gap : JsNumber) : Commutes (spans gap : Joining ℤ (Span Score)) where
  absorb_absorb a b c := by
    simp only [spans, mergeScore_right_comm a.score b.score c.score, max_right_comm]
  absorb_comm a b hfirst hlast := by
    simp only [spans] at hfirst hlast ⊢
    rw [hfirst, hlast, mergeScore_comm]

/-- The spans in full order: by lines, then by score. -/
def Span.key (s : Span Score) : ℤ ×ₗ ℤ ×ₗ WithBot Score :=
  toLex (s.startLine, toLex (s.endLine, s.score))

omit [LinearOrder Score] in
theorem Span.key_injective : Function.Injective (Span.key : Span Score → _) := by
  rintro ⟨start, last, score⟩ ⟨start', last', score'⟩ h
  simp only [Span.key, EmbeddingLike.apply_eq_iff_eq, Prod.mk.injEq] at h
  obtain ⟨rfl, hrest⟩ := h
  obtain ⟨rfl, rfl⟩ := Prod.mk.inj hrest
  rfl

def Upto (a b : Span Score) : Prop := a.key ≤ b.key

instance : DecidableRel (Upto : Span Score → Span Score → Prop) := fun a b =>
  inferInstanceAs (Decidable (a.key ≤ b.key))

instance : Std.Total (Upto : Span Score → Span Score → Prop) where
  total a b := le_total a.key b.key

instance : IsTrans (Span Score) Upto where
  trans _ _ _ := le_trans

instance : Std.Antisymm (Upto : Span Score → Span Score → Prop) where
  antisymm _ _ hab hba := Span.key_injective (le_antisymm hab hba)

theorem before_of_upto (gap : JsNumber) (a b : Span Score) (h : Upto a b) :
    (spans gap).Before a b := by
  rcases Prod.Lex.le_iff.mp h with hstart | ⟨hstart, hrest⟩
  · exact .inl hstart
  · refine .inr ⟨hstart, ?_⟩
    rcases Prod.Lex.le_iff.mp hrest with hend | ⟨hend, -⟩
    · exact hend.le
    · exact hend.le

/-- The merged spans of a file do not depend on the order of its hits. -/
theorem mergeGroup_perm {gap : JsNumber} {lines : Option (List String)}
    {xs ys : List (RetrievalHit Score)} (hxs : xs.Pairwise notAfter) (hys : ys.Pairwise notAfter)
    (h : xs.Perm ys) :
    ((mergeGroup gap lines none xs).map RetrievalHit.span).Perm
      ((mergeGroup gap lines none ys).map RetrievalHit.span) := by
  have hspan : ∀ zs : List (RetrievalHit Score),
      (mergeGroup gap lines none zs).map RetrievalHit.span =
        (spans gap).run (zs.map RetrievalHit.span) := by
    intro zs
    rw [mergeGroup_eq, List.map_map, ← (hits_sees_spans gap lines).run]
    refine List.map_congr_left fun hit _ => ?_
    simp [RetrievalHit.span]
  have hbefore : ∀ {zs : List (RetrievalHit Score)}, zs.Pairwise notAfter →
      (zs.map RetrievalHit.span).Pairwise (spans gap).Before := by
    intro zs hzs
    rw [List.pairwise_map]
    exact hzs.imp fun {a b} hab => (hits_sees_spans gap lines).before.mpr hab
  rw [hspan, hspan]
  exact run_perm (spans_commutes gap) (before_of_upto gap) (hbefore hxs) (hbefore hys)
    (h.map RetrievalHit.span)

/-! ## The merged hits -/

/-- The file and lines of the hit lie in those of the other. -/
def LiesIn (h o : RetrievalHit Score) : Prop :=
  h.filePath = o.filePath ∧ o.startLine ≤ h.startLine ∧ h.endLine ≤ o.endLine

instance : DecidableRel (LiesIn : RetrievalHit Score → RetrievalHit Score → Prop) := fun h o => by
  unfold LiesIn
  exact inferInstance

/-- What merging with a gap makes of hits. -/
structure Merges (gap : JsNumber) (hits out : List (RetrievalHit Score)) : Prop where
  separated : out.Pairwise fun a b => a.filePath = b.filePath →
    reaches gap a.endLine b.startLine = false
  grouped : ∃ groups : List (List (RetrievalHit Score)), groups.flatten.Perm hits ∧
    List.Forall₂ (Spans gap) groups out
  liesIn : ∀ h ∈ hits, ∃ o ∈ out, LiesIn h o
  once : gap.nonneg = true → ∀ h ∈ hits, h.startLine ≤ h.endLine →
    out.countP (fun o => LiesIn h o) = 1

section Whole

variable (xs : List (RetrievalHit Score)) (fileLines : Dict (List String)) (gap : JsNumber)

/-- The hits of one file, merged. -/
def mergedOf (group : String × List (RetrievalHit Score)) : List (RetrievalHit Score) :=
  mergeGroup gap (fileLines.get? group.1) none (group.2.insertionSort notAfter)

theorem mergeOverlappingHits_eq : mergeOverlappingHits xs fileLines gap =
    (groupBy RetrievalHit.filePath xs).flatMap (mergedOf fileLines gap) := rfl

variable {xs fileLines gap}

omit [LinearOrder Score] in
theorem bucket_file {group : String × List (RetrievalHit Score)}
    (hgroup : group ∈ groupBy RetrievalHit.filePath xs) :
    ∀ h ∈ group.2.insertionSort notAfter, h.filePath = group.1 := by
  intro h hh
  rw [List.mem_insertionSort, (grouped RetrievalHit.filePath xs).mem_iff hgroup] at hh
  exact hh.2

theorem mem_mergedOf_file {group : String × List (RetrievalHit Score)}
    (hgroup : group ∈ groupBy RetrievalHit.filePath xs) {o : RetrievalHit Score}
    (ho : o ∈ mergedOf fileLines gap group) : o.filePath = group.1 :=
  mem_mergeGroup_file (bucket_file hgroup) ho

variable (fileLines gap)

theorem mergedOf_groups {group : String × List (RetrievalHit Score)}
    (hgroup : group ∈ groupBy RetrievalHit.filePath xs) :
    ∃ groups : List (List (RetrievalHit Score)), groups.flatten.Perm group.2 ∧
      List.Forall₂ (Spans gap) groups (mergedOf fileLines gap group) := by
  obtain ⟨groups, hflat, hspans⟩ := mergeGroup_groups (bucket_file hgroup) (sorted_notAfter group.2)
  exact ⟨groups, hflat ▸ List.perm_insertionSort notAfter group.2, hspans⟩

theorem mergedOf_ne_nil {group : String × List (RetrievalHit Score)}
    (hgroup : group ∈ groupBy RetrievalHit.filePath xs) : mergedOf fileLines gap group ≠ [] := by
  obtain ⟨groups, hflat, hspans⟩ := mergedOf_groups fileLines gap hgroup
  intro hnil
  rw [hnil, List.forall₂_nil_right_iff] at hspans
  rw [hspans, List.flatten_nil] at hflat
  exact ((grouped RetrievalHit.filePath xs).items group hgroup).2 hflat.nil_eq.symm

variable (xs)

theorem merged_separated : (mergeOverlappingHits xs fileLines gap).Pairwise fun a b =>
    a.filePath = b.filePath → reaches gap a.endLine b.startLine = false := by
  rw [mergeOverlappingHits_eq, List.pairwise_flatMap]
  refine ⟨fun group _ => ?_, ?_⟩
  · have hsep : (mergedOf fileLines gap group).Pairwise fun a b =>
        reaches gap a.endLine b.startLine = false := mergeGroup_separated (sorted_notAfter group.2)
    refine hsep.imp ?_
    intro a b hab _
    exact hab
  · have hkeys := (grouped RetrievalHit.filePath xs).keys
    rw [List.Nodup, List.pairwise_map] at hkeys
    refine hkeys.imp_of_mem fun {g g'} hg hg' hne a ha b hb hsame => ?_
    rw [mem_mergedOf_file hg ha, mem_mergedOf_file hg' hb] at hsame
    exact absurd hsame hne

theorem merged_grouped : ∃ groups : List (List (RetrievalHit Score)), groups.flatten.Perm xs ∧
    List.Forall₂ (Spans gap) groups (mergeOverlappingHits xs fileLines gap) := by
  have hgroups : ∀ g ∈ groupBy RetrievalHit.filePath xs,
      ∃ groups : List (List (RetrievalHit Score)), groups.flatten.Perm g.2 ∧
        List.Forall₂ (Spans gap) groups (mergedOf fileLines gap g) :=
    fun g hg => mergedOf_groups fileLines gap hg
  obtain ⟨groups, hperm, hspans⟩ := groups_flatMap hgroups
  exact ⟨groups, hperm.trans (groupBy_perm RetrievalHit.filePath xs), hspans⟩

theorem merged_liesIn : ∀ h ∈ xs, ∃ o ∈ mergeOverlappingHits xs fileLines gap, LiesIn h o := by
  intro h hh
  obtain ⟨groups, hperm, hspans⟩ := merged_grouped xs fileLines gap
  obtain ⟨group, hgroup, hhg⟩ := List.mem_flatten.mp (hperm.mem_iff.mpr hh)
  obtain ⟨o, ho, hspan⟩ := exists_of_forall₂ hspans hgroup
  exact ⟨o, ho, hspan.file h hhg, hspan.first.2 h hhg, hspan.last.2 h hhg⟩

theorem merged_once (hgap : gap.nonneg = true) : ∀ h ∈ xs, h.startLine ≤ h.endLine →
    (mergeOverlappingHits xs fileLines gap).countP (fun o => LiesIn h o) = 1 := by
  intro h hh hle
  obtain ⟨o, ho, hin⟩ := merged_liesIn xs fileLines gap h hh
  have hpos : 0 < (mergeOverlappingHits xs fileLines gap).countP (fun o => LiesIn h o) :=
    List.countP_pos_iff.mpr ⟨o, ho, decide_eq_true hin⟩
  -- among the hits of its file
  have hfile : (mergeOverlappingHits xs fileLines gap).countP (fun o => LiesIn h o) =
      ((mergeOverlappingHits xs fileLines gap).filter fun o => h.filePath = o.filePath).countP
        fun o => (hits gap none).Within h o := by
    rw [List.countP_filter]
    refine List.countP_congr fun o _ => ?_
    simp only [Bool.and_eq_true, decide_eq_true_eq]
    exact and_comm
  have hsep : ((mergeOverlappingHits xs fileLines gap).filter
      fun o => h.filePath = o.filePath).Pairwise fun a b => (hits gap none).joins a b = false := by
    refine ((merged_separated xs fileLines gap).sublist List.filter_sublist).imp_of_mem ?_
    intro a b ha hb hab
    rw [List.mem_filter, decide_eq_true_eq] at ha hb
    exact hab (ha.2.symm.trans hb.2)
  have hone := countP_within_le_one hsep (reaches_of_nonneg hgap) hle
  omega

theorem merged_again : mergeOverlappingHits (mergeOverlappingHits xs fileLines gap) fileLines gap =
    mergeOverlappingHits xs fileLines gap := by
  have hgroups : groupBy RetrievalHit.filePath (mergeOverlappingHits xs fileLines gap) =
      (groupBy RetrievalHit.filePath xs).map fun g => (g.1, mergedOf fileLines gap g) :=
    groupBy_flatMap (grouped RetrievalHit.filePath xs).keys (fun g hg => mergedOf_ne_nil fileLines gap hg)
      fun g hg o ho => mem_mergedOf_file hg ho
  rw [mergeOverlappingHits_eq (mergeOverlappingHits xs fileLines gap), hgroups, List.flatMap_map,
    mergeOverlappingHits_eq]
  refine List.flatMap_congr fun g _ => ?_
  exact mergeGroup_mergeGroup (sorted_notAfter g.2)

/-- The merged files and spans, bucket by bucket. -/
theorem merged_spans_eq :
    (mergeOverlappingHits xs fileLines gap).map (fun o => (o.filePath, o.span)) =
      (groupBy RetrievalHit.filePath xs).flatMap fun g =>
        ((mergedOf fileLines gap g).map RetrievalHit.span).map fun span => (g.1, span) := by
  rw [mergeOverlappingHits_eq, List.map_flatMap]
  refine List.flatMap_congr fun g hg => ?_
  rw [List.map_map]
  refine List.map_congr_left fun o ho => ?_
  rw [mem_mergedOf_file hg ho]
  rfl

theorem merged_perm {ys : List (RetrievalHit Score)} (h : ys.Perm xs) :
    ((mergeOverlappingHits ys fileLines gap).map fun o => (o.filePath, o.span)).Perm
      ((mergeOverlappingHits xs fileLines gap).map fun o => (o.filePath, o.span)) := by
  rw [merged_spans_eq, merged_spans_eq]
  refine flatMap_groupBy_perm h fun k zs ws hzs => List.Perm.map _ ?_
  refine mergeGroup_perm (sorted_notAfter zs) (sorted_notAfter ws) ?_
  exact (List.perm_insertionSort notAfter zs).trans
    (hzs.trans (List.perm_insertionSort notAfter ws).symm)

end Whole

/-- Merging, for every list of hits and every gap. -/
theorem mergeOverlappingHits_merges (xs : List (RetrievalHit Score))
    (fileLines : Dict (List String)) (gap : JsNumber) :
    Merges gap xs (mergeOverlappingHits xs fileLines gap) ∧
      (∀ ys, ys.Perm xs → ((mergeOverlappingHits ys fileLines gap).map fun o =>
        (o.filePath, o.span)).Perm ((mergeOverlappingHits xs fileLines gap).map fun o =>
          (o.filePath, o.span))) ∧
      mergeOverlappingHits (mergeOverlappingHits xs fileLines gap) fileLines gap =
        mergeOverlappingHits xs fileLines gap := by
  refine ⟨⟨merged_separated xs fileLines gap, merged_grouped xs fileLines gap,
    merged_liesIn xs fileLines gap, merged_once xs fileLines gap⟩, fun ys hys => ?_,
    merged_again xs fileLines gap⟩
  exact merged_perm xs fileLines gap hys

end Sweeping

/-- A hit of one file without a text or a score. -/
def bareHit (startLine endLine : ℤ) : RetrievalHit ℚ := ⟨"a.ts", startLine, endLine, "", none⟩

/-- A gap below zero keeps hits apart that overlap, and so does a hit that ends before it begins: a
hit then lies in two of the merged ones. -/
theorem liesIn_two :
    (mergeOverlappingHits [bareHit 1 10, bareHit 7 8] [] (.finite (-5))).countP
      (fun o => LiesIn (bareHit 7 8) o) = 2 ∧
    (mergeOverlappingHits [bareHit 10 3, bareHit 10 20] [] (.finite 1)).countP
      (fun o => LiesIn (bareHit 10 3) o) = 2 := by
  decide +kernel

end GrepRag
end Batiste
