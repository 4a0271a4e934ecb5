import Batiste.GlobalReplace

/-! Turns of global replacement that run one after another over one text: which characters of the
text each of them takes away, and which a turn puts out of reach of those that follow. -/
namespace Batiste
namespace GlobalReplace

structure Turn where
  rule : Rule
  replacement : List Char

def turn (t : Turn) (xs : List Char) : List Char := target t.replacement (pieces id t.rule xs)

def run (ts : List Turn) (xs : List Char) : List Char := ts.foldl (fun xs t => turn t xs) xs

/-- A character with its place in the text that the turns begin with, or none when a turn wrote
it. -/
abbrev Mark := Char × Option ℕ

def marked (xs : List Char) : List Mark := xs.zipIdx.map fun p => (p.1, some p.2)

def fresh (xs : List Char) : List Mark := xs.map fun c => (c, none)

def places (xs : List Mark) : List ℕ := xs.filterMap Prod.snd

def markedTurn (t : Turn) (xs : List Mark) : List Mark :=
  target (fresh t.replacement) (pieces Prod.fst t.rule xs)

/-- The places that the matches of a turn take up. -/
def taken (t : Turn) (xs : List Mark) : List ℕ := places (matched (pieces Prod.fst t.rule xs))

/-- The places that some turn matches. -/
def covered (ts : List Turn) (xs : List Mark) : List ℕ := ts.flatMap fun t => taken t xs

/-- The text before the `k`-th turn. -/
def stage (ts : List Turn) (xs : List Char) (k : ℕ) : List Mark :=
  (ts.take k).foldl (fun xs t => markedTurn t xs) (marked xs)

def takenAt (ts : List Turn) (xs : List Char) (k : ℕ) : List ℕ :=
  ts[k]?.elim [] fun t => taken t (stage ts xs k)

/-- The `k`-th turn takes a place out of reach: it or a later turn matches the place before it,
it does not replace the place, and no later turn matches the place after it. -/
def Exposed (ts : List Turn) (xs : List Char) (k n : ℕ) : Prop :=
  n ∈ covered (ts.drop k) (stage ts xs k) ∧ n ∈ places (stage ts xs (k + 1)) ∧
    n ∉ covered (ts.drop (k + 1)) (stage ts xs (k + 1))

/-- Nothing that a turn matches in the text is left at the end. -/
def Absent (ts : List Turn) (xs : List Char) : Prop :=
  ∀ n ∈ covered ts (marked xs), n ∉ places (stage ts xs ts.length)

/-! ## Marks change nothing about the pieces -/

variable {α β : Type*}

theorem scan_map {charα : α → Char} {charβ : β → Char} {f : α → β} (hf : ∀ a, charβ (f a) = charα a)
    (r : Rule) (prev : Option Char) (k : ℕ) (xs : List α) :
    scan charβ r prev k (xs.map f) = (scan charα r prev k xs).map (Piece.map f) := by
  induction xs generalizing prev k with
  | nil => cases k <;> rfl
  | cons a as ih =>
    cases k with
    | succ k => rw [List.map_cons, scan, scan, hf, ih]
    | zero =>
      have hchars : ((f a :: as.map f).map charβ) = (a :: as).map charα := by
        simp [hf, Function.comp_def]
      rw [List.map_cons, scan, scan, hchars]
      cases find r prev ((a :: as).map charα) with
      | none => simp [ih, hf, Piece.map]
      | some n => simp [ih, hf, Piece.map, List.map_take]

theorem source_map (f : α → β) (ps : List (Piece α)) :
    source (ps.map (Piece.map f)) = (source ps).map f := by
  induction ps with
  | nil => rfl
  | cons p ps ih =>
    cases p with
    | kept a => simp [Piece.map, ih]
    | hit w => simp [Piece.map, ih]

theorem target_map (f : α → β) (rep : List α) (ps : List (Piece α)) :
    target (rep.map f) (ps.map (Piece.map f)) = (target rep ps).map f := by
  induction ps with
  | nil => rfl
  | cons p ps ih =>
    cases p with
    | kept a => simp [Piece.map, ih]
    | hit w => simp [Piece.map, ih]

theorem pieces_marks (r : Rule) (xs : List Mark) :
    pieces id r (xs.map Prod.fst) = (pieces Prod.fst r xs).map (Piece.map Prod.fst) :=
  scan_map (fun _ => rfl) r none 0 xs

@[simp] theorem fresh_chars (xs : List Char) : (fresh xs).map Prod.fst = xs := by
  simp [fresh, Function.comp_def]

@[simp] theorem marked_chars (xs : List Char) : (marked xs).map Prod.fst = xs := by
  simp [marked, Function.comp_def]

theorem markedTurn_chars (t : Turn) (xs : List Mark) :
    (markedTurn t xs).map Prod.fst = turn t (xs.map Prod.fst) := by
  rw [markedTurn, turn, pieces_marks, ← target_map, fresh_chars]

/-- The marks spell the texts that the turns make. -/
theorem stage_chars (ts : List Turn) (xs : List Char) (k : ℕ) :
    (stage ts xs k).map Prod.fst = run (ts.take k) xs := by
  have hfold : ∀ (ts : List Turn) (ms : List Mark),
      (ts.foldl (fun xs t => markedTurn t xs) ms).map Prod.fst = run ts (ms.map Prod.fst) := by
    intro ts
    induction ts with
    | nil => exact fun _ => rfl
    | cons t ts ih =>
      intro ms
      rw [List.foldl_cons, ih, markedTurn_chars]
      rfl
  rw [stage, hfold, marked_chars]

theorem stage_succ {ts : List Turn} {xs : List Char} {k : ℕ} {t : Turn} (ht : ts[k]? = some t) :
    stage ts xs (k + 1) = markedTurn t (stage ts xs k) := by
  rw [stage, stage, List.take_add_one, ht, List.foldl_append]
  rfl

theorem stage_of_length_le {ts : List Turn} {xs : List Char} {k : ℕ} (hk : ts.length ≤ k) :
    stage ts xs k = stage ts xs ts.length := by
  rw [stage, stage, List.take_of_length_le hk, List.take_length]

/-! ## What becomes of a place -/

theorem places_append (xs ys : List Mark) : places (xs ++ ys) = places xs ++ places ys :=
  List.filterMap_append

theorem places_cons (a : Mark) (xs : List Mark) : places (a :: xs) = places [a] ++ places xs :=
  places_append [a] xs

@[simp] theorem places_fresh (xs : List Char) : places (fresh xs) = [] := by
  simp [places, fresh]

theorem places_zipIdx (xs : List Char) (n : ℕ) :
    places ((xs.zipIdx n).map fun p => (p.1, some p.2)) = List.range' n xs.length := by
  rw [places, List.filterMap_map, ← List.zipIdx_map_snd n xs]
  exact congrFun (List.filterMap_eq_map' (f := Prod.snd)) (xs.zipIdx n)

/-- A stretch of the marked text has the places that it stands at. -/
theorem places_of_marked {xs : List Char} {u w v : List Mark} (h : marked xs = u ++ (w ++ v)) :
    places w = List.range' u.length w.length := by
  have hxs : xs = u.map Prod.fst ++ (w.map Prod.fst ++ v.map Prod.fst) := by
    rw [← List.map_append, ← List.map_append, ← h, marked_chars]
  subst hxs
  rw [marked, List.zipIdx_append, List.zipIdx_append, List.map_append, List.map_append] at h
  obtain ⟨-, hrest⟩ := List.append_inj h (by simp)
  obtain ⟨hw, -⟩ := List.append_inj hrest (by simp)
  rw [← hw, places_zipIdx]
  simp

theorem places_marked (xs : List Char) : places (marked xs) = List.range' 0 xs.length :=
  places_zipIdx xs 0

theorem places_target_sublist (rep : List Char) (ps : List (Piece Mark)) :
    (places (target (fresh rep) ps)).Sublist (places (source ps)) := by
  induction ps with
  | nil => exact .refl []
  | cons p ps ih =>
    cases p with
    | kept a =>
      rw [target_kept, source_kept, places_cons, places_cons a (source ps)]
      exact ih.append_left _
    | hit w =>
      rw [target_hit, source_hit, places_append, places_append, places_fresh, List.nil_append]
      exact ih.trans (List.sublist_append_right _ _)

theorem mem_places_source {rep : List Char} {ps : List (Piece Mark)} {n : ℕ}
    (h : n ∈ places (source ps)) :
    n ∈ places (target (fresh rep) ps) ∨ n ∈ places (matched ps) := by
  induction ps with
  | nil => exact .inl h
  | cons p ps ih =>
    cases p with
    | kept a =>
      rw [source_kept, places_cons, List.mem_append] at h
      rw [target_kept, places_cons, List.mem_append, matched_kept]
      obtain h | h := h
      · exact .inl (.inl h)
      · exact (ih h).imp .inr id
    | hit w =>
      rw [source_hit, places_append, List.mem_append] at h
      rw [target_hit, places_append, places_fresh, List.nil_append, matched_hit, places_append,
        List.mem_append]
      obtain h | h := h
      · exact .inr (.inl h)
      · exact (ih h).imp id .inr

theorem places_matched_sublist (ps : List (Piece Mark)) :
    (places (matched ps)).Sublist (places (source ps)) := by
  induction ps with
  | nil => exact .refl []
  | cons p ps ih =>
    cases p with
    | kept a =>
      rw [matched_kept, source_kept, places_cons]
      exact ih.trans (List.sublist_append_right _ _)
    | hit w =>
      rw [matched_hit, source_hit, places_append, places_append]
      exact ih.append_left _

theorem not_mem_target_of_matched {rep : List Char} {ps : List (Piece Mark)} {n : ℕ}
    (hnodup : (places (source ps)).Nodup) (h : n ∈ places (matched ps)) :
    n ∉ places (target (fresh rep) ps) := by
  induction ps with
  | nil => exact List.not_mem_nil
  | cons p ps ih =>
    cases p with
    | kept a =>
      rw [source_kept, places_cons, List.nodup_append'] at hnodup
      rw [matched_kept] at h
      rw [target_kept, places_cons, List.mem_append, not_or]
      refine ⟨fun ha => hnodup.2.2 ha ((places_matched_sublist ps).subset h), ih hnodup.2.1 h⟩
    | hit w =>
      rw [source_hit, places_append, List.nodup_append'] at hnodup
      rw [matched_hit, places_append, List.mem_append] at h
      rw [target_hit, places_append, places_fresh, List.nil_append]
      obtain h | h := h
      · exact fun hn => hnodup.2.2 h ((places_target_sublist rep ps).subset hn)
      · exact ih hnodup.2.1 h

variable {ts : List Turn} {xs : List Char}

theorem places_markedTurn_sublist (t : Turn) (ms : List Mark) :
    (places (markedTurn t ms)).Sublist (places ms) := by
  have := places_target_sublist t.replacement (pieces Prod.fst t.rule ms)
  rwa [source_pieces] at this

theorem places_stage_succ_sublist (k : ℕ) :
    (places (stage ts xs (k + 1))).Sublist (places (stage ts xs k)) := by
  cases ht : ts[k]? with
  | some t =>
    rw [stage_succ ht]
    exact places_markedTurn_sublist t _
  | none =>
    have hk : ts.length ≤ k := List.getElem?_eq_none_iff.mp ht
    rw [stage_of_length_le (hk.trans (Nat.le_succ k)), stage_of_length_le hk]

theorem places_stage_sublist {j k : ℕ} (hjk : j ≤ k) :
    (places (stage ts xs k)).Sublist (places (stage ts xs j)) := by
  induction k, hjk using Nat.le_induction with
  | base => exact .refl _
  | succ k _ ih => exact (places_stage_succ_sublist k).trans ih

theorem nodup_places_stage (k : ℕ) : (places (stage ts xs k)).Nodup := by
  refine (places_stage_sublist (Nat.zero_le k)).nodup ?_
  rw [stage, List.take_zero, List.foldl_nil, places_marked]
  exact List.nodup_range'

/-- A turn takes its matches away, and nothing else. -/
theorem mem_places_stage_succ {k n : ℕ} :
    n ∈ places (stage ts xs (k + 1)) ↔ n ∈ places (stage ts xs k) ∧ n ∉ takenAt ts xs k := by
  cases ht : ts[k]? with
  | none =>
    have hk : ts.length ≤ k := List.getElem?_eq_none_iff.mp ht
    rw [stage_of_length_le (hk.trans (Nat.le_succ k)), stage_of_length_le hk, takenAt, ht]
    simp
  | some t =>
    have hnodup : (places (source (pieces Prod.fst t.rule (stage ts xs k)))).Nodup := by
      rw [source_pieces]
      exact nodup_places_stage k
    rw [takenAt, ht, stage_succ ht, Option.elim_some]
    constructor
    · intro h
      exact ⟨(places_markedTurn_sublist t _).subset h,
        fun hn => not_mem_target_of_matched hnodup hn h⟩
    · rintro ⟨h, hn⟩
      rw [← source_pieces Prod.fst t.rule (stage ts xs k)] at h
      exact (mem_places_source h).resolve_right hn

/-- A place is gone at the end exactly when some turn takes it. -/
theorem not_mem_stage_iff {j k n : ℕ} (hjk : j ≤ k) (hn : n ∈ places (stage ts xs j)) :
    n ∉ places (stage ts xs k) ↔ ∃ i, j ≤ i ∧ i < k ∧ n ∈ takenAt ts xs i := by
  induction k, hjk using Nat.le_induction with
  | base => exact ⟨fun h => absurd hn h, fun h => by omega⟩
  | succ k hjk ih =>
    rw [mem_places_stage_succ, not_and_or, not_not, ih]
    constructor
    · rintro (⟨i, hi, hik, htaken⟩ | htaken)
      · exact ⟨i, hi, by omega, htaken⟩
      · exact ⟨k, hjk, by omega, htaken⟩
    · rintro ⟨i, hi, hik, htaken⟩
      obtain hlt | rfl : i < k ∨ i = k := by omega
      · exact .inl ⟨i, hi, hlt, htaken⟩
      · exact .inr htaken

/-- What the turns match in the text is gone at the end exactly when a later turn takes each of
these places that a turn puts out of reach. -/
theorem absent_iff :
    Absent ts xs ↔ ∀ k, ∀ n ∈ covered ts (marked xs), Exposed ts xs k n →
      ∃ j, k < j ∧ n ∈ takenAt ts xs j := by
  constructor
  · intro h k n hn hexposed
    have hk : k + 1 ≤ ts.length := by
      by_contra hlong
      have hdrop : ts.drop k = [] := List.drop_eq_nil_of_le (by omega)
      rw [Exposed, hdrop] at hexposed
      exact List.not_mem_nil hexposed.1
    obtain ⟨j, hj, -, htaken⟩ := (not_mem_stage_iff hk hexposed.2.1).mp (h n hn)
    exact ⟨j, hj, htaken⟩
  · intro h n hn hleft
    -- a place that is left is in reach at the beginning and not at the end, so some turn exposes it
    have hreach : ∀ k, n ∈ covered (ts.drop k) (stage ts xs k) := by
      intro k
      induction k with
      | zero => exact hn
      | succ k ih =>
        by_contra hno
        have hplace : ∀ j, n ∈ places (stage ts xs j) := fun j => by
          obtain hj | hj := Nat.le_total j ts.length
          · exact (places_stage_sublist hj).subset hleft
          · rwa [stage_of_length_le hj]
        obtain ⟨j, -, htaken⟩ := h k n hn ⟨ih, hplace (k + 1), hno⟩
        exact (mem_places_stage_succ.mp (hplace (j + 1))).2 htaken
    have hend := hreach ts.length
    rw [List.drop_length] at hend
    exact List.not_mem_nil hend

/-! ## Stretches that a turn leaves alone -/

variable {char : α → Char} {r : Rule}

theorem hit_ne_nil {ys old : List α} (h : .hit old ∈ pieces char r ys) : old ≠ [] := by
  obtain ⟨ps, qs, hps⟩ := List.append_of_mem h
  rintro rfl
  exact (stands_at_hit hps).ne_nil rfl

theorem prefix_kept {w v : List α} {ps : List (Piece α)} (hne : ∀ old, .hit old ∈ ps → old ≠ [])
    (hno : ∀ a ∈ w, a ∉ matched ps) (h : source ps = w ++ v) :
    ∃ qs, ps = w.map .kept ++ qs ∧ source qs = v := by
  induction w generalizing ps with
  | nil => exact ⟨ps, rfl, h⟩
  | cons a w ih =>
    cases ps with
    | nil => cases h
    | cons p ps =>
      cases p with
      | kept b =>
        obtain ⟨rfl, htail⟩ := List.cons.inj h
        obtain ⟨qs, rfl, hv⟩ := ih (fun old hold => hne old (List.mem_cons_of_mem _ hold))
          (fun c hc => hno c (List.mem_cons_of_mem _ hc)) htail
        exact ⟨qs, rfl, hv⟩
      | hit old =>
        obtain ⟨b, old, rfl⟩ := List.exists_cons_of_ne_nil (hne old List.mem_cons_self)
        obtain ⟨rfl, -⟩ := List.cons.inj h
        exact absurd (List.mem_cons_self : b ∈ b :: (old ++ matched ps)) (hno b List.mem_cons_self)

/-- A stretch of which no character is matched is kept as a whole. -/
theorem kept_of_not_matched {x w v : List α} {ps : List (Piece α)}
    (hne : ∀ old, .hit old ∈ ps → old ≠ []) (hw : w ≠ []) (hno : ∀ a ∈ w, a ∉ matched ps)
    (h : source ps = x ++ (w ++ v)) :
    ∃ ps₁ qs, ps = ps₁ ++ (w.map .kept ++ qs) ∧ source ps₁ = x ∧ source qs = v := by
  induction ps generalizing x with
  | nil =>
    have hnil := (List.append_eq_nil_iff.mp h.symm).2
    exact absurd (List.append_eq_nil_iff.mp hnil).1 hw
  | cons p ps ih =>
    have hne' : ∀ old, .hit old ∈ ps → old ≠ [] := fun old hold =>
      hne old (List.mem_cons_of_mem _ hold)
    cases x with
    | nil =>
      obtain ⟨qs, hqs, hv⟩ := prefix_kept hne hno h
      exact ⟨[], qs, hqs, rfl, hv⟩
    | cons b x =>
      cases p with
      | kept c =>
        obtain ⟨rfl, htail⟩ := List.cons.inj h
        obtain ⟨ps₁, qs, rfl, rfl, hv⟩ := ih hne' hno htail
        exact ⟨.kept c :: ps₁, qs, rfl, rfl, hv⟩
      | hit old =>
        have hno' : ∀ a ∈ w, a ∉ matched ps := fun a ha hm =>
          hno a ha (by rw [matched_hit]; exact List.mem_append_right old hm)
        rw [source_hit, List.append_eq_append_iff] at h
        obtain ⟨y, hx, hrest⟩ | ⟨y, hold, hrest⟩ := h
        · obtain ⟨ps₁, qs, rfl, rfl, hv⟩ := ih hne' hno' hrest
          exact ⟨.hit old :: ps₁, qs, rfl, by rw [source_hit, hx], hv⟩
        · cases y with
          | nil =>
            obtain ⟨ps₁, qs, rfl, hnil, hv⟩ := ih (x := []) hne' hno' hrest.symm
            refine ⟨.hit old :: ps₁, qs, rfl, ?_, hv⟩
            rw [source_hit, hnil, hold, List.append_nil, List.append_nil]
          | cons d y =>
            -- the stretch would begin in the match
            obtain ⟨a, w, rfl⟩ := List.exists_cons_of_ne_nil hw
            obtain ⟨rfl, -⟩ := List.cons.inj hrest
            refine absurd ?_ (hno a List.mem_cons_self)
            rw [matched_hit, hold]
            simp

/-! ## Turns that find nothing -/

theorem target_of_no_hit {rep : List α} {ps : List (Piece α)} (h : ∀ old, .hit old ∉ ps) :
    target rep ps = source ps := by
  induction ps with
  | nil => rfl
  | cons p ps ih =>
    cases p with
    | kept a =>
      rw [target_kept, source_kept, ih fun old hold => h old (List.mem_cons_of_mem _ hold)]
    | hit old => exact absurd List.mem_cons_self (h old)

theorem no_hit_of_free {ys : List α} (h : Free char r ys) (old : List α) :
    .hit old ∉ pieces char r ys := by
  intro hold
  obtain ⟨ps, qs, hps⟩ := List.append_of_mem hold
  have hsource := congrArg source hps
  rw [source_pieces, source_append, source_hit] at hsource
  exact h _ old _ hsource.symm (stands_at_hit hps)

theorem turn_of_free {t : Turn} (h : Free id t.rule xs) : turn t xs = xs := by
  rw [turn, target_of_no_hit (no_hit_of_free h), source_pieces]

theorem exists_hit_of_not_free {ys : List α} (h : ¬ Free char r ys) :
    ∃ old, .hit old ∈ pieces char r ys := by
  by_contra hno
  push Not at hno
  refine h fun x w v hys hw => ?_
  have hwne : w ≠ [] := fun hnil => hw.ne_nil (by rw [hnil, List.map_nil])
  have hmatched : ∀ a ∈ w, a ∉ matched (pieces char r ys) := by
    intro a _ ha
    obtain ⟨p, hp, hap⟩ := List.mem_flatMap.mp ha
    cases p with
    | kept b => exact List.not_mem_nil hap
    | hit old => exact hno old hp
  obtain ⟨ps₁, qs, hps, rfl, rfl⟩ := kept_of_not_matched (fun old hold => absurd hold (hno old)) hwne
    hmatched ((source_pieces char r ys).trans hys.symm)
  obtain ⟨a, w, rfl⟩ := List.exists_cons_of_ne_nil hwne
  exact not_stands_at_kept hps (by simp) hw

theorem run_append_cons (a b : List Turn) (t : Turn) (xs : List Char) :
    run (a ++ t :: b) xs = run b (turn t (run a xs)) := by
  rw [run, List.foldl_append]
  rfl

theorem free_run {ts : List Turn} {xs : List Char}
    (hstep : ∀ t ∈ ts, ∀ ys, Free id r ys → Free id r (turn t ys)) (h : Free id r xs) :
    Free id r (run ts xs) := by
  induction ts generalizing xs with
  | nil => exact h
  | cons t ts ih =>
    exact ih (fun t ht => hstep t (List.mem_cons_of_mem _ ht)) (hstep t List.mem_cons_self xs h)

theorem run_of_free {ts : List Turn} {xs : List Char} (h : ∀ t ∈ ts, Free id t.rule xs) :
    run ts xs = xs := by
  induction ts with
  | nil => rfl
  | cons t ts ih =>
    rw [run, List.foldl_cons, turn_of_free (h t List.mem_cons_self)]
    exact ih fun t ht => h t (List.mem_cons_of_mem _ ht)

/-! ## Characters that no replacement brings back -/

theorem count_target_le {c : Char} {rep : List Char} (hrep : c ∉ rep) (ps : List (Piece Char)) :
    (target rep ps).count c + (matched ps).count c = (source ps).count c := by
  induction ps with
  | nil => rfl
  | cons p ps ih =>
    cases p with
    | kept a =>
      rw [target_kept, matched_kept, source_kept, List.count_cons, List.count_cons]
      omega
    | hit w =>
      rw [target_hit, matched_hit, source_hit, List.count_append, List.count_append,
        List.count_append, List.count_eq_zero_of_not_mem hrep]
      omega

theorem count_run_le {c : Char} {ts : List Turn} {xs : List Char}
    (h : ∀ t ∈ ts, c ∉ t.replacement) : (run ts xs).count c ≤ xs.count c := by
  induction ts generalizing xs with
  | nil => exact le_rfl
  | cons t ts ih =>
    have hturn := count_target_le (h t List.mem_cons_self) (pieces id t.rule xs)
    rw [source_pieces] at hturn
    have hrest : (run ts (turn t xs)).count c ≤ (turn t xs).count c :=
      ih fun t ht => h t (List.mem_cons_of_mem _ ht)
    refine hrest.trans ?_
    rw [← hturn]
    exact Nat.le_add_right _ _

end GlobalReplace
end Batiste
