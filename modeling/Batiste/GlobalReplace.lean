import Batiste.SpanRegex

/-! Global replacement: the leftmost matches of an expression that do not overlap give way to a
fixed text, and several such turns run one after another. -/
namespace Batiste
namespace GlobalReplace

open SpanRegex

def wordChar (c : Char) : Bool := c.isAlphanum || c == '_'

/-- `\b` between two neighbours, of which one can be missing. -/
def boundary (a b : Option Char) : Bool := a.any wordChar != b.any wordChar

/-- An expression that matches no empty word; with edges it stands between two `\b`. -/
structure Rule where
  edges : Bool
  body : Re
  occupied : 0 < least body

def edgesOk (r : Rule) (prev : Option Char) (cs : List Char) (n : ℕ) : Bool :=
  !r.edges || (boundary prev cs.head? && boundary (cs.take n).getLast? (cs.drop n).head?)

/-- The length of the match at the beginning of a text that follows a character. -/
def find (r : Rule) (prev : Option Char) (cs : List Char) : Option ℕ :=
  (spans r.body cs).find? (edgesOk r prev cs)

inductive Piece (α : Type*)
  | kept (a : α)
  | hit (w : List α)
deriving DecidableEq

variable {α β : Type*}

namespace Piece

def source : Piece α → List α
  | kept a => [a]
  | hit w => w

def target (rep : List α) : Piece α → List α
  | kept a => [a]
  | hit _ => rep

def matched : Piece α → List α
  | kept _ => []
  | hit w => w

def isHit : Piece α → Bool
  | kept _ => false
  | hit _ => true

def map (f : α → β) : Piece α → Piece β
  | kept a => kept (f a)
  | hit w => hit (w.map f)

end Piece

def source (ps : List (Piece α)) : List α := ps.flatMap Piece.source

def target (rep : List α) (ps : List (Piece α)) : List α := ps.flatMap (Piece.target rep)

def matched (ps : List (Piece α)) : List α := ps.flatMap Piece.matched

variable (char : α → Char)

/-- The pieces of a text of which the first `k` characters belong to a match already. -/
def scan (r : Rule) : Option Char → ℕ → List α → List (Piece α)
  | _, _, [] => []
  | _, k + 1, a :: as => scan r (some (char a)) k as
  | prev, 0, a :: as =>
    match find r prev ((a :: as).map char) with
    | none => .kept a :: scan r (some (char a)) 0 as
    | some n => .hit ((a :: as).take n) :: scan r (some (char a)) (n - 1) as

def pieces (r : Rule) (xs : List α) : List (Piece α) := scan char r none 0 xs

@[simp] theorem source_nil : source ([] : List (Piece α)) = [] := rfl

@[simp] theorem target_nil (rep : List α) : target rep [] = [] := rfl

@[simp] theorem source_append (ps qs : List (Piece α)) :
    source (ps ++ qs) = source ps ++ source qs := List.flatMap_append

@[simp] theorem target_append (rep : List α) (ps qs : List (Piece α)) :
    target rep (ps ++ qs) = target rep ps ++ target rep qs := List.flatMap_append

@[simp] theorem source_kept (a : α) (ps : List (Piece α)) :
    source (.kept a :: ps) = a :: source ps := rfl

@[simp] theorem source_hit (w : List α) (ps : List (Piece α)) :
    source (.hit w :: ps) = w ++ source ps := rfl

@[simp] theorem target_kept (rep : List α) (a : α) (ps : List (Piece α)) :
    target rep (.kept a :: ps) = a :: target rep ps := rfl

@[simp] theorem target_hit (rep w : List α) (ps : List (Piece α)) :
    target rep (.hit w :: ps) = rep ++ target rep ps := rfl

@[simp] theorem matched_kept (a : α) (ps : List (Piece α)) :
    matched (.kept a :: ps) = matched ps := rfl

@[simp] theorem matched_hit (w : List α) (ps : List (Piece α)) :
    matched (.hit w :: ps) = w ++ matched ps := rfl

@[simp] theorem source_map_kept (w : List α) : source (w.map .kept) = w := by
  induction w with
  | nil => rfl
  | cons a w ih => rw [List.map_cons, source_kept, ih]

@[simp] theorem target_map_kept (rep w : List α) : target rep (w.map .kept) = w := by
  induction w with
  | nil => rfl
  | cons a w ih => rw [List.map_cons, target_kept, ih]

/-! ## What is found -/

/-- A word of the rule stands in front of `v`, behind a character. -/
def Stands (r : Rule) (prev : Option Char) (w v : List Char) : Prop :=
  Lang r.body w ∧
    (r.edges = true → boundary prev w.head? = true ∧ boundary w.getLast? v.head? = true)

variable {r : Rule} {prev : Option Char}

theorem Stands.ne_nil {w v : List Char} (h : Stands r prev w v) : w ≠ [] := by
  have hleast := least_le h.1
  have hpos := r.occupied
  exact List.ne_nil_of_length_pos (hpos.trans_le hleast)

theorem edgesOk_iff {w v : List Char} (hw : w ≠ []) :
    edgesOk r prev (w ++ v) w.length = true ↔
      (r.edges = true → boundary prev w.head? = true ∧ boundary w.getLast? v.head? = true) := by
  rw [edgesOk, List.take_left, List.drop_left, List.head?_append_of_ne_nil _ hw]
  cases r.edges with
  | false => simp
  | true => simp

theorem find_eq_none {cs w v : List Char} (h : find r prev cs = none) (hcs : w ++ v = cs) :
    ¬ Stands r prev w v := by
  intro hw
  have hmem : w.length ∈ spans r.body cs := mem_spans.mpr ⟨w, v, hcs, hw.1, rfl⟩
  have hno := List.find?_eq_none.mp h _ hmem
  rw [← hcs] at hno
  exact hno ((edgesOk_iff hw.ne_nil).mpr hw.2)

theorem find_eq_some {cs : List Char} {n : ℕ} (h : find r prev cs = some n) :
    ∃ w v, w ++ v = cs ∧ w.length = n ∧ Stands r prev w v := by
  obtain ⟨w, v, rfl, hw, rfl⟩ := mem_spans.mp (List.mem_of_find?_eq_some h)
  have hne : w ≠ [] := List.ne_nil_of_length_pos (r.occupied.trans_le (least_le hw))
  exact ⟨w, v, rfl, rfl, hw, (edgesOk_iff hne).mp (List.find?_some h)⟩

/-! ## The pieces of a text -/

/-- Each match is the one that is found where it stands, and none stands at a kept character. -/
inductive Scanned (r : Rule) : Option Char → List (Piece α) → Prop
  | nil (c : Option Char) : Scanned r c []
  | kept {c : Option Char} {a : α} {ps : List (Piece α)} :
      find r c ((a :: source ps).map char) = none →
      Scanned r (some (char a)) ps → Scanned r c (.kept a :: ps)
  | hit {c : Option Char} {w : List α} {ps : List (Piece α)} :
      find r c ((w ++ source ps).map char) = some w.length →
      Scanned r ((w.map char).getLast?.or c) ps → Scanned r c (.hit w :: ps)

theorem getLast?_cons_or {a : Char} {as : List Char} {prev : Option Char} :
    (a :: as).getLast?.or prev = as.getLast?.or (some a) := by
  rw [List.getLast?_cons]
  cases as.getLast? with
  | none => rfl
  | some b => rfl

theorem scan_spec (r : Rule) (prev : Option Char) (k : ℕ) (xs : List α) :
    source (scan char r prev k xs) = xs.drop k ∧
      Scanned char r (((xs.take k).map char).getLast?.or prev) (scan char r prev k xs) := by
  induction xs generalizing prev k with
  | nil => exact ⟨by simp [scan, source], .nil _⟩
  | cons a as ih =>
    cases k with
    | succ k =>
      rw [scan, List.take_succ_cons, List.map_cons, getLast?_cons_or]
      exact ih _ k
    | zero =>
      rw [scan]
      cases hfind : find r prev ((a :: as).map char) with
      | none =>
        obtain ⟨hsource, hscanned⟩ := ih (some (char a)) 0
        rw [List.drop_zero] at hsource
        refine ⟨congrArg (a :: ·) hsource, .kept ?_ hscanned⟩
        rwa [hsource]
      | some n =>
        obtain ⟨w, v, hcs, rfl, hw⟩ := find_eq_some hfind
        obtain ⟨m, hm⟩ := Nat.exists_eq_succ_of_ne_zero (by simpa using hw.ne_nil : w.length ≠ 0)
        obtain ⟨hsource, hscanned⟩ := ih (some (char a)) m
        have hjoin : (a :: as).take (m + 1) ++ source (scan char r (some (char a)) m as) = a :: as := by
          rw [hsource, List.take_succ_cons, List.cons_append, List.take_append_drop]
        have hlen : ((a :: as).take (m + 1)).length = m + 1 := by
          have htotal := congrArg List.length hcs
          rw [List.length_append, List.length_map] at htotal
          exact List.length_take_of_le (by omega)
        rw [hm]
        refine ⟨hjoin, .hit ?_ ?_⟩
        · rw [Nat.succ_sub_one, hjoin, hlen, ← Nat.succ_eq_add_one, ← hm]
          exact hfind
        · rw [List.take_succ_cons, List.map_cons, getLast?_cons_or]
          exact hscanned

@[simp] theorem source_pieces (r : Rule) (xs : List α) : source (pieces char r xs) = xs := by
  have := (scan_spec char r none 0 xs).1
  rwa [List.drop_zero] at this

theorem scanned_pieces (r : Rule) (xs : List α) : Scanned char r none (pieces char r xs) :=
  (scan_spec char r none 0 xs).2

variable {char}

theorem Scanned.append_right {ps qs : List (Piece α)} (h : Scanned char r prev (ps ++ qs)) :
    Scanned char r (((source ps).map char).getLast?.or prev) qs := by
  induction ps generalizing prev with
  | nil => exact h
  | cons p ps ih =>
    rw [List.cons_append] at h
    cases h with
    | kept _ h =>
      rw [source_kept, List.map_cons, getLast?_cons_or]
      exact ih h
    | hit _ h =>
      rw [source_hit, List.map_append, List.getLast?_append, Option.or_assoc]
      exact ih h

theorem not_stands_at_kept {xs : List α} {ps qs : List (Piece α)} {a : α} {w v : List α}
    (h : pieces char r xs = ps ++ .kept a :: qs) (hw : w ++ v = a :: source qs) :
    ¬ Stands r ((source ps).map char).getLast? (w.map char) (v.map char) := by
  have hscanned := (h ▸ scanned_pieces char r xs).append_right
  rw [Option.or_none] at hscanned
  cases hscanned with
  | kept hfind _ => exact find_eq_none hfind (by rw [← List.map_append, hw])

theorem find_at_hit {xs : List α} {ps qs : List (Piece α)} {w : List α}
    (h : pieces char r xs = ps ++ .hit w :: qs) :
    find r ((source ps).map char).getLast? (w.map char ++ (source qs).map char) = some w.length := by
  have hscanned := (h ▸ scanned_pieces char r xs).append_right
  rw [Option.or_none] at hscanned
  cases hscanned with
  | hit hfind _ => rwa [List.map_append] at hfind

theorem stands_at_hit {xs : List α} {ps qs : List (Piece α)} {w : List α}
    (h : pieces char r xs = ps ++ .hit w :: qs) :
    Stands r ((source ps).map char).getLast? (w.map char) ((source qs).map char) := by
  obtain ⟨u, v, hcs, hlen, hu⟩ := find_eq_some (find_at_hit h)
  obtain ⟨rfl, rfl⟩ := List.append_inj hcs (by rw [hlen, List.length_map])
  exact hu

/-! ## Words in the text after a turn -/

/-- A stretch at the beginning of the new text is kept, or it runs from kept characters into the
first replacement. -/
theorem prefix_target {rep w v : List α} {ps : List (Piece α)} (h : w ++ v = target rep ps) :
    (∃ qs, ps = w.map .kept ++ qs ∧ v = target rep qs) ∨
      ∃ x z old qs, w = x ++ z ∧ z ≠ [] ∧ ps = x.map .kept ++ .hit old :: qs ∧
        z ++ v = rep ++ target rep qs := by
  induction w generalizing ps with
  | nil => exact .inl ⟨ps, rfl, h⟩
  | cons a w ih =>
    cases ps with
    | nil => cases h
    | cons p ps =>
      cases p with
      | hit old => exact .inr ⟨[], a :: w, old, ps, rfl, List.cons_ne_nil a w, rfl, h⟩
      | kept b =>
        obtain ⟨rfl, htail⟩ := List.cons.inj h
        obtain ⟨qs, rfl, hv⟩ | ⟨x, z, old, qs, rfl, hz, rfl, hv⟩ := ih htail
        · exact .inl ⟨qs, rfl, hv⟩
        · exact .inr ⟨a :: x, z, old, qs, rfl, hz, rfl, hv⟩

/-- A place of the new text is at a kept character or inside a replacement. -/
theorem cut_target {rep x y : List α} {ps : List (Piece α)} (h : x ++ y = target rep ps)
    (hy : y ≠ []) :
    (∃ ps₁ a ps₂, ps = ps₁ ++ .kept a :: ps₂ ∧ x = target rep ps₁ ∧ y = a :: target rep ps₂) ∨
      ∃ s t, s ≠ [] ∧ s <:+ rep ∧ y = s ++ t := by
  induction ps generalizing x with
  | nil => exact absurd (List.append_eq_nil_iff.mp h).2 hy
  | cons p ps ih =>
    cases p with
    | kept a =>
      cases x with
      | nil => exact .inl ⟨[], a, ps, rfl, rfl, h⟩
      | cons b x =>
        obtain ⟨rfl, htail⟩ := List.cons.inj h
        obtain ⟨ps₁, c, ps₂, rfl, rfl, hy⟩ | hinside := ih htail
        · exact .inl ⟨.kept b :: ps₁, c, ps₂, rfl, rfl, hy⟩
        · exact .inr hinside
    | hit old =>
      rw [target_hit, List.append_eq_append_iff] at h
      obtain ⟨s, hrep, hrest⟩ | ⟨x, rfl, hrest⟩ := h
      · by_cases hs : s = []
        · subst hs
          rw [List.nil_append] at hrest
          obtain ⟨ps₁, c, ps₂, rfl, hx, hy⟩ | hinside := ih (x := []) hrest
          · refine .inl ⟨.hit old :: ps₁, c, ps₂, rfl, ?_, hy⟩
            rw [target_hit, ← hx, hrep, List.append_nil, List.append_nil]
          · exact .inr hinside
        · exact .inr ⟨s, target rep ps, hs, ⟨x, hrep.symm⟩, hrest⟩
      · obtain ⟨ps₁, c, ps₂, rfl, rfl, hy⟩ | hinside := ih hrest.symm
        · exact .inl ⟨.hit old :: ps₁, c, ps₂, rfl, rfl, hy⟩
        · exact .inr hinside

variable (char) in
/-- No word of the rule stands in a text. -/
def Free (r : Rule) (xs : List α) : Prop :=
  ∀ x w v, x ++ (w ++ v) = xs →
    ¬ Stands r (x.map char).getLast? (w.map char) (v.map char)

variable (char) in
/-- No word of the rule stands at a character that a turn keeps. -/
def Spared (r : Rule) (ps : List (Piece α)) : Prop :=
  ∀ ps₁ a ps₂ w v, ps = ps₁ ++ .kept a :: ps₂ → w ++ v = a :: source ps₂ →
    ¬ Stands r ((source ps₁).map char).getLast? (w.map char) (v.map char)

theorem spared_pieces (r : Rule) (xs : List α) : Spared char r (pieces char r xs) :=
  fun _ _ _ _ _ hps hw => not_stands_at_kept hps hw

theorem Free.spared {xs : List α} {ps : List (Piece α)} (h : Free char r xs)
    (hps : source ps = xs) : Spared char r ps := by
  rintro ps₁ a ps₂ w v rfl hw
  rw [source_append, source_kept, ← hw] at hps
  exact h _ w v hps

/-- No word begins inside a replacement. -/
def quiet (re : Re) (rep : List Char) : Bool :=
  rep.tails.all fun s =>
    s.isEmpty || !s.head?.any (begins · re) ||
      decide ((s.takeWhile (admits · re)).length < min (least re) s.length)

theorem quiet_spec {re : Re} {rep s t w v : List Char} (h : quiet re rep = true) (hs : s ≠ [])
    (hrep : s <:+ rep) (hne : w ≠ []) (hw : w ++ v = s ++ t) : ¬ Lang re w := by
  intro hlang
  have hcheck := List.all_eq_true.mp h s ((List.mem_tails _ _).mpr hrep)
  obtain ⟨c, s, rfl⟩ := List.exists_cons_of_ne_nil hs
  obtain ⟨d, w, rfl⟩ := List.exists_cons_of_ne_nil hne
  obtain ⟨rfl, -⟩ := List.cons.inj hw
  rw [List.isEmpty_cons, Bool.false_or, List.head?_cons, Option.any_some, begins_of_head hlang,
    Bool.not_true, Bool.false_or, decide_eq_true_eq, lt_min_iff] at hcheck
  obtain ⟨hshort, hstop⟩ := hcheck
  -- the word consists of admitted characters, so it ends within the run at the beginning of `s`
  have hrun : (d :: w).length ≤ ((d :: s ++ t).takeWhile (admits · re)).length := by
    rw [← hw, List.takeWhile_append_of_pos fun c hc => admits_of_mem hlang hc, List.length_append]
    exact Nat.le_add_right _ _
  have hsame : (d :: s ++ t).takeWhile (admits · re) = (d :: s).takeWhile (admits · re) := by
    rw [List.takeWhile_append, if_neg (Nat.ne_of_lt hstop)]
  rw [hsame] at hrun
  have hleast := least_le hlang
  omega

/-- A word that runs from outside into a replacement ends in what the replaced text has in common
with it. -/
def enclosed (r : Rule) (rep common : List Char) : Bool :=
  rep.any (fun c => !admits c r.body) &&
    rep.inits.all fun z =>
      z.isEmpty || z.any (fun c => !admits c r.body) || !z.getLast?.any (ends · r.body) ||
        (r.edges && !boundary z.getLast? (rep.drop z.length).head?) || z.isPrefixOf common

theorem enclosed_spec {rep common x z v t : List Char} (h : enclosed r rep common = true)
    (hz : z ≠ []) (hv : z ++ v = rep ++ t) (hw : Stands r prev (x ++ z) v) :
    z <+: common ∧ z <+: rep := by
  rw [enclosed, Bool.and_eq_true] at h
  obtain ⟨hstop, hall⟩ := h
  have hadmits : ∀ c ∈ z, admits c r.body = true := fun c hc =>
    admits_of_mem hw.1 (List.mem_append_right x hc)
  have hinside : z <+: rep := by
    refine List.prefix_of_prefix_length_le (hv ▸ List.prefix_append z v) (List.prefix_append rep t) ?_
    by_contra hlong
    obtain ⟨c, hc, hno⟩ := List.any_eq_true.mp hstop
    have hrep : rep <+: z :=
      List.prefix_of_prefix_length_le (List.prefix_append rep t) (hv ▸ List.prefix_append z v) (by omega)
    rw [hadmits c (hrep.subset hc)] at hno
    cases hno
  obtain ⟨u, rfl⟩ := hinside
  obtain rfl : v = u ++ t := by simpa using hv
  have hu : u ≠ [] := by
    rintro rfl
    obtain ⟨c, hc, hno⟩ := List.any_eq_true.mp hstop
    rw [hadmits c (by simpa using hc)] at hno
    cases hno
  have hany : z.any (fun c => !admits c r.body) = false :=
    List.any_eq_false.mpr fun c hc => by simp [hadmits c hc]
  have hends : z.getLast?.any (ends · r.body) = true := by
    obtain ⟨z, c, rfl⟩ := (List.eq_nil_or_concat' z).resolve_left hz
    rw [List.getLast?_concat, Option.any_some]
    exact ends_of_last (List.append_assoc x z [c] ▸ hw.1)
  have hedge : (r.edges && !boundary z.getLast? (((z ++ u).drop z.length).head?)) = false := by
    rw [List.drop_left]
    cases hr : r.edges with
    | false => rfl
    | true =>
      have hb := (hw.2 hr).2
      rw [List.getLast?_append_of_ne_nil x hz, List.head?_append_of_ne_nil u hu] at hb
      rw [hb]
      rfl
  have hcheck := List.all_eq_true.mp hall z ((List.mem_inits _ _).mpr (List.prefix_append z u))
  rw [List.isEmpty_eq_false_iff.mpr hz, hany, hends, hedge] at hcheck
  exact ⟨List.isPrefixOf_iff_prefix.mp hcheck, List.prefix_append z u⟩

/-- A word of the new text is kept as a whole, or runs from kept characters into what a replacement
has in common with the stretch it replaces. -/
theorem kept_run {common : List Char} {rep x w v : List α} {ps : List (Piece α)}
    (hquiet : quiet r.body (rep.map char) = true) (henc : enclosed r (rep.map char) common = true)
    (h : x ++ (w ++ v) = target rep ps) (hw : Stands r prev (w.map char) (v.map char)) :
    (∃ ps₁ qs, ps = ps₁ ++ (w.map .kept ++ qs) ∧ x = target rep ps₁ ∧ v = target rep qs) ∨
      ∃ ps₁ y z old qs, ps = ps₁ ++ (y.map .kept ++ .hit old :: qs) ∧ y ≠ [] ∧ w = y ++ z ∧
        z ≠ [] ∧ z.map char <+: common := by
  have hne : w ≠ [] := fun hnil => hw.ne_nil (by rw [hnil, List.map_nil])
  obtain ⟨ps₁, a, ps₂, rfl, rfl, hy⟩ | ⟨s, t, hs, hrep, hy⟩ :=
    cut_target h (List.append_ne_nil_of_left_ne_nil hne v)
  · have hkept : w ++ v = target rep (.kept a :: ps₂) := hy
    obtain ⟨qs, hqs, hv⟩ | ⟨y, z, old, qs, rfl, hz, hps, hv⟩ := prefix_target hkept
    · exact .inl ⟨ps₁, qs, by rw [hqs], rfl, hv⟩
    · have hstart : y ≠ [] := by
        rintro rfl
        cases hps
      have hmap : z.map char ++ v.map char = rep.map char ++ (target rep qs).map char := by
        rw [← List.map_append, hv, List.map_append]
      rw [List.map_append] at hw
      have hcommon := (enclosed_spec henc (by simpa using hz) hmap hw).1
      exact .inr ⟨ps₁, y, z, old, qs, by rw [hps], hstart, rfl, hz, hcommon⟩
  · have hmap : w.map char ++ v.map char = s.map char ++ t.map char := by
      rw [← List.map_append, hy, List.map_append]
    exact absurd hw.1 (quiet_spec hquiet (by simpa using hs) (hrep.map char) hw.ne_nil hmap)

theorem Stands.of_plain {p : Option Char} {w v u : List Char} (hr : r.edges = false)
    (h : Stands r prev w v) : Stands r p w u :=
  ⟨h.1, fun hedges => absurd hedges (by rw [hr]; exact Bool.false_ne_true)⟩

/-- Without edges a turn that begins no word makes none. -/
theorem free_target_of_plain {common : List Char} {rep : List α} {ps : List (Piece α)}
    (hr : r.edges = false) (hquiet : quiet r.body (rep.map char) = true)
    (henc : enclosed r (rep.map char) common = true)
    (hcommon : ∀ old, .hit old ∈ ps → common <+: old.map char) (h : Spared char r ps) :
    Free char r (target rep ps) := by
  intro x w v heq hw
  obtain ⟨ps₁, qs, rfl, rfl, rfl⟩ | ⟨ps₁, y, z, old, qs, rfl, hy, rfl, hz, hzc⟩ :=
    kept_run hquiet henc heq hw
  · have hne : w ≠ [] := fun hnil => hw.ne_nil (by rw [hnil, List.map_nil])
    obtain ⟨a, w, rfl⟩ := List.exists_cons_of_ne_nil hne
    exact h ps₁ a _ (a :: w) (source qs) rfl (by simp) (hw.of_plain hr)
  · -- the same word stands in the old text, with its end in the stretch that is replaced
    obtain ⟨a, y, rfl⟩ := List.exists_cons_of_ne_nil hy
    obtain ⟨u, hu⟩ := hzc.trans (hcommon old (by simp))
    obtain ⟨z', u', rfl, hz', -⟩ := List.map_eq_append_iff.mp hu.symm
    refine h ps₁ a _ (a :: y ++ z') (u' ++ source qs) rfl (by simp) ?_
    rw [List.map_append, hz', ← List.map_append]
    exact hw.of_plain hr

/-! ## The edges of words beside a replacement -/

/-- Whether the neighbour on this side is a word character. -/
def wordy (c : Option Char) : Bool := c.any wordChar

variable (char) in
/-- In front of a replaced stretch the replacement looks like it, or ends no word. -/
def Leads (rep : List α) (ps : List (Piece α)) : Prop :=
  ∀ ps₁ old ps₂, ps = ps₁ ++ .hit old :: ps₂ →
    wordy (old.map char).head? = wordy (rep.map char).head? ∨
      wordy (rep.map char).head? = false ∧ wordy ((source ps₁).map char).getLast? = false

variable (char) in
/-- A replaced stretch that ends in a word character is followed by no letter or digit. -/
def Trails (ps : List (Piece α)) : Prop :=
  ∀ ps₁ old ps₂, ps = ps₁ ++ .hit old :: ps₂ → old ≠ [] ∧
    (wordy (old.map char).getLast? = true →
      ∀ c ∈ ((source ps₂).map char).head?, c.isAlphanum = false)

theorem boundary_eq {a b : Option Char} : boundary a b = (wordy a != wordy b) := rfl

theorem wordy_of_alphanum {c : Char} (h : c.isAlphanum = true) : wordy (some c) = true := by
  rw [wordy, Option.any_some, wordChar, h, Bool.true_or]

theorem Trails.last_eq {rep : List α} {ps₁ ps₂ : List (Piece α)} {c : Char}
    (h : Trails char (ps₁ ++ ps₂)) (hne : rep ≠ []) (hrep : wordy (rep.map char).getLast? = false)
    (hc : ((source ps₂).map char).head? = some c) (halnum : c.isAlphanum = true) :
    wordy ((target rep ps₁).map char).getLast? = wordy ((source ps₁).map char).getLast? := by
  rcases List.eq_nil_or_concat' ps₁ with rfl | ⟨ps₀, p, rfl⟩
  · rfl
  · cases p with
    | kept a => simp
    | hit old =>
      obtain ⟨hold, htrail⟩ := h ps₀ old ps₂ (by simp)
      have hsource : wordy (old.map char).getLast? = false := by
        by_contra hword
        have := htrail (Bool.not_eq_false _ ▸ hword) c hc
        rw [halnum] at this
        cases this
      have hlast : ∀ {u w : List α}, w ≠ [] → ((u ++ w).map char).getLast? = (w.map char).getLast? := by
        intro u w hw
        rw [List.map_append, List.getLast?_append_of_ne_nil _ (by simpa using hw)]
      have htarget : target rep [.hit old] = rep := List.append_nil rep
      have hsingle : source [.hit old] = old := List.append_nil old
      rw [target_append, source_append, htarget, hsingle, hlast hne, hlast hold, hrep, hsource]

theorem Leads.head_eq {rep : List α} {ps₁ ps₂ : List (Piece α)} (h : Leads char rep (ps₁ ++ ps₂))
    (htrails : Trails char (ps₁ ++ ps₂)) (hne : rep ≠ []) :
    wordy ((target rep ps₂).map char).head? = wordy ((source ps₂).map char).head? ∨
      wordy ((target rep ps₂).map char).head? = false ∧
        wordy ((source ps₁).map char).getLast? = false := by
  cases ps₂ with
  | nil => exact .inl rfl
  | cons p ps₂ =>
    cases p with
    | kept a => exact .inl rfl
    | hit old =>
      have hhead : ∀ {u w : List α}, w ≠ [] → ((w ++ u).map char).head? = (w.map char).head? := by
        intro u w hw
        rw [List.map_append, List.head?_append_of_ne_nil _ (by simpa using hw)]
      rw [target_hit, source_hit, hhead hne, hhead (htrails ps₁ old ps₂ rfl).1]
      exact (h ps₁ old ps₂ rfl).imp Eq.symm id

theorem trails_of_edges (hr : r.edges = true) (ys : List α) : Trails char (pieces char r ys) := by
  intro ps₁ old ps₂ hps
  have hold := stands_at_hit hps
  refine ⟨fun hnil => hold.ne_nil (by rw [hnil, List.map_nil]), fun hword c hc => ?_⟩
  have hafter := (hold.2 hr).2
  rw [boundary_eq, hword, Option.mem_def.mp hc] at hafter
  by_contra halnum
  rw [wordy_of_alphanum (Bool.not_eq_false _ ▸ halnum)] at hafter
  cases hafter

theorem trails_of_trailing {p : Char → Bool} (hr : r.edges = false)
    (htrail : trailing r.body = some p) (hp : ∀ c, c.isAlphanum = true → p c = true) (ys : List α) :
    Trails char (pieces char r ys) := by
  intro ps₁ old ps₂ hps
  have hold := stands_at_hit hps
  refine ⟨fun hnil => hold.ne_nil (by rw [hnil, List.map_nil]), fun _ c hc => ?_⟩
  have hfind := find_at_hit hps
  have hfirst : ∀ (l : List ℕ) (q : ℕ → Bool), (∀ n, q n = true) → l.find? q = l.head? := by
    intro l q hq
    cases l with
    | nil => rfl
    | cons n l => rw [List.find?_cons_of_pos (hq n), List.head?_cons]
  rw [find, hfirst _ _ fun n => by rw [edgesOk, hr, Bool.not_false, Bool.true_or]] at hfind
  have hrest := not_trailing_after htrail hfind c
  rw [← List.length_map (f := char), List.drop_left] at hrest
  by_contra halnum
  have hpc := hp c (Bool.not_eq_false _ ▸ halnum)
  rw [hrest hc] at hpc
  cases hpc

theorem trails_of_ends (h : ∀ c, ends c r.body = true → wordChar c = false) (ys : List α) :
    Trails char (pieces char r ys) := by
  intro ps₁ old ps₂ hps
  have hold := stands_at_hit hps
  refine ⟨fun hnil => hold.ne_nil (by rw [hnil, List.map_nil]), fun hword => ?_⟩
  obtain ⟨w, c, hw⟩ := (List.eq_nil_or_concat' (old.map char)).resolve_left hold.ne_nil
  rw [hw, List.getLast?_concat, wordy, Option.any_some, h c (ends_of_last (hw ▸ hold.1))] at hword
  cases hword

theorem leads_of_edges {rep : List α} (hr : r.edges = true)
    (halnum : ∀ c, begins c r.body = true → c.isAlphanum = true)
    (hrep : wordy (rep.map char).head? = false) (ys : List α) :
    Leads char rep (pieces char r ys) := by
  intro ps₁ old ps₂ hps
  have hold := stands_at_hit hps
  obtain ⟨c, w, hw⟩ := List.exists_cons_of_ne_nil hold.ne_nil
  have hbefore := (hold.2 hr).1
  rw [hw, List.head?_cons, boundary_eq,
    wordy_of_alphanum (halnum c (begins_of_head (hw ▸ hold.1)))] at hbefore
  exact .inr ⟨hrep, by simpa using hbefore⟩

theorem leads_of_begins {rep : List α}
    (h : ∀ c, begins c r.body = true → wordy (some c) = wordy (rep.map char).head?) (ys : List α) :
    Leads char rep (pieces char r ys) := by
  intro ps₁ old ps₂ hps
  have hold := stands_at_hit hps
  obtain ⟨c, w, hw⟩ := List.exists_cons_of_ne_nil hold.ne_nil
  left
  rw [hw, List.head?_cons]
  exact h c (begins_of_head (hw ▸ hold.1))

theorem head?_alphanum {w : List Char} (halnum : ∀ c, begins c r.body = true → c.isAlphanum = true)
    (h : Lang r.body w) (hne : w ≠ []) : ∃ c, w.head? = some c ∧ c.isAlphanum = true := by
  obtain ⟨c, w, rfl⟩ := List.exists_cons_of_ne_nil hne
  exact ⟨c, rfl, halnum c (begins_of_head h)⟩

/-- A word whose first character is a letter or digit has behind a replacement the edge it had. -/
theorem before_eq {rep w v : List α} {ps₁ ps₂ : List (Piece α)} {u : Option Char}
    (halnum : ∀ c, begins c r.body = true → c.isAlphanum = true) (h : Trails char (ps₁ ++ ps₂))
    (hne : rep ≠ []) (hrep : wordy (rep.map char).getLast? = false) (hps₂ : source ps₂ = w ++ v)
    (hw : Lang r.body (w.map char)) (hwne : w.map char ≠ []) :
    boundary ((target rep ps₁).map char).getLast? u = boundary ((source ps₁).map char).getLast? u := by
  obtain ⟨c, hc, hcnum⟩ := head?_alphanum halnum hw hwne
  have hhead : ((source ps₂).map char).head? = some c := by
    rw [hps₂, List.map_append, List.head?_append_of_ne_nil _ hwne, hc]
  rw [boundary_eq, boundary_eq, h.last_eq hne hrep hhead hcnum]

/-- What stands in the new text as a kept stretch stood in the old one. -/
theorem stands_source {rep w : List α} {ps₁ qs : List (Piece α)}
    (halnum : ∀ c, begins c r.body = true → c.isAlphanum = true)
    (hleads : Leads char rep (ps₁ ++ (w.map .kept ++ qs)))
    (htrails : Trails char (ps₁ ++ (w.map .kept ++ qs))) (hne : rep ≠ [])
    (hrep : wordy (rep.map char).getLast? = false)
    (hw : Stands r ((target rep ps₁).map char).getLast? (w.map char) ((target rep qs).map char)) :
    Stands r ((source ps₁).map char).getLast? (w.map char) ((source qs).map char) := by
  refine ⟨hw.1, fun hedges => ?_⟩
  obtain ⟨hbefore, hafter⟩ := hw.2 hedges
  rw [before_eq (v := source qs) halnum htrails hne hrep (by simp) hw.1 hw.ne_nil] at hbefore
  refine ⟨hbefore, ?_⟩
  rw [← List.append_assoc] at hleads htrails
  rw [boundary_eq] at hafter ⊢
  obtain heq | ⟨htarget, hlast⟩ := hleads.head_eq htrails hne
  · rwa [← heq]
  · -- then the word ends no word, and the replacement that follows it begins none
    rw [source_append, source_map_kept, List.map_append,
      List.getLast?_append_of_ne_nil _ hw.ne_nil] at hlast
    rw [htarget, hlast] at hafter
    cases hafter

/-- What stands in the old text as a kept stretch that ends in a word character stands in the new
one. -/
theorem stands_target {rep w : List α} {ps₁ qs : List (Piece α)}
    (halnum : ∀ c, begins c r.body = true → c.isAlphanum = true)
    (hleads : Leads char rep (ps₁ ++ (w.map .kept ++ qs)))
    (htrails : Trails char (ps₁ ++ (w.map .kept ++ qs))) (hne : rep ≠ [])
    (hrep : wordy (rep.map char).getLast? = false) (hword : wordy (w.map char).getLast? = true)
    (hw : Stands r ((source ps₁).map char).getLast? (w.map char) ((source qs).map char)) :
    Stands r ((target rep ps₁).map char).getLast? (w.map char) ((target rep qs).map char) := by
  refine ⟨hw.1, fun hedges => ?_⟩
  obtain ⟨hbefore, hafter⟩ := hw.2 hedges
  rw [before_eq (v := source qs) halnum htrails hne hrep (by simp) hw.1 hw.ne_nil]
  refine ⟨hbefore, ?_⟩
  rw [← List.append_assoc] at hleads htrails
  obtain heq | ⟨-, hlast⟩ := hleads.head_eq htrails hne
  · rwa [boundary_eq, heq]
  · rw [source_append, source_map_kept, List.map_append,
      List.getLast?_append_of_ne_nil _ hw.ne_nil, hword] at hlast
    cases hlast

theorem not_prefix_nil {z : List α} (hz : z ≠ []) : ¬ z.map char <+: [] := by
  rw [List.prefix_nil, List.map_eq_nil_iff]
  exact hz

/-- With edges a turn that begins no word makes none where its replacements keep the edges. -/
theorem free_target_of_edges {rep : List α} {ps : List (Piece α)}
    (halnum : ∀ c, begins c r.body = true → c.isAlphanum = true)
    (hquiet : quiet r.body (rep.map char) = true) (henc : enclosed r (rep.map char) [] = true)
    (hleads : Leads char rep ps) (htrails : Trails char ps) (hne : rep ≠ [])
    (hrep : wordy (rep.map char).getLast? = false) (h : Spared char r ps) :
    Free char r (target rep ps) := by
  intro x w v heq hw
  obtain ⟨ps₁, qs, rfl, rfl, rfl⟩ | ⟨_, _, _, _, _, _, _, _, hz, hnil⟩ := kept_run hquiet henc heq hw
  · have hsource := stands_source halnum hleads htrails hne hrep hw
    have hwne : w ≠ [] := fun hnil => hw.ne_nil (by rw [hnil, List.map_nil])
    obtain ⟨a, w, rfl⟩ := List.exists_cons_of_ne_nil hwne
    exact h ps₁ a _ (a :: w) (source qs) rfl (by simp) hsource
  · exact not_prefix_nil hz hnil

end GlobalReplace
end Batiste
