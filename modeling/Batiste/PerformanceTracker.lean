import Batiste.Interpolation
import Batiste.JsNumber
import Mathlib.Data.List.DropRight

/-! `performance-tracker.ts`: the latencies of the requests of a rolling window.  Times and
durations are rational, and every method reads the clock anew. -/
namespace Batiste

structure LatencySample where
  ts : ℚ
  latencyMs : ℚ
  success : Bool
  deriving DecidableEq, Repr

structure PerformanceTracker where
  windowMs : ℚ
  samples : List LatencySample
  deriving DecidableEq, Repr

/-- What `summary` returns; `none` stands for `null`. -/
structure PerformanceMetrics where
  p50 : Option JsNumber
  p95 : Option JsNumber
  p99 : Option JsNumber
  mean : Option ℚ
  min : Option ℚ
  max : Option ℚ
  reliability : ℚ
  sampleCount : ℕ
  windowMs : ℚ
  capturedAt : ℚ
  deriving DecidableEq, Repr

namespace PerformanceTracker

def new (windowMs : ℚ) : PerformanceTracker := ⟨windowMs, []⟩

/-- Samples go from the front, the oldest first, up to the first one inside the window. -/
def prune (t : PerformanceTracker) (now : ℚ) : PerformanceTracker :=
  { t with samples := t.samples.dropWhile fun s => decide (s.ts < now - t.windowMs) }

/-- The first reading of the clock stamps the sample, the second one prunes. -/
def record (t : PerformanceTracker) (ts now latencyMs : ℚ) (success : Bool) : PerformanceTracker :=
  prune { t with samples := t.samples ++ [⟨ts, latencyMs, success⟩] } now

def reset (t : PerformanceTracker) : PerformanceTracker := { t with samples := [] }

/-- `this.snapshot()`: what is left after pruning. -/
def snapshot (t : PerformanceTracker) (now : ℚ) : List LatencySample := (t.prune now).samples

/-- The latencies in ascending order. -/
def ascending (samples : List LatencySample) : List ℚ :=
  (samples.map LatencySample.latencyMs).insertionSort (· ≤ ·)

/-- `data[index]`, undefined outside the array. -/
def at? (data : List ℚ) (index : ℤ) : Option ℚ := if 0 ≤ index then data[index.toNat]? else none

def rank (p : ℚ) (length : ℕ) : ℚ := p / 100 * ((length : ℚ) - 1)

/-- `data[lower] * (1 - weight) + data[upper] * weight`, not a number from an undefined operand. -/
def weighed (data : List ℚ) (r : ℚ) : JsNumber :=
  match at? data ⌊r⌋, at? data ⌈r⌉ with
  | some lower, some upper => .finite (lower * (1 - (r - ⌊r⌋)) + upper * (r - ⌊r⌋))
  | _, _ => .nan

def percentile (t : PerformanceTracker) (now p : ℚ) : Option JsNumber :=
  match ascending (t.snapshot now) with
  | [] => none
  | [x] => some (.finite x)
  | data => some (weighed data (rank p data.length))

def p50 (t : PerformanceTracker) (now : ℚ) : Option JsNumber := t.percentile now 50
def p95 (t : PerformanceTracker) (now : ℚ) : Option JsNumber := t.percentile now 95
def p99 (t : PerformanceTracker) (now : ℚ) : Option JsNumber := t.percentile now 99

def reliability (t : PerformanceTracker) (now : ℚ) : ℚ :=
  let data := t.snapshot now
  if data.length = 0 then 1
  else ((data.filter LatencySample.success).length : ℚ) / data.length

def sampleCount (t : PerformanceTracker) (now : ℚ) : ℕ := (t.snapshot now).length

def mean (t : PerformanceTracker) (now : ℚ) : Option ℚ :=
  let data := t.snapshot now
  if data.length = 0 then none
  else some (data.foldl (fun s x => s + x.latencyMs) 0 / data.length)

def min (t : PerformanceTracker) (now : ℚ) : Option ℚ :=
  ((t.snapshot now).map LatencySample.latencyMs).min?

def max (t : PerformanceTracker) (now : ℚ) : Option ℚ :=
  ((t.snapshot now).map LatencySample.latencyMs).max?

/-- The tracker after the first `k` readings of the clock. -/
def pruned (t : PerformanceTracker) (clock : ℕ → ℚ) : ℕ → PerformanceTracker
  | 0 => t
  | k + 1 => (t.pruned clock k).prune (clock k)

/-- Every getter reads the clock and prunes what the getters before it left. -/
def summary (t : PerformanceTracker) (clock : ℕ → ℚ) : PerformanceMetrics × PerformanceTracker :=
  ({ p50 := (t.pruned clock 0).p50 (clock 0)
     p95 := (t.pruned clock 1).p95 (clock 1)
     p99 := (t.pruned clock 2).p99 (clock 2)
     mean := (t.pruned clock 3).mean (clock 3)
     min := (t.pruned clock 4).min (clock 4)
     max := (t.pruned clock 5).max (clock 5)
     reliability := (t.pruned clock 6).reliability (clock 6)
     sampleCount := (t.pruned clock 7).sampleCount (clock 7)
     windowMs := t.windowMs
     capturedAt := clock 8 }, t.pruned clock 8)

/-! ## Runs -/

/-- What happens to a tracker; a getter prunes it. -/
inductive Event
  | record (ts now latencyMs : ℚ) (success : Bool)
  | read (now : ℚ)
  | reset
  deriving DecidableEq, Repr

def step (t : PerformanceTracker) : Event → PerformanceTracker
  | .record ts now latencyMs success => t.record ts now latencyMs success
  | .read now => t.prune now
  | .reset => t.reset

def run (windowMs : ℚ) (events : List Event) : PerformanceTracker := events.foldl step (new windowMs)

def Event.recorded? : Event → Option ℚ
  | .record ts _ _ _ => some ts
  | _ => none

/-- The times at which the samples were recorded. -/
def recordedAt (events : List Event) : List ℚ := events.filterMap Event.recorded?

/-- The samples inside the window at a time. -/
def inside (t : PerformanceTracker) (now : ℚ) : List LatencySample :=
  t.samples.filter fun s => decide (now - t.windowMs ≤ s.ts)

/-- The event without the sample that it records, where that one is older than the cutoff. -/
def Event.without (cutoff : ℚ) : Event → Event
  | .record ts now latencyMs success =>
    if ts < cutoff then .read now else .record ts now latencyMs success
  | e => e

/-- Pruning a list in the order of time leaves what is inside the window. -/
theorem dropWhile_old {samples : List LatencySample} (h : (samples.map LatencySample.ts).SortedLE)
    (cutoff : ℚ) : (samples.dropWhile fun s => decide (s.ts < cutoff)) =
      samples.filter fun s => decide (cutoff ≤ s.ts) := by
  induction samples with
  | nil => rfl
  | cons s samples ih =>
    have hsorted := List.pairwise_cons.mp h.pairwise
    by_cases hs : s.ts < cutoff
    · rw [List.dropWhile_cons_of_pos (by simpa using hs), ih hsorted.2.sortedLE,
        List.filter_cons_of_neg (by simpa using hs)]
    · rw [List.dropWhile_cons_of_neg (by simpa using hs), eq_comm, List.filter_eq_self]
      intro x hx
      rw [decide_eq_true_eq]
      rcases List.mem_cons.mp hx with rfl | hx
      · exact not_lt.mp hs
      · exact (not_lt.mp hs).trans (hsorted.1 x.ts (List.mem_map_of_mem hx))

theorem run_snoc (windowMs : ℚ) (events : List Event) (e : Event) :
    run windowMs (events ++ [e]) = step (run windowMs events) e := by
  rw [run, List.foldl_append]
  rfl

theorem recordedAt_append (events more : List Event) :
    recordedAt (events ++ more) = recordedAt events ++ recordedAt more :=
  List.filterMap_append

@[simp] theorem prune_windowMs (t : PerformanceTracker) (now : ℚ) :
    (t.prune now).windowMs = t.windowMs := rfl

theorem prune_sublist (t : PerformanceTracker) (now : ℚ) : (t.prune now).samples.Sublist t.samples :=
  List.dropWhile_sublist _

@[simp] theorem run_windowMs (windowMs : ℚ) (events : List Event) :
    (run windowMs events).windowMs = windowMs := by
  induction events using List.reverseRecOn with
  | nil => rfl
  | append_singleton events e ih =>
    rw [run_snoc]
    cases e with
    | record ts now latencyMs success => exact ih
    | read now => exact ih
    | reset => exact ih

/-- The samples held are some of the recorded ones, in their order. -/
theorem run_sublist (windowMs : ℚ) (events : List Event) :
    ((run windowMs events).samples.map LatencySample.ts).Sublist (recordedAt events) := by
  induction events using List.reverseRecOn with
  | nil => exact List.nil_sublist _
  | append_singleton events e ih =>
    rw [run_snoc, recordedAt_append]
    cases e with
    | record ts now latencyMs success =>
      refine ((prune_sublist _ now).map _).trans ?_
      rw [List.map_append]
      exact ih.append (List.Sublist.refl _)
    | read now => exact ((prune_sublist _ now).map _).trans (ih.trans (List.sublist_append_left _ _))
    | reset => exact List.nil_sublist _

theorem run_sorted {windowMs : ℚ} {events : List Event} (h : (recordedAt events).SortedLE) :
    ((run windowMs events).samples.map LatencySample.ts).SortedLE :=
  (h.pairwise.sublist (run_sublist windowMs events)).sortedLE

theorem snapshot_eq_inside {t : PerformanceTracker}
    (h : (t.samples.map LatencySample.ts).SortedLE) (now : ℚ) : t.snapshot now = t.inside now :=
  dropWhile_old h _

theorem recordedAt_without (cutoff : ℚ) (events : List Event) :
    (recordedAt (events.map (Event.without cutoff))).Sublist (recordedAt events) := by
  induction events with
  | nil => exact List.Sublist.refl _
  | cons e events ih =>
    cases e with
    | record ts now latencyMs success =>
      by_cases hts : ts < cutoff
      · simp only [List.map_cons, Event.without, if_pos hts]
        exact ih.cons ts
      · simp only [List.map_cons, Event.without, if_neg hts]
        exact ih.cons_cons ts
    | read now => exact ih
    | reset => exact ih

/-- What is left of the samples that are not older than a cutoff. -/
theorem filter_prune {t : PerformanceTracker} (h : (t.samples.map LatencySample.ts).SortedLE)
    (now cutoff : ℚ) : ((t.prune now).samples.filter fun s => decide (cutoff ≤ s.ts)) =
      (t.samples.filter fun s => decide (cutoff ≤ s.ts)).filter
        fun s => decide (now - t.windowMs ≤ s.ts) := by
  rw [List.filter_comm]
  exact congrArg (List.filter _) (dropWhile_old h _)

theorem filter_record {t : PerformanceTracker} {ts latencyMs : ℚ} {success : Bool}
    (h : ((t.samples ++ [LatencySample.mk ts latencyMs success]).map LatencySample.ts).SortedLE)
    (now cutoff : ℚ) :
    ((t.record ts now latencyMs success).samples.filter fun s => decide (cutoff ≤ s.ts)) =
      ((t.samples.filter fun s => decide (cutoff ≤ s.ts)) ++
        if cutoff ≤ ts then [LatencySample.mk ts latencyMs success] else []).filter
          fun s => decide (now - t.windowMs ≤ s.ts) := by
  rw [record, filter_prune h, List.filter_append]
  by_cases hts : cutoff ≤ ts
  · rw [if_pos hts, List.filter_cons_of_pos (by simpa using hts), List.filter_nil]
  · rw [if_neg hts, List.filter_cons_of_neg (by simpa using hts), List.filter_nil]

theorem sorted_snoc {windowMs : ℚ} {events : List Event} {ts now latencyMs : ℚ} {success : Bool}
    (h : (recordedAt (events ++ [.record ts now latencyMs success])).SortedLE) :
    (((run windowMs events).samples ++ [LatencySample.mk ts latencyMs success]).map
      LatencySample.ts).SortedLE := by
  rw [recordedAt_append] at h
  rw [List.map_append]
  exact (h.pairwise.sublist ((run_sublist windowMs events).append (List.Sublist.refl _))).sortedLE

/-- What is not older than the cutoff does not depend on what is. -/
theorem run_without {windowMs : ℚ} {events : List Event} (h : (recordedAt events).SortedLE)
    (cutoff : ℚ) :
    ((run windowMs (events.map (Event.without cutoff))).samples.filter
      fun s => decide (cutoff ≤ s.ts)) =
      (run windowMs events).samples.filter fun s => decide (cutoff ≤ s.ts) := by
  induction events using List.reverseRecOn with
  | nil => rfl
  | append_singleton events e ih =>
    have hwithout := (h.pairwise.sublist (recordedAt_without cutoff (events ++ [e]))).sortedLE
    have hinit : (recordedAt events).SortedLE := by
      rw [recordedAt_append] at h
      exact (h.pairwise.sublist (List.sublist_append_left _ _)).sortedLE
    have hinit' := (hinit.pairwise.sublist (recordedAt_without cutoff events)).sortedLE
    have hread : ∀ now, ((run windowMs (events.map (Event.without cutoff))).prune now).samples.filter
        (fun s => decide (cutoff ≤ s.ts)) =
          ((run windowMs events).prune now).samples.filter fun s => decide (cutoff ≤ s.ts) := by
      intro now
      rw [filter_prune (run_sorted hinit'), filter_prune (run_sorted hinit), ih hinit, run_windowMs,
        run_windowMs]
    rw [List.map_append, List.map_singleton] at hwithout ⊢
    rw [run_snoc, run_snoc]
    cases e with
    | read now => exact hread now
    | reset => rfl
    | record ts now latencyMs success =>
      rw [step, filter_record (sorted_snoc h)]
      by_cases hts : ts < cutoff
      · rw [if_neg (not_le.mpr hts), List.append_nil, run_windowMs, Event.without, if_pos hts]
        exact (filter_prune (run_sorted hinit') now cutoff).trans
          (by rw [run_windowMs, ih hinit])
      · rw [Event.without, if_neg hts] at hwithout ⊢
        rw [step, filter_record (sorted_snoc hwithout), ih hinit, run_windowMs, run_windowMs]

theorem snapshot_without {windowMs : ℚ} {events : List Event} (h : (recordedAt events).SortedLE)
    (now : ℚ) : (run windowMs (events.map (Event.without (now - windowMs)))).snapshot now =
      (run windowMs events).snapshot now := by
  have hwithout := (h.pairwise.sublist (recordedAt_without (now - windowMs) events)).sortedLE
  rw [snapshot_eq_inside (run_sorted h), snapshot_eq_inside (run_sorted hwithout), inside, inside,
    run_windowMs, run_windowMs, run_without h]

/-! ## The getters of one reading -/

/-- A value the given part of the way from one sample to the next one, in ascending order. -/
def Interpolated (data : List ℚ) (r v : ℚ) : Prop :=
  ∃ lower ∈ data, ∃ upper ∈ data, lower ≤ upper ∧ (∀ x ∈ data, x ≤ lower ∨ upper ≤ x) ∧
    v = lower * (1 - Int.fract r) + upper * Int.fract r

theorem ascending_sorted (samples : List LatencySample) : (ascending samples).SortedLE :=
  (List.pairwise_insertionSort _ _).sortedLE

theorem ascending_perm (samples : List LatencySample) :
    (ascending samples).Perm (samples.map LatencySample.latencyMs) :=
  List.perm_insertionSort _ _

theorem ascending_ne_nil {samples : List LatencySample} (h : samples ≠ []) :
    ascending samples ≠ [] := by
  intro hnil
  have hlen := (ascending_perm samples).length_eq
  rw [hnil, List.length_map] at hlen
  exact h (List.length_eq_zero_iff.mp hlen.symm)

theorem rank_nonneg {p : ℚ} {n : ℕ} (hp : 0 ≤ p) (hn : 0 < n) : 0 ≤ rank p n := by
  have hone : (1 : ℚ) ≤ n := by exact_mod_cast hn
  exact mul_nonneg (div_nonneg hp (by norm_num)) (sub_nonneg.mpr hone)

theorem rank_mono {p q : ℚ} {n : ℕ} (hpq : p ≤ q) (hn : 0 < n) : rank p n ≤ rank q n := by
  have hone : (1 : ℚ) ≤ n := by exact_mod_cast hn
  exact mul_le_mul_of_nonneg_right (div_le_div_of_nonneg_right hpq (by norm_num))
    (sub_nonneg.mpr hone)

theorem rank_le {p : ℚ} {n : ℕ} (hp : p ≤ 100) (hn : 0 < n) : rank p n ≤ (n : ℚ) - 1 := by
  have hlast := rank_mono hp hn
  rwa [rank, rank, div_self (by norm_num), one_mul] at hlast

/-- The value of a percentile, in a list that is not empty. -/
def value (data : List ℚ) (h : data ≠ []) (p : ℚ) : ℚ :=
  Interpolation.between (Interpolation.clamped data h) (rank p data.length)

theorem at?_eq_clamped {data : List ℚ} (h : data ≠ []) {k : ℤ} (hk : 0 ≤ k)
    (hlen : k < data.length) : at? data k = some (Interpolation.clamped data h k) := by
  rw [at?, if_pos hk, Interpolation.getElem?_eq_clamped h hlen]

theorem weighed_eq {data : List ℚ} (h : data ≠ []) {r : ℚ} (hr : 0 ≤ r)
    (hlast : r ≤ (data.length : ℚ) - 1) :
    weighed data r = .finite (Interpolation.between (Interpolation.clamped data h) r) := by
  have hceil : ⌈r⌉ ≤ (data.length : ℤ) - 1 := by
    rw [Int.ceil_le]
    push_cast
    exact hlast
  have hfloor : ⌊r⌋ ≤ ⌈r⌉ := Int.floor_le_ceil r
  rw [weighed, at?_eq_clamped h (Int.floor_nonneg.mpr hr) (by omega),
    at?_eq_clamped h (Int.ceil_nonneg hr) (by omega)]
  rfl

theorem percentile_eq {t : PerformanceTracker} {now p : ℚ} (h : ascending (t.snapshot now) ≠ [])
    (hp : 0 ≤ p) (hlast : p ≤ 100) :
    t.percentile now p = some (.finite (value (ascending (t.snapshot now)) h p)) := by
  have hpos := List.length_pos_of_ne_nil h
  have hweighed := weighed_eq h (rank_nonneg hp hpos) (rank_le hlast hpos)
  rw [percentile]
  generalize ascending (t.snapshot now) = data at *
  cases data with
  | nil => exact absurd rfl h
  | cons x rest =>
    cases rest with
    | nil =>
      have hrank : rank p [x].length = ((0 : ℤ) : ℚ) := by simp [rank]
      rw [value, hrank, Interpolation.between_intCast]
      rfl
    | cons y rest => exact congrArg some hweighed

theorem value_mono {data : List ℚ} (hdata : data.SortedLE) (h : data ≠ []) :
    Monotone (value data h) := fun _ _ hpq =>
  Interpolation.between_mono (Interpolation.clamped_mono hdata h)
    (rank_mono hpq (List.length_pos_of_ne_nil h))

theorem value_interpolated {data : List ℚ} (hdata : data.SortedLE) (h : data ≠ []) (p : ℚ) :
    Interpolated data (rank p data.length) (value data h p) :=
  ⟨_, Interpolation.clamped_mem data h _, _, Interpolation.clamped_mem data h _,
    Interpolation.clamped_mono hdata h (Int.floor_le_ceil _),
    fun _ hx => Interpolation.clamped_split hdata h _ hx, rfl⟩

theorem value_zero {data : List ℚ} (h : data ≠ []) :
    value data h 0 = Interpolation.clamped data h 0 := by
  have hrank : rank 0 data.length = ((0 : ℤ) : ℚ) := by simp [rank]
  rw [value, hrank, Interpolation.between_intCast]

theorem value_last {data : List ℚ} (h : data ≠ []) :
    value data h 100 = Interpolation.clamped data h ((data.length : ℤ) - 1) := by
  have hrank : rank 100 data.length = (((data.length : ℤ) - 1 : ℤ) : ℚ) := by
    rw [rank, div_self (by norm_num), one_mul]
    push_cast
    rfl
  rw [value, hrank, Interpolation.between_intCast]

theorem min_eq {t : PerformanceTracker} {now : ℚ} (h : ascending (t.snapshot now) ≠ []) :
    t.min now = some (value (ascending (t.snapshot now)) h 0) := by
  have hperm := ascending_perm (t.snapshot now)
  rw [min, List.min?_eq_some_iff, value_zero]
  exact ⟨hperm.mem_iff.mp (Interpolation.clamped_mem _ h _), fun x hx =>
    Interpolation.clamped_zero_le (ascending_sorted _) h (hperm.mem_iff.mpr hx)⟩

theorem max_eq {t : PerformanceTracker} {now : ℚ} (h : ascending (t.snapshot now) ≠ []) :
    t.max now = some (value (ascending (t.snapshot now)) h 100) := by
  have hperm := ascending_perm (t.snapshot now)
  rw [max, List.max?_eq_some_iff, value_last]
  exact ⟨hperm.mem_iff.mp (Interpolation.clamped_mem _ h _), fun x hx =>
    Interpolation.le_clamped_last (ascending_sorted _) h (hperm.mem_iff.mpr hx)⟩

/-- The percentiles of one reading rise from the least to the greatest latency, each between two
neighbours inside the window. -/
def Ordered (t : PerformanceTracker) (now : ℚ) : Prop :=
  ∃ (value : ℚ → ℚ) (lo hi : ℚ), Monotone value ∧ t.min now = some lo ∧ t.max now = some hi ∧
    lo ≤ value 50 ∧ value 50 ≤ value 95 ∧ value 95 ≤ value 99 ∧ value 99 ≤ hi ∧
    ∀ p, 0 ≤ p → p ≤ 100 → t.percentile now p = some (.finite (value p)) ∧
      Interpolated ((t.inside now).map LatencySample.latencyMs)
        (rank p (t.inside now).length) (value p)

def Empty (t : PerformanceTracker) (now : ℚ) : Prop :=
  t.min now = none ∧ t.max now = none ∧ t.mean now = none ∧ t.sampleCount now = 0 ∧
    ∀ p, t.percentile now p = none

/-- No statistic of one reading tells the two trackers apart. -/
def SameStatistics (t u : PerformanceTracker) (now : ℚ) : Prop :=
  (∀ p, t.percentile now p = u.percentile now p) ∧ t.mean now = u.mean now ∧
    t.min now = u.min now ∧ t.max now = u.max now ∧ t.reliability now = u.reliability now ∧
    t.sampleCount now = u.sampleCount now

theorem empty_of_snapshot {t : PerformanceTracker} {now : ℚ} (h : t.snapshot now = []) :
    t.Empty now := by
  simp only [Empty, min, max, mean, sampleCount, percentile, h]
  exact ⟨rfl, rfl, rfl, rfl, fun _ => rfl⟩

theorem sameStatistics_of_snapshot {t u : PerformanceTracker} {now : ℚ}
    (h : t.snapshot now = u.snapshot now) : t.SameStatistics u now := by
  simp only [SameStatistics, percentile, mean, min, max, reliability, sampleCount, h,
    implies_true, and_self]

theorem ordered_of_snapshot {t : PerformanceTracker} {now : ℚ}
    (hinside : t.snapshot now = t.inside now) (hne : t.inside now ≠ []) : t.Ordered now := by
  rw [Ordered, ← hinside]
  rw [← hinside] at hne
  have hdata := ascending_ne_nil hne
  have hperm := ascending_perm (t.snapshot now)
  have hlen : (ascending (t.snapshot now)).length = (t.snapshot now).length := by
    rw [hperm.length_eq, List.length_map]
  have hmono := value_mono (ascending_sorted _) hdata
  refine ⟨_, _, _, hmono, min_eq hdata, max_eq hdata, hmono (by norm_num), hmono (by norm_num),
    hmono (by norm_num), hmono (by norm_num), fun p hp hlast => ⟨percentile_eq hdata hp hlast, ?_⟩⟩
  obtain ⟨lower, hlower, upper, hupper, hle, hsplit, hvalue⟩ :=
    value_interpolated (ascending_sorted _) hdata p
  rw [hlen] at hvalue
  exact ⟨lower, hperm.mem_iff.mp hlower, upper, hperm.mem_iff.mp hupper, hle,
    fun x hx => hsplit x (hperm.mem_iff.mpr hx), hvalue⟩

/-- Samples older than the window have no influence, and those inside it are in order. -/
theorem statistics_inside (windowMs : ℚ) (events : List Event) (h : (recordedAt events).SortedLE)
    (now : ℚ) :
    ((run windowMs events).inside now = [] → (run windowMs events).Empty now) ∧
    ((run windowMs events).inside now ≠ [] → (run windowMs events).Ordered now) ∧
    (run windowMs (events.map (Event.without (now - windowMs)))).SameStatistics
      (run windowMs events) now := by
  have hinside : (run windowMs events).snapshot now = (run windowMs events).inside now :=
    snapshot_eq_inside (run_sorted h) now
  exact ⟨fun hnil => empty_of_snapshot (hinside.trans hnil), ordered_of_snapshot hinside,
    sameStatistics_of_snapshot (snapshot_without h now)⟩

def twoSamples : List Event := [.record 0 0 10 true, .record 0 0 20 true]

theorem twoSamples_median : (run 60000 twoSamples).inside 0 ≠ [] ∧
    ∀ s ∈ (run 60000 twoSamples).inside 0,
      (run 60000 twoSamples).percentile 0 50 ≠ some (.finite s.latencyMs) := by
  decide +kernel

theorem twoSamples_inside :
    (run 60000 (twoSamples.map (Event.without (0 - 60000)))).SameStatistics (run 60000 twoSamples) 0 ∧
      (run 60000 twoSamples).Ordered 0 := by
  have hsorted : (recordedAt twoSamples).SortedLE := List.Pairwise.sortedLE (by decide)
  obtain ⟨-, hordered, hsame⟩ := statistics_inside 60000 twoSamples hsorted 0
  exact ⟨hsame, hordered twoSamples_median.1⟩

/-- The median of two samples is none of them. -/
theorem median_between :
    ¬ ∀ (windowMs : ℚ) (events : List Event) (now p : ℚ), (recordedAt events).SortedLE →
      (run windowMs events).inside now ≠ [] → 0 ≤ p → p ≤ 100 →
        ∃ s ∈ (run windowMs events).inside now,
          (run windowMs events).percentile now p = some (.finite s.latencyMs) := by
  intro hall
  have hsorted : (recordedAt twoSamples).SortedLE := List.Pairwise.sortedLE (by decide)
  obtain ⟨s, hs, hvalue⟩ := hall 60000 twoSamples 0 50 hsorted twoSamples_median.1 (by norm_num)
    (by norm_num)
  exact twoSamples_median.2 s hs hvalue

/-! ## The summary -/

/-- The readings of a summary are readings of the run that goes on with them. -/
theorem pruned_run (windowMs : ℚ) (events : List Event) (clock : ℕ → ℚ) (k : ℕ) :
    (run windowMs events).pruned clock k =
      run windowMs (events ++ (List.range k).map fun i => .read (clock i)) := by
  induction k with
  | zero => rw [List.range_zero, List.map_nil, List.append_nil, pruned]
  | succ k ih =>
    rw [pruned, ih, List.range_succ, List.map_append, ← List.append_assoc, List.map_singleton,
      run_snoc]
    rfl

theorem prune_prune (t : PerformanceTracker) (now : ℚ) :
    (t.prune now).prune now = t.prune now :=
  congrArg (PerformanceTracker.mk t.windowMs) (List.dropWhile_idempotent _ _)

theorem pruned_constant (t : PerformanceTracker) (now : ℚ) (k : ℕ) :
    t.pruned (fun _ => now) (k + 1) = t.prune now := by
  induction k with
  | zero => rfl
  | succ k ih => rw [pruned, ih, prune_prune]

/-- While the clock stands still, the summary holds the statistics of one reading. -/
theorem summary_constant (t : PerformanceTracker) (now : ℚ) :
    t.summary (fun _ => now) =
      (⟨t.p50 now, t.p95 now, t.p99 now, t.mean now, t.min now, t.max now, t.reliability now,
        t.sampleCount now, t.windowMs, now⟩, t.prune now) := by
  have hsnapshot : (t.prune now).snapshot now = t.snapshot now :=
    congrArg samples (prune_prune t now)
  simp only [summary, pruned_constant]
  simp only [pruned, p50, p95, p99, percentile, mean, min, max, reliability, sampleCount, hsnapshot]

end PerformanceTracker
end Batiste
