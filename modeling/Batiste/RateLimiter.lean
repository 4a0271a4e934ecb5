import Batiste.Json
import Batiste.TokenBucket
import Mathlib.Tactic.NormNum

/-! The gateway's rate limiter: one token bucket for each key, refilled when it is read. -/
namespace Batiste
namespace RateLimiting

structure RateLimitConfig where
  requestsPerMinute : ℚ := 60
  burstSize : ℚ := 10
deriving Repr, DecidableEq

structure Bucket where
  tokens : ℚ
  lastRefill : ℚ
deriving Repr, DecidableEq

structure RateLimiter where
  buckets : Dict Bucket
  requestsPerMinute : ℚ
  burstSize : ℚ
  refillRate : ℚ
deriving Repr, DecidableEq

namespace RateLimiter

def create (config : RateLimitConfig) : RateLimiter :=
  ⟨[], config.requestsPerMinute, config.burstSize, config.requestsPerMinute / 60000⟩

/-- `Math.min(burstSize, tokens + elapsed * refillRate)`. -/
def refilled (l : RateLimiter) (bucket : Bucket) (now : ℚ) : ℚ :=
  min l.burstSize (bucket.tokens + (now - bucket.lastRefill) * l.refillRate)

def consume (l : RateLimiter) (key : String) (now : ℚ) : RateLimiter × Bool :=
  let bucket := (l.buckets.get? key).getD ⟨l.burstSize, now⟩
  let tokens := l.refilled bucket now
  if 1 ≤ tokens then ({ l with buckets := l.buckets.set key ⟨tokens - 1, now⟩ }, true)
  else ({ l with buckets := l.buckets.set key ⟨tokens, now⟩ }, false)

def remaining (l : RateLimiter) (key : String) (now : ℚ) : ℚ :=
  match l.buckets.get? key with
  | none => l.burstSize
  | some bucket => l.refilled bucket now

def reset (l : RateLimiter) (key : String) : RateLimiter :=
  { l with buckets := l.buckets.erase key }

def clear (l : RateLimiter) : RateLimiter := { l with buckets := [] }

def size (l : RateLimiter) : ℕ := l.buckets.length

end RateLimiter

/-- One call of `consume` and the time `Date.now()` gives it. -/
structure Call where
  key : String
  now : ℚ
deriving Repr, DecidableEq

/-- The answers to calls made one after another. -/
def answers : RateLimiter → List Call → List (Call × Bool)
  | _, [] => []
  | l, c :: calls =>
    let r := l.consume c.key c.now
    (c, r.2) :: answers r.1 calls

/-- The limiter after calls made one after another. -/
def after (l : RateLimiter) (calls : List Call) : RateLimiter :=
  calls.foldl (fun l c => (l.consume c.key c.now).1) l

variable (l : RateLimiter) (key : String) (now : ℚ)

/-- What a limiter keeps for a key, as a level of the bucket library. -/
def held : Option (TokenBucket.Level ℚ) :=
  (l.buckets.get? key).map fun b => ⟨b.tokens, b.lastRefill⟩

theorem remaining_eq :
    l.remaining key now = TokenBucket.level l.burstSize l.refillRate (held l key) now := by
  unfold RateLimiter.remaining held
  cases l.buckets.get? key <;> rfl

theorem consume_tokens :
    l.refilled ((l.buckets.get? key).getD ⟨l.burstSize, now⟩) now = l.remaining key now := by
  unfold RateLimiter.remaining
  cases l.buckets.get? key with
  | none => simp [RateLimiter.refilled]
  | some b => rfl

/-- Both branches of `consume` write one bucket and nothing else. -/
theorem consume_eq :
    l.consume key now =
      (let r := TokenBucket.take l.burstSize l.refillRate (held l key) now
       ({ l with buckets := l.buckets.set key ⟨r.2.tokens, now⟩ }, r.1)) := by
  unfold RateLimiter.consume TokenBucket.take
  simp only [consume_tokens, remaining_eq]
  split <;> rfl

theorem consume_iff : (l.consume key now).2 = true ↔ 1 ≤ l.remaining key now := by
  rw [consume_eq, remaining_eq]
  unfold TokenBucket.take
  split <;> simp_all

@[simp] theorem consume_burstSize : (l.consume key now).1.burstSize = l.burstSize := by
  rw [consume_eq]

@[simp] theorem consume_refillRate : (l.consume key now).1.refillRate = l.refillRate := by
  rw [consume_eq]

theorem held_set (bucket : Bucket) (other : String) :
    held { l with buckets := l.buckets.set key bucket } other =
      if other = key then some ⟨bucket.tokens, bucket.lastRefill⟩ else held l other := by
  unfold held
  simp only [Dict.get?_set]
  split <;> rfl

theorem held_consume (other : String) :
    held (l.consume key now).1 other =
      if other = key then some (TokenBucket.take l.burstSize l.refillRate (held l key) now).2
      else held l other := by
  rw [consume_eq, held_set]
  rcases hr : TokenBucket.take l.burstSize l.refillRate (held l key) now with ⟨granted, b⟩
  have hstamp : b.stamp = now := by
    simpa only [hr] using TokenBucket.take_stamp l.burstSize l.refillRate (held l key) now
  subst hstamp
  rfl

/-- Answers to a key's calls are those of its own bucket. -/
theorem answers_filter (l : RateLimiter) (key : String) (calls : List Call) :
    (answers l calls).filter (fun r => r.1.key == key) =
      (TokenBucket.grants l.burstSize l.refillRate (held l key)
        ((calls.filter fun c => c.key == key).map Call.now)).map
          fun r => (⟨key, r.1⟩, r.2) := by
  induction calls generalizing l with
  | nil => rfl
  | cons c calls ih =>
    have htail := ih (l.consume c.key c.now).1
    rw [consume_burstSize, consume_refillRate, held_consume] at htail
    by_cases h : c.key = key
    · subst h
      rw [if_pos rfl] at htail
      simp only [answers, List.filter_cons_of_pos, beq_self_eq_true, List.map_cons,
        TokenBucket.grants, htail]
      rw [consume_eq]
    · rw [if_neg (Ne.symm h)] at htail
      have hkey : (c.key == key) = false := by simp [h]
      simp only [answers, List.filter_cons, hkey, Bool.false_eq_true, if_false, htail]

/-- With no call for another key in between, a key gets the same answers. -/
theorem answers_filter_self (l : RateLimiter) (key : String) (calls : List Call) :
    (answers l calls).filter (fun r => r.1.key == key) =
      answers l (calls.filter fun c => c.key == key) := by
  have hown : ∀ (l : RateLimiter) (calls : List Call),
      (∀ c ∈ calls, c.key == key) → ∀ r ∈ answers l calls, r.1.key == key := by
    intro l calls
    induction calls generalizing l with
    | nil => simp [answers]
    | cons c calls ih =>
      intro hall r hr
      rcases List.mem_cons.mp hr with rfl | hr
      · exact hall c List.mem_cons_self
      · exact ih _ (fun c' hc' => hall c' (List.mem_cons_of_mem _ hc')) r hr
  have hkeys := hown l (calls.filter fun c => c.key == key) fun c hc => (List.mem_filter.mp hc).2
  have hfiltered := answers_filter l key (calls.filter fun c => c.key == key)
  rw [List.filter_filter, List.filter_eq_self.mpr hkeys] at hfiltered
  rw [answers_filter, hfiltered]
  simp only [Bool.and_self]

/-- The accepted calls of a key in the window of `d` milliseconds from `start` on. -/
def accepted (config : RateLimitConfig) (calls : List Call) (key : String) (start d : ℚ) : ℕ :=
  (answers (RateLimiter.create config) calls).countP fun r =>
    (r.2 && decide (start ≤ r.1.now) && decide (r.1.now ≤ start + d)) && r.1.key == key

theorem accepted_eq (config : RateLimitConfig) (calls : List Call) (key : String)
    (start d : ℚ) :
    accepted config calls key start d =
      (TokenBucket.grants config.burstSize (config.requestsPerMinute / 60000) none
        ((calls.filter fun c => c.key == key).map Call.now)).countP
          fun r => r.2 && decide (start ≤ r.1) && decide (r.1 ≤ start + d) := by
  have hkey := answers_filter (RateLimiter.create config) key calls
  unfold accepted
  rw [← List.countP_filter, hkey, List.countP_map]
  rfl

theorem max_zero_div (x : ℚ) : max 0 (x / 60000) = max 0 x / 60000 := by
  rcases le_total 0 x with h | h
  · rw [max_eq_right h, max_eq_right (by positivity)]
  · rw [max_eq_left h, max_eq_left (div_nonpos_of_nonpos_of_nonneg h (by norm_num)), zero_div]

/-- A key's accepted calls in a window are bounded by the burst and the window's refill, the
calls for other keys change none of its answers, and `remaining` tells the next answer. -/
theorem consume_bounded (config : RateLimitConfig) (calls : List Call)
    (hsorted : calls.Pairwise fun c c' => c.now ≤ c'.now) (key : String) :
    (∀ start d : ℚ, 0 ≤ d →
        (accepted config calls key start d : ℚ) ≤
          max 0 config.burstSize + d * max 0 config.requestsPerMinute / 60000) ∧
      (answers (RateLimiter.create config) calls).filter (fun r => r.1.key == key) =
        answers (RateLimiter.create config) (calls.filter fun c => c.key == key) ∧
      ∀ now : ℚ,
        ((after (RateLimiter.create config) calls).consume key now).2 = true ↔
          1 ≤ (after (RateLimiter.create config) calls).remaining key now := by
  refine ⟨fun start d hd => ?_, ?_, fun now => consume_iff _ key now⟩
  · have htimes : ((calls.filter fun c => c.key == key).map Call.now).Pairwise (· ≤ ·) :=
      List.pairwise_map.mpr (hsorted.sublist List.filter_sublist)
    have hwindow := TokenBucket.granted_window config.burstSize
      (config.requestsPerMinute / 60000) start (start + d) none _ htimes
    rw [← accepted_eq, add_sub_cancel_left, max_zero_div] at hwindow
    have hrefill : 0 ≤ d * (max 0 config.requestsPerMinute / 60000) := by positivity
    refine hwindow.trans (max_le ?_ ?_)
    · rw [mul_div_assoc]
      exact add_nonneg (le_max_left _ _) hrefill
    · rw [mul_div_assoc]
      exact add_le_add_left (le_max_right _ _) _
  · exact answers_filter_self (RateLimiter.create config) key calls

/-- Two keys with one token each: either is served once and refused a second time. -/
theorem consume_bounded_two :
    let config : RateLimitConfig := ⟨60, 1⟩
    let calls : List Call := [⟨"a", 0⟩, ⟨"b", 0⟩, ⟨"a", 500⟩, ⟨"a", 1000⟩]
    (answers (RateLimiter.create config) calls).map Prod.snd = [true, true, false, true] ∧
      ∀ key, ∀ start d : ℚ, 0 ≤ d →
        (accepted config calls key start d : ℚ) ≤
          max 0 config.burstSize + d * max 0 config.requestsPerMinute / 60000 :=
  ⟨by decide +kernel, fun key => (consume_bounded ⟨60, 1⟩ _ (by decide +kernel) key).1⟩

/-- A configuration below zero is accepted, and no count meets a negative bound. -/
theorem window_below_zero :
    ¬ ∀ (config : RateLimitConfig) (calls : List Call),
      (calls.Pairwise fun c c' => c.now ≤ c'.now) → ∀ (key : String) (start d : ℚ), 0 ≤ d →
        (accepted config calls key start d : ℚ) ≤
          config.burstSize + d * config.requestsPerMinute / 60000 := by
  intro h
  have hone := h ⟨-60000, 1⟩ [⟨"a", 0⟩] (by decide +kernel) "a" 0 1 (by norm_num)
  have hcount : accepted ⟨-60000, 1⟩ [⟨"a", 0⟩] "a" 0 1 = 1 := by decide +kernel
  rw [hcount] at hone
  norm_num at hone

end RateLimiting
end Batiste
