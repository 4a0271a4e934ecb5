import Batiste.JsString

/-! Dates of the Gregorian calendar, their numbers, and their texts of the form `YYYY-MM-DD`.
Months and days count from zero, and the day of number zero is the first of the year zero. -/
namespace Batiste
namespace CivilDate

def leap (year : ℕ) : ℕ := if year % 4 = 0 ∧ (year % 100 ≠ 0 ∨ year % 400 = 0) then 1 else 0

/-- The number of the first day of a year. -/
def yearStart (year : ℕ) : ℕ :=
  365 * year + (year + 3) / 4 - (year + 99) / 100 + (year + 399) / 400

/-- Counts the years that `k` divides. -/
def multiple (k year : ℕ) : ℕ := if year % k = 0 then 1 else 0

theorem leap_eq (year : ℕ) :
    leap year + multiple 100 year = multiple 4 year + multiple 400 year := by
  unfold leap multiple
  split_ifs <;> omega

theorem yearStart_succ (year : ℕ) : yearStart (year + 1) = yearStart year + 365 + leap year := by
  have h4 : (year + 1 + 3) / 4 = (year + 3) / 4 + multiple 4 year := by
    unfold multiple
    split_ifs <;> omega
  have h100 : (year + 1 + 99) / 100 = (year + 99) / 100 + multiple 100 year := by
    unfold multiple
    split_ifs <;> omega
  have h400 : (year + 1 + 399) / 400 = (year + 399) / 400 + multiple 400 year := by
    unfold multiple
    split_ifs <;> omega
  have hless : (year + 99) / 100 ≤ (year + 3) / 4 := by omega
  have hone : multiple 100 year ≤ 1 := by
    unfold multiple
    split_ifs <;> omega
  have hleap := leap_eq year
  simp only [yearStart, h4, h100, h400]
  generalize (year + 3) / 4 = fours at *
  generalize (year + 99) / 100 = hundreds at *
  generalize (year + 399) / 400 = fourHundreds at *
  omega

theorem leap_le (year : ℕ) : leap year ≤ 1 := by
  unfold leap
  split_ifs <;> omega

theorem yearStart_strictMono : StrictMono yearStart :=
  strictMono_nat_of_lt_succ fun year => by
    rw [yearStart_succ]
    omega

theorem le_yearStart (year : ℕ) : 365 * year ≤ yearStart year := by
  unfold yearStart
  omega

/-- The days of a year before one of its months. -/
def monthStart (year : ℕ) : ℕ → ℕ
  | 0 => 0
  | 1 => 31
  | 2 => 59 + leap year
  | 3 => 90 + leap year
  | 4 => 120 + leap year
  | 5 => 151 + leap year
  | 6 => 181 + leap year
  | 7 => 212 + leap year
  | 8 => 243 + leap year
  | 9 => 273 + leap year
  | 10 => 304 + leap year
  | 11 => 334 + leap year
  | month + 12 => 365 + leap year + month

theorem monthStart_strictMono (year : ℕ) : StrictMono (monthStart year) :=
  strictMono_nat_of_lt_succ fun month => by
    match month with
    | 0 | 1 | 2 | 3 | 4 | 5 | 6 | 7 | 8 | 9 | 10 | 11 => simp only [monthStart]; omega
    | month + 12 => simp only [monthStart]; omega

structure Date where
  year : ℕ
  month : ℕ
  day : ℕ
  month_lt : month < 12
  day_lt : monthStart year month + day < monthStart year (month + 1)

namespace Date

def number (d : Date) : ℕ := yearStart d.year + monthStart d.year d.month + d.day

theorem within_year (d : Date) : monthStart d.year d.month + d.day < 365 + leap d.year :=
  d.day_lt.trans_le ((monthStart_strictMono d.year).monotone (Nat.succ_le_of_lt d.month_lt))

theorem number_lt_of_year {d e : Date} (h : d.year < e.year) : d.number < e.number := by
  have hnext := yearStart_strictMono.monotone (Nat.succ_le_of_lt h)
  have hwithin := d.within_year
  rw [Nat.succ_eq_add_one, yearStart_succ] at hnext
  unfold number
  omega

theorem number_lt_of_month {d e : Date} (hyear : d.year = e.year) (h : d.month < e.month) :
    d.number < e.number := by
  have hnext := (monthStart_strictMono d.year).monotone (Nat.succ_le_of_lt h)
  have hday := d.day_lt
  unfold number
  rw [hyear] at hnext hday ⊢
  rw [Nat.succ_eq_add_one] at hnext
  omega

theorem number_lt_of_day {d e : Date} (hyear : d.year = e.year) (hmonth : d.month = e.month)
    (h : d.day < e.day) : d.number < e.number := by
  unfold number
  rw [hyear, hmonth]
  omega

/-- Year first, then month, then day. -/
def Before (d e : Date) : Prop :=
  d.year < e.year ∨ d.year = e.year ∧ (d.month < e.month ∨ d.month = e.month ∧ d.day < e.day)

theorem number_lt_of_before {d e : Date} (h : d.Before e) : d.number < e.number := by
  rcases h with hyear | ⟨hyear, hmonth | ⟨hmonth, hday⟩⟩
  · exact number_lt_of_year hyear
  · exact number_lt_of_month hyear hmonth
  · exact number_lt_of_day hyear hmonth hday

theorem before_or_eq_or_before (d e : Date) : d.Before e ∨ d = e ∨ e.Before d := by
  rcases d with ⟨y, m, k, hm, hk⟩
  rcases e with ⟨y', m', k', hm', hk'⟩
  simp only [Before, mk.injEq]
  omega

theorem number_lt_iff (d e : Date) : d.number < e.number ↔ d.Before e := by
  refine ⟨fun h => ?_, number_lt_of_before⟩
  rcases before_or_eq_or_before d e with hbefore | rfl | hafter
  · exact hbefore
  · exact absurd h (lt_irrefl _)
  · exact absurd h (number_lt_of_before hafter).asymm

theorem number_injective : Function.Injective number := by
  intro d e h
  rcases before_or_eq_or_before d e with hbefore | heq | hafter
  · exact absurd h (number_lt_of_before hbefore).ne
  · exact heq
  · exact absurd h (number_lt_of_before hafter).ne'

end Date

/-! ## The date of a number -/

def yearOf (n : ℕ) : ℕ := Nat.findGreatest (fun year => yearStart year ≤ n) (n / 365)

theorem yearStart_yearOf (n : ℕ) : yearStart (yearOf n) ≤ n :=
  Nat.findGreatest_spec (P := fun year => yearStart year ≤ n) (Nat.zero_le _) (Nat.zero_le _)

theorem lt_yearStart_yearOf (n : ℕ) : n < yearStart (yearOf n + 1) := by
  by_contra hle
  rw [not_lt] at hle
  have hbound : yearOf n + 1 ≤ n / 365 := by
    have h := (le_yearStart (yearOf n + 1)).trans hle
    omega
  have hgreatest := Nat.le_findGreatest (P := fun year => yearStart year ≤ n) hbound hle
  exact absurd hgreatest (Nat.not_succ_le_self _)

def monthOf (year rest : ℕ) : ℕ := Nat.findGreatest (fun month => monthStart year month ≤ rest) 11

theorem monthStart_monthOf (year rest : ℕ) : monthStart year (monthOf year rest) ≤ rest :=
  Nat.findGreatest_spec (P := fun month => monthStart year month ≤ rest) (Nat.zero_le _)
    (Nat.zero_le _)

theorem monthOf_lt (year rest : ℕ) : monthOf year rest < 12 :=
  Nat.lt_succ_of_le (Nat.findGreatest_le 11)

theorem lt_monthStart_monthOf {year rest : ℕ} (h : rest < 365 + leap year) :
    rest < monthStart year (monthOf year rest + 1) := by
  by_contra hle
  rw [not_lt] at hle
  rcases Nat.lt_or_ge (monthOf year rest) 11 with hlt | hge
  · have hgreatest := Nat.le_findGreatest (P := fun month => monthStart year month ≤ rest)
      (Nat.succ_le_of_lt hlt) hle
    exact absurd hgreatest (Nat.not_succ_le_self _)
  · have hlast : monthOf year rest = 11 := le_antisymm (Nat.le_of_lt_succ (monthOf_lt _ _)) hge
    rw [hlast] at hle
    exact absurd h (not_lt.mpr hle)

def ofNumber (n : ℕ) : Date where
  year := yearOf n
  month := monthOf (yearOf n) (n - yearStart (yearOf n))
  day := n - yearStart (yearOf n) -
    monthStart (yearOf n) (monthOf (yearOf n) (n - yearStart (yearOf n)))
  month_lt := monthOf_lt _ _
  day_lt := by
    have hlow := yearStart_yearOf n
    have hhigh := lt_yearStart_yearOf n
    rw [yearStart_succ] at hhigh
    have hrest : n - yearStart (yearOf n) < 365 + leap (yearOf n) := by omega
    rw [Nat.add_sub_cancel' (monthStart_monthOf _ _)]
    exact lt_monthStart_monthOf hrest

theorem number_ofNumber (n : ℕ) : (ofNumber n).number = n := by
  have hyear := yearStart_yearOf n
  have hmonth := monthStart_monthOf (yearOf n) (n - yearStart (yearOf n))
  simp only [Date.number, ofNumber]
  omega

theorem ofNumber_number (d : Date) : ofNumber d.number = d :=
  Date.number_injective (number_ofNumber _)

theorem year_lt_iff (d : Date) (year : ℕ) : d.year < year ↔ d.number < yearStart year := by
  constructor
  · intro h
    have hnext := yearStart_strictMono.monotone (Nat.succ_le_of_lt h)
    have hwithin := d.within_year
    rw [Nat.succ_eq_add_one, yearStart_succ] at hnext
    unfold Date.number
    omega
  · intro h
    by_contra hle
    have hstart := yearStart_strictMono.monotone (not_lt.mp hle)
    unfold Date.number at h
    omega

/-! ## Texts -/

/-- The last `width` decimal digits of a number. -/
def digits : ℕ → ℕ → List Char
  | 0, _ => []
  | width + 1, n => digits width (n / 10) ++ [Char.ofNat (48 + n % 10)]

@[simp] theorem length_digits (width n : ℕ) : (digits width n).length = width := by
  induction width generalizing n with
  | zero => rfl
  | succ width ih => simp [digits, ih]

theorem toNat_digit (n : ℕ) : (Char.ofNat (48 + n % 10)).toNat = 48 + n % 10 := by
  have hall : ∀ d < 10, (Char.ofNat (48 + d)).toNat = 48 + d := by decide
  exact hall _ (Nat.mod_lt n (by decide))

def codes (cs : List Char) : List ℕ := cs.map Char.toNat

/-- Texts that begin with parts of one length are ordered by these parts first. -/
theorem append_lt_append {xs ys us vs : List ℕ} (h : xs.length = ys.length) :
    xs ++ us < ys ++ vs ↔ xs < ys ∨ xs = ys ∧ us < vs := by
  induction xs generalizing ys with
  | nil =>
    obtain rfl := List.length_eq_zero_iff.mp h.symm
    simp
  | cons x xs ih =>
    cases ys with
    | nil => cases h
    | cons y ys =>
      have ih' := ih (Nat.succ.inj h)
      simp only [List.cons_append, List.cons_lt_cons_iff, ih', List.cons.injEq]
      tauto

theorem codes_digits_eq {width m n : ℕ} (hm : m < 10 ^ width) (hn : n < 10 ^ width) :
    codes (digits width m) = codes (digits width n) ↔ m = n := by
  refine ⟨fun h => ?_, fun h => h ▸ rfl⟩
  induction width generalizing m n with
  | zero => omega
  | succ width ih =>
    rw [pow_succ] at hm hn
    simp only [codes, digits, List.map_append, List.map_cons, List.map_nil, toNat_digit] at h
    obtain ⟨hhigh, hlow⟩ := List.append_inj' h rfl
    have hdiv := ih (Nat.div_lt_of_lt_mul (by omega)) (Nat.div_lt_of_lt_mul (by omega)) hhigh
    have hmod : 48 + m % 10 = 48 + n % 10 := (List.cons.inj hlow).1
    omega

theorem codes_digits_lt {width m n : ℕ} (hm : m < 10 ^ width) (hn : n < 10 ^ width) :
    codes (digits width m) < codes (digits width n) ↔ m < n := by
  induction width generalizing m n with
  | zero =>
    have hm' : m = 0 := by omega
    have hn' : n = 0 := by omega
    simp [codes, digits, hm', hn']
  | succ width ih =>
    rw [pow_succ] at hm hn
    have hm' : m / 10 < 10 ^ width := Nat.div_lt_of_lt_mul (by omega)
    have hn' : n / 10 < 10 ^ width := Nat.div_lt_of_lt_mul (by omega)
    have hlength : (codes (digits width (m / 10))).length =
        (codes (digits width (n / 10))).length := by simp [codes]
    have hcodes : ∀ k, codes (digits (width + 1) k) =
        codes (digits width (k / 10)) ++ [48 + k % 10] := by
      intro k
      simp [codes, digits, toNat_digit]
    rw [hcodes, hcodes, append_lt_append hlength, ih hm' hn', codes_digits_eq hm' hn']
    simp only [List.cons_lt_cons_iff, List.not_lt_nil, and_false, or_false]
    omega

namespace Date

/-- `YYYY-MM-DD` -/
def text (d : Date) : String :=
  String.ofList (digits 4 d.year ++ '-' :: (digits 2 (d.month + 1) ++ '-' :: digits 2 (d.day + 1)))

theorem day_lt_hundred (d : Date) : d.day + 1 < 10 ^ 2 := by
  have hwithin := d.day_lt
  have hleap := leap_le d.year
  have hmonth := d.month_lt
  generalize d.month = month at hwithin hmonth
  interval_cases month <;> simp only [monthStart] at hwithin <;> omega

theorem month_lt_hundred (d : Date) : d.month + 1 < 10 ^ 2 := by
  have hmonth := d.month_lt
  omega

theorem codeUnits_ofList {cs : List Char} (h : ∀ c ∈ cs, c.toNat < 0x10000) :
    JsString.codeUnits (String.ofList cs) = codes cs := by
  simp only [JsString.codeUnits, String.toList_ofList, codes]
  induction cs with
  | nil => rfl
  | cons c cs ih =>
    rw [List.flatMap_cons, List.map_cons, if_pos (h c List.mem_cons_self),
      ih fun d hd => h d (List.mem_cons_of_mem c hd)]
    rfl

theorem toNat_of_mem_digits {width n : ℕ} {c : Char} (h : c ∈ digits width n) :
    c.toNat < 0x10000 := by
  induction width generalizing n with
  | zero => cases h
  | succ width ih =>
    rcases List.mem_append.mp h with hhigh | hlow
    · exact ih hhigh
    · rw [List.mem_singleton.mp hlow, toNat_digit]
      omega

theorem codeUnits_text (d : Date) :
    JsString.codeUnits d.text = codes (digits 4 d.year) ++ 45 ::
      (codes (digits 2 (d.month + 1)) ++ 45 :: codes (digits 2 (d.day + 1))) := by
  rw [text, codeUnits_ofList]
  · simp [codes]
  · intro c hc
    simp only [List.mem_append, List.mem_cons] at hc
    rcases hc with hyear | rfl | hmonth | rfl | hday
    · exact toNat_of_mem_digits hyear
    · decide
    · exact toNat_of_mem_digits hmonth
    · decide
    · exact toNat_of_mem_digits hday

/-- In years of four digits the texts have the order of the dates. -/
theorem codeUnits_text_lt {d e : Date} (hd : d.year < 10 ^ 4) (he : e.year < 10 ^ 4) :
    JsString.codeUnits d.text < JsString.codeUnits e.text ↔ d.number < e.number := by
  have hlength : ∀ width m n,
      (codes (digits width m)).length = (codes (digits width n)).length := by
    intro width m n
    simp [codes]
  rw [number_lt_iff, codeUnits_text, codeUnits_text, append_lt_append (hlength _ _ _),
    List.cons_lt_cons_iff, append_lt_append (hlength _ _ _), List.cons_lt_cons_iff,
    codes_digits_lt hd he, codes_digits_eq hd he,
    codes_digits_lt d.month_lt_hundred e.month_lt_hundred,
    codes_digits_eq d.month_lt_hundred e.month_lt_hundred,
    codes_digits_lt d.day_lt_hundred e.day_lt_hundred]
  simp only [lt_irrefl, false_or, true_and, Before]
  omega

theorem text_injective {d e : Date} (hd : d.year < 10 ^ 4) (he : e.year < 10 ^ 4)
    (h : d.text = e.text) : d = e := by
  refine number_injective (le_antisymm ?_ ?_)
  · exact not_lt.mp fun hlt => by
      have hlt' := (codeUnits_text_lt he hd).mpr hlt
      rw [h] at hlt'
      exact lt_irrefl _ hlt'
  · exact not_lt.mp fun hlt => by
      have hlt' := (codeUnits_text_lt hd he).mpr hlt
      rw [h] at hlt'
      exact lt_irrefl _ hlt'

end Date

/-! ## Reading a text -/

def value (cs : List Char) : ℕ := cs.foldl (fun n c => n * 10 + (c.toNat - 48)) 0

theorem value_digits {width n : ℕ} (h : n < 10 ^ width) : value (digits width n) = n := by
  induction width generalizing n with
  | zero =>
    have hn : n = 0 := by omega
    rw [hn]
    rfl
  | succ width ih =>
    rw [pow_succ] at h
    have hhigh := ih (n := n / 10) (Nat.div_lt_of_lt_mul (by omega))
    rw [value] at hhigh
    rw [value, digits, List.foldl_append, hhigh]
    simp only [List.foldl_cons, List.foldl_nil, toNat_digit]
    omega

/-- The date with this year, month and day. -/
def date? (year month day : ℕ) : Option Date :=
  if h : month < 12 ∧ monthStart year month + day < monthStart year (month + 1) then
    some ⟨year, month, day, h.1, h.2⟩
  else none

theorem date?_self (d : Date) : date? d.year d.month d.day = some d := by
  rw [date?, dif_pos ⟨d.month_lt, d.day_lt⟩]

/-- The date of a text of four, two and two digits. -/
def parse (text : String) : Option Date :=
  match text.toList with
  | [a, b, c, d, '-', e, f, '-', g, h] =>
    (date? (value [a, b, c, d]) (value [e, f] - 1) (value [g, h] - 1)).filter fun date =>
      date.year < 10 ^ 4 && date.text == text
  | _ => none

theorem parse_text {d : Date} (hd : d.year < 10 ^ 4) : parse d.text = some d := by
  have hyear := value_digits hd
  have hmonth := value_digits d.month_lt_hundred
  have hday := value_digits d.day_lt_hundred
  simp only [digits, List.nil_append, List.cons_append] at hyear hmonth hday
  rw [parse, Date.text, String.toList_ofList]
  simp only [digits, List.nil_append, List.cons_append, hyear, hmonth, hday, Nat.add_sub_cancel,
    date?_self]
  refine Option.filter_some_pos ?_
  rw [Bool.and_eq_true, decide_eq_true_eq, beq_iff_eq]
  refine ⟨hd, ?_⟩
  simp [Date.text, digits]

theorem parse_eq_some {text : String} {d : Date} :
    parse text = some d ↔ d.year < 10 ^ 4 ∧ text = d.text := by
  constructor
  · intro h
    unfold parse at h
    split at h
    · have hcheck := (Option.filter_eq_some_iff.mp h).2
      rw [Bool.and_eq_true, decide_eq_true_eq, beq_iff_eq] at hcheck
      exact ⟨hcheck.1, hcheck.2.symm⟩
    · cases h
  · rintro ⟨hd, rfl⟩
    exact parse_text hd

end CivilDate
end Batiste
