import Batiste.ActionWrites
import Batiste.CivilDate

/-! How long a renewal counts: the ceiling of `manage_task renew`, the test of `triage`, and
`renovacaoVigente` of `tasklog-hygiene`. -/
namespace Batiste
namespace RenewWindow

open JsonText TaskActions TaskMerge ManageTask CivilDate
open TaskManager (Clocks Patch)

/-! ## The gate of the task log -/

section Hygiene

variable (rt : Runtime)

/-- `a < b` for two texts -/
def textBefore (a b : String) : Bool := decide (JsString.codeUnits a < JsString.codeUnits b)

/-- `new Date(now * 1000).toISOString().slice(0, 10)` -/
def hoje (now : ℚ) : Except String String :=
  match rt.isoDay ⌊now * 1000⌋ with
  | some day => .ok day
  | none => .error "Invalid time value"

def RENEW_MAX_DIAS : ℤ := 45
def RENEW_MIN_MOTIVO : ℕ := 15

/-- `String(x || "")` -/
def orEmpty (value : Option Json) : String :=
  match value.filter Json.truthy with
  | some value => valueText rt.numberText value
  | none => ""

/-- Why the renewal does not hold; `none` where it does, or where there is none. -/
def renovacaoInvalida (task : Task) (now : ℤ) : Except String (Option String) :=
  match (Dict.get? (metaOf task) "renewedUntil").filter Json.truthy with
  | none => .ok none
  | some r =>
    let fields := fieldsOf (some r)
    match (Dict.get? fields "until").filter Json.truthy with
    | none => .ok (some "sem data")
    | some until_ =>
      if textLength (trimText (orEmpty rt (Dict.get? fields "reason"))) < RENEW_MIN_MOTIVO then
        .ok (some ("motivo com menos de " ++ rt.numberText RENEW_MIN_MOTIVO ++ " caracteres"))
      else do
        let today ← hoje rt now
        if textBefore (valueText rt.numberText until_) today then .ok (some "expirada")
        else
          let base := match Dict.get? fields "at" with
            | some (.number base) => base
            | _ => now
          let teto ← hoje rt (base + RENEW_MAX_DIAS * DAY)
          if textBefore teto (valueText rt.numberText until_) then
            .ok (some ("until " ++ valueText rt.numberText until_ ++ " passa do teto de " ++
              rt.numberText RENEW_MAX_DIAS ++ " dias (" ++ teto ++ ")"))
          else .ok none

/-- `!!r && renovacaoInvalida(t, now) === null` -/
def renovacaoVigente (task : Task) (now : ℤ) : Except String Bool :=
  if ((Dict.get? (metaOf task) "renewedUntil").filter Json.truthy).isNone then .ok false
  else (renovacaoInvalida rt task now).map Option.isNone

end Hygiene

/-! ## Dates -/

/-- The time value of midnight of a date. -/
def midnight (d : Date) : ℤ := ((d.number : ℤ) - yearStart 1970) * (DAY * 1000)

/-- The number of the day of a time value. -/
def dayAt (time : ℤ) : ℤ := time / (DAY * 1000) + yearStart 1970

/-- The time value lies in a year of four digits. -/
def Representable (time : ℤ) : Prop := 0 ≤ dayAt time ∧ dayAt time < yearStart (10 ^ 4)

/-- What the language documents about the texts of dates.  A year of more digits begins with a
sign, and its first ten characters name a month; white space around a text makes no date of one
that is none. -/
structure ReadsDates (rt : Runtime) : Prop where
  parse : ∀ text, isDay text.toList = true → ∀ time, rt.parseDate text = some time ↔
    ∃ d : Date, d.year < 10 ^ 4 ∧ text = d.text ∧ time = midnight d
  day : ∀ d : Date, d.year < 10 ^ 4 → ∀ time, dayAt time = d.number → rt.isoDay time = some d.text
  beyond : ∀ time iso, rt.isoDay time = some iso → (yearStart (10 ^ 4) : ℤ) ≤ dayAt time →
    ∃ month, rt.parseDate iso = some month ∧ (yearStart (10 ^ 4) : ℤ) ≤ dayAt month
  padded : ∀ text, isDay (trimText text).toList = true → (rt.parseDate text).isSome = true →
    (rt.parseDate (trimText text)).isSome = true

theorem isDigit_digit (n : ℕ) : (Char.ofNat (48 + n % 10)).isDigit = true := by
  have hall : ∀ d < 10, (Char.ofNat (48 + d)).isDigit = true := by decide
  exact hall _ (Nat.mod_lt n (by decide))

theorem isDay_text (d : Date) : isDay d.text.toList = true := by
  simp only [Date.text, String.toList_ofList, digits, List.nil_append, List.cons_append, isDay,
    List.all_cons, isDigit_digit, List.all_nil, Bool.and_self]

variable {rt : Runtime}

theorem ReadsDates.parse_text (hrt : ReadsDates rt) {d : Date} (hd : d.year < 10 ^ 4) :
    rt.parseDate d.text = some (midnight d) :=
  (hrt.parse d.text (isDay_text d) (midnight d)).mpr ⟨d, hd, rfl, rfl⟩

/-- A representable time lies in the day of one date. -/
theorem Representable.date {time : ℤ} (h : Representable time) :
    ∃ d : Date, d.year < 10 ^ 4 ∧ dayAt time = d.number := by
  obtain ⟨n, hn⟩ := Int.eq_ofNat_of_zero_le h.1
  refine ⟨ofNumber n, ?_, ?_⟩
  · rw [year_lt_iff, number_ofNumber]
    have hlt := h.2
    rw [hn] at hlt
    exact_mod_cast hlt
  · rw [number_ofNumber, hn]

/-- A date that `renew` accepts is less than 46 days ahead. -/
theorem capUntil_ok (hrt : ReadsDates rt) {d : Date} (hd : d.year < 10 ^ 4) {iso : String}
    {now : ℤ} (h : capUntil rt d.text now = .ok iso) :
    iso = d.text ∧ midnight d < now + 46 * (DAY * 1000) := by
  unfold capUntil at h
  rw [hrt.parse_text hd] at h
  simp only at h
  split at h
  · cases h
  · next hdays =>
    refine ⟨(Except.ok.inj h).symm, ?_⟩
    unfold RENEW_MAX_DAYS at hdays
    unfold DAY at hdays ⊢
    omega

theorem parseUntil_ok (hrt : ReadsDates rt) {now : ℤ} (hnow : 0 ≤ now)
    (hlast : Representable (now + 46 * (DAY * 1000))) {text iso : String}
    (h : parseUntil rt text now = .ok iso) :
    ∃ d : Date, d.year < 10 ^ 4 ∧ iso = d.text ∧ midnight d < now + 46 * (DAY * 1000) := by
  unfold parseUntil at h
  split at h
  · next days _ =>
    split at h
    · cases h
    · next day hday =>
      by_cases hin : Representable (now + days * DAY * 1000)
      · obtain ⟨d, hd, hsame⟩ := hin.date
        obtain rfl : d.text = day := Option.some.inj ((hrt.day d hd _ hsame).symm.trans hday)
        exact ⟨d, hd, capUntil_ok hrt hd h⟩
      · have hfar : (yearStart (10 ^ 4) : ℤ) ≤ dayAt (now + days * DAY * 1000) := by
          by_contra hlt
          refine hin ⟨?_, not_le.mp hlt⟩
          have hdays : (0 : ℤ) ≤ days := Int.natCast_nonneg days
          unfold dayAt DAY
          omega
        obtain ⟨month, hmonth, hafter⟩ := hrt.beyond _ _ hday hfar
        unfold capUntil at h
        rw [hmonth] at h
        simp only at h
        split at h
        · cases h
        · next hdays =>
          have hbefore := hlast.2
          unfold RENEW_MAX_DAYS at hdays
          unfold dayAt at hafter hbefore
          unfold DAY at hdays hafter hbefore
          omega
  · split at h
    · cases h
    · next hread =>
      rw [Bool.or_eq_true, not_or, Bool.not_eq_true', Option.isNone_iff_eq_none] at hread
      have hshape : isDay (trimText text).toList = true := by simpa using hread.1
      obtain ⟨time, htime⟩ := Option.isSome_iff_exists.mp
        (hrt.padded text hshape (Option.isSome_iff_ne_none.mpr hread.2))
      obtain ⟨d, hd, htext, -⟩ := (hrt.parse _ hshape time).mp htime
      rw [htext] at h
      obtain ⟨hiso, hcap⟩ := capUntil_ok hrt hd h
      exact ⟨d, hd, hiso, hcap⟩

/-! ## The renewal in the store -/

/-- The metadata of a task that `renew` has patched. -/
structure Renewed (task : Task) (d : Date) (reason : String) (at_ : ℤ) : Prop where
  record : ∃ count, Dict.get? (metaOf task) "renewedUntil" = some (.object
    [("until", .string d.text), ("reason", .string reason), ("at", .number at_), ("count", count)])
  reason : RENEW_MIN_REASON ≤ textLength (trimText reason)

theorem trimText_trimText (text : String) : trimText (trimText text) = trimText text := by
  simp [trimText, JsString.trim_trim]

section Handler

variable {h : Handler} {host : CallHost} {args : TaskArgs} {s s' : Session} {reply : Reply}

theorem textAt_of_get {normalized : Dict Json} {key text : String}
    (hget : normalized.get? key = some (.string text)) : textAt normalized key = some text := by
  rw [textAt, hget]

theorem validateInput_renew {normalized : Dict Json}
    (hvalid : validateInput normalized = .ok args) :
    args.until_ = textAt normalized "until" ∧ args.reason = textAt normalized "reason" := by
  unfold validateInput at hvalid
  simp only at hvalid
  split at hvalid
  · cases hvalid
  · obtain rfl := Except.ok.inj hvalid
    exact ⟨rfl, rfl⟩

theorem normalizeRenew_ok {merged fields : Dict Json} {now : ℤ}
    (hfields : normalizeRenew rt merged now = .ok fields) :
    ∃ text until_ reason, parseUntil rt text now = .ok until_ ∧
      fields = (merged.set "until" (.string until_)).set "reason" (.string reason) ∧
      RENEW_MIN_REASON ≤ textLength (trimText reason) := by
  obtain ⟨until_, huntil, hfields⟩ := bind_ok_iff.mp hfields
  have hstored : ∀ reason message : String, trimText reason = reason →
      (if textLength reason < RENEW_MIN_REASON then Except.error message
        else .ok ((merged.set "until" (.string until_)).set "reason" (.string reason))) =
          Except.ok fields →
      fields = (merged.set "until" (.string until_)).set "reason" (.string reason) ∧
        RENEW_MIN_REASON ≤ textLength (trimText reason) := by
    intro reason message htrimmed hok
    split_ifs at hok with hshort
    rw [htrimmed]
    exact ⟨(Except.ok.inj hok).symm, not_lt.mp hshort⟩
  simp only at hfields
  split at hfields
  · exact ⟨_, until_, "", huntil, hstored _ _ (by decide) hfields⟩
  · exact ⟨_, until_, "", huntil, hstored _ _ (by decide) hfields⟩
  · exact ⟨_, until_, _, huntil, hstored _ _ (trimText_trimText _) hfields⟩

/-- What a renewal that gets through carries. -/
theorem request_renew (hrt : ReadsDates h.rt) (hnow : 0 ≤ host.now)
    (hlast : Representable (host.now + 46 * (DAY * 1000))) {raw : Dict Json}
    (hrequest : request h host raw = some (.renew, args)) :
    ∃ (d : Date) (reason : String), d.year < 10 ^ 4 ∧
      midnight d < host.now + 46 * (DAY * 1000) ∧ args.until_ = some d.text ∧
      args.reason = some reason ∧ RENEW_MIN_REASON ≤ textLength (trimText reason) := by
  obtain ⟨normalized, warnings, hnorm, hvalid⟩ := request_ok hrequest
  obtain ⟨named, -, hnorm⟩ := bind_ok_iff.mp hnorm
  obtain ⟨replaced, -, hnorm⟩ := bind_ok_iff.mp hnorm
  obtain ⟨-, -, hnorm⟩ := bind_ok_iff.mp hnorm
  obtain ⟨-, -, hnorm⟩ := bind_ok_iff.mp hnorm
  obtain ⟨fields, hfields, hnorm⟩ := bind_ok_iff.mp hnorm
  simp only [pure, Except.pure, Except.ok.injEq, Prod.mk.injEq] at hnorm
  obtain ⟨haction, rfl, -⟩ := hnorm
  rw [haction] at hfields
  obtain ⟨created, -, hfields⟩ := bind_ok_iff.mp hfields
  obtain ⟨-, -, hfields⟩ := bind_ok_iff.mp hfields
  obtain ⟨-, -, hfields⟩ := bind_ok_iff.mp hfields
  obtain ⟨output, -, hfields⟩ := bind_ok_iff.mp hfields
  obtain ⟨merged, -, hfields⟩ := bind_ok_iff.mp hfields
  simp only [if_true] at hfields
  obtain ⟨text, until_, reason, huntil, hstored, hreason⟩ := normalizeRenew_ok hfields
  obtain ⟨d, hd, rfl, hcap⟩ := parseUntil_ok hrt hnow hlast huntil
  obtain ⟨huntil', hreason'⟩ := validateInput_renew hvalid
  refine ⟨d, reason, hd, hcap, huntil'.trans (textAt_of_get ?_),
    hreason'.trans (textAt_of_get ?_), hreason⟩
  · rw [hstored, Dict.get?_set, if_neg (by decide), Dict.get?_set, if_pos rfl]
  · rw [hstored, Dict.get?_set, if_pos rfl]

/-- The task that `renew` leaves on the board. -/
theorem renew_stores (hrenew : renew h host args s = .ok (s', reply)) :
    ∃ task, s'.board.get (args.taskId.getD "") = some task ∧ ∃ count,
      Dict.get? (metaOf task) "renewedUntil" = some (.object
        [("until", .string (args.until_.getD "")), ("reason", .string (args.reason.getD "")),
          ("at", seconds host), ("count", count)]) := by
  obtain ⟨before, hbefore, hrenew⟩ := bind_ok_iff.mp hrenew
  split at hrenew
  · cases hrenew
  · obtain ⟨patched, hpatched, hrenew⟩ := bind_ok_iff.mp hrenew
    cases hrenew
    have htask := need_ok hbefore
    rw [Board.get_id htask] at hpatched
    refine ⟨_, patchTask_get htask (mapError_ok_iff.mp hpatched), .number (renewals before), ?_⟩
    change Dict.get? (Dict.spread (metaOf before) _) "renewedUntil" = _
    have hkeys : ∀ value : Json, ((structured h host args (metaOf before) ++
        [("renewedUntil", value)]).map Prod.fst).Nodup := by
      intro value
      have hall : (structuredKeys ++ ["renewedUntil"]).Nodup := by decide
      rw [List.map_append]
      exact hall.sublist ((structured_keys h host args _).append (List.Sublist.refl _))
    have hnone : Dict.get? (structured h host args (metaOf before)) "renewedUntil" = none := by
      rw [Dict.get?_eq_none]
      exact fun hmem => absurd ((structured_keys h host args _).subset hmem) (by decide)
    rw [Dict.get?_spread_of_nodup _ (hkeys _), Dict.get?_append, hnone]
    rfl

end Handler

/-! ## The two tests of a renewal -/

theorem text_ne_empty (d : Date) : d.text ≠ "" := by
  intro h
  have hcodes := d.codeUnits_text
  rw [h] at hcodes
  have hlength := congrArg List.length hcodes
  simp [JsString.codeUnits] at hlength

theorem renewed_iff (hrt : ReadsDates rt) {d : Date} (hd : d.year < 10 ^ 4) {task : Task}
    {reason : String} {at_ : ℤ} (htask : Renewed task d reason at_) (now : ℤ) :
    renewed rt now task = true ↔ now * 1000 ≤ midnight d ∧
      midnight d ≤ (at_ + RENEW_MAX_DAYS * DAY) * 1000 + DAY * 1000 := by
  obtain ⟨⟨count, hrecord⟩, hreason⟩ := htask
  unfold renewed
  rw [hrecord]
  simp only [Dict.get?_cons, if_true, String.reduceEq, if_false, textOf]
  rw [if_neg (by rw [not_or]; exact ⟨text_ne_empty d, not_lt.mpr hreason⟩), hrt.parse_text hd]
  simp only [decide_eq_true_eq]
  exact and_congr_right fun _ => by exact_mod_cast Iff.rfl

theorem hoje_ok (hrt : ReadsDates rt) {now : ℤ} (h : Representable (now * 1000)) :
    ∃ today : Date, today.year < 10 ^ 4 ∧ (today.number : ℤ) = dayAt (now * 1000) ∧
      hoje rt now = .ok today.text := by
  obtain ⟨today, hyear, hday⟩ := h.date
  refine ⟨today, hyear, hday.symm, ?_⟩
  have hfloor : ⌊(now : ℚ) * 1000⌋ = now * 1000 := by
    have hcast : (now : ℚ) * 1000 = ((now * 1000 : ℤ) : ℚ) := by push_cast; rfl
    rw [hcast, Int.floor_intCast]
  rw [hoje, hfloor, hrt.day today hyear _ hday]

theorem textBefore_iff {d e : Date} (hd : d.year < 10 ^ 4) (he : e.year < 10 ^ 4) :
    textBefore d.text e.text = true ↔ (d.number : ℤ) < e.number := by
  rw [textBefore, decide_eq_true_eq, Date.codeUnits_text_lt hd he, Nat.cast_lt]

theorem filter_text {text : String} (h : text ≠ "") :
    (some (Json.string text)).filter Json.truthy = some (.string text) :=
  Option.filter_some_pos (by simpa [Json.truthy] using h)

theorem orEmpty_text (reason : String) : orEmpty rt (some (.string reason)) = reason := by
  by_cases h : reason = ""
  · rw [h]
    rfl
  · rw [orEmpty, filter_text h]
    rfl

theorem renovacaoVigente_eq (hrt : ReadsDates rt) {d : Date} (hd : d.year < 10 ^ 4) {task : Task}
    {reason : String} {at_ : ℤ} (htask : Renewed task d reason at_) {now : ℤ}
    (hnow : Representable (now * 1000))
    (hteto : Representable ((at_ + RENEW_MAX_DIAS * DAY) * 1000)) :
    renovacaoVigente rt task now = .ok (decide (dayAt (now * 1000) ≤ d.number ∧
      (d.number : ℤ) ≤ dayAt ((at_ + RENEW_MAX_DIAS * DAY) * 1000))) := by
  obtain ⟨⟨count, hrecord⟩, hreason⟩ := htask
  obtain ⟨today, htoday, hday, hhoje⟩ := hoje_ok hrt hnow
  obtain ⟨teto, htetoYear, htetoDay, hhojeTeto⟩ := hoje_ok hrt hteto
  have hbase : ((at_ : ℚ) + RENEW_MAX_DIAS * DAY) = ((at_ + RENEW_MAX_DIAS * DAY : ℤ) : ℚ) := by
    push_cast
    rfl
  have htext : Json.truthy (.string d.text) = true := by simp [Json.truthy, text_ne_empty]
  have hlong : ¬ textLength (trimText (orEmpty rt (some (.string reason)))) < RENEW_MIN_MOTIVO := by
    rw [orEmpty_text]
    exact not_lt.mpr hreason
  have htoday' := textBefore_iff hd htoday
  have hteto' := textBefore_iff htetoYear hd
  have hfilter : (Dict.get? (metaOf task) "renewedUntil").filter Json.truthy =
      Dict.get? (metaOf task) "renewedUntil" := by
    rw [hrecord]
    rfl
  have hinvalid : renovacaoInvalida rt task now =
      if textBefore d.text today.text then .ok (some "expirada")
      else if textBefore teto.text d.text then
        .ok (some ("until " ++ d.text ++ " passa do teto de " ++ rt.numberText RENEW_MAX_DIAS ++
          " dias (" ++ teto.text ++ ")"))
      else .ok none := by
    unfold renovacaoInvalida
    rw [hfilter, hrecord]
    simp only [fieldsOf, Dict.get?_cons, String.reduceEq, if_false, if_true,
      filter_text (text_ne_empty d)]
    rw [if_neg hlong, hhoje]
    simp only [valueText, bind, Except.bind, hbase, hhojeTeto]
    rfl
  have hsome : (Dict.get? (metaOf task) "renewedUntil").isNone = false := by
    rw [hrecord]
    rfl
  rw [renovacaoVigente, hfilter, hsome, if_neg (by decide), hinvalid, ← hday, ← htetoDay]
  by_cases hpast : textBefore d.text today.text = true
  · have hnot : ¬ (today.number : ℤ) ≤ d.number := not_le.mpr (htoday'.mp hpast)
    rw [if_pos hpast, decide_eq_false fun h => hnot h.1]
    rfl
  rw [if_neg hpast]
  by_cases hfar : textBefore teto.text d.text = true
  · have hnot : ¬ (d.number : ℤ) ≤ teto.number := not_le.mpr (hteto'.mp hfar)
    rw [if_pos hfar, decide_eq_false fun h => hnot h.2]
    rfl
  · have hnow' : (today.number : ℤ) ≤ d.number := not_lt.mp fun hlt => hpast (htoday'.mpr hlt)
    have hin : (d.number : ℤ) ≤ teto.number := not_lt.mp fun hlt => hfar (hteto'.mpr hlt)
    rw [if_neg hfar, decide_eq_true ⟨hnow', hin⟩]
    rfl

/-! ## The two tests together -/

/-- A renewal is no longer than the ceiling, and counts for both tests up to the end of its last
day and for neither after it. -/
structure Agrees (rt : Runtime) (now : ℤ) (d : Date) (task : Task) : Prop where
  ceiling : midnight d ≤ now + RENEW_MAX_DAYS * DAY * 1000
  during : ∀ time, now ≤ time → Representable time → dayAt time ≤ d.number →
    renewed rt (time / 1000) task = true ∧ renovacaoVigente rt task (time / 1000) = .ok true
  after : ∀ time, now ≤ time → Representable time → d.number < dayAt time →
    renewed rt (time / 1000) task = false ∧ renovacaoVigente rt task (time / 1000) = .ok false

/-- Full seconds lie in the day of the time they are cut from. -/
theorem dayAt_seconds (time : ℤ) : dayAt (time / 1000 * 1000) = dayAt time := by
  unfold dayAt DAY
  omega

theorem Representable.seconds {time : ℤ} (h : Representable time) :
    Representable (time / 1000 * 1000) := by
  rw [Representable, dayAt_seconds]
  exact h

theorem representable_ceiling {now : ℤ} (hnow : 0 ≤ now)
    (hlast : Representable (now + 46 * (DAY * 1000))) :
    Representable ((now / 1000 + RENEW_MAX_DIAS * DAY) * 1000) := by
  have hupper := hlast.2
  have hlower : (0 : ℤ) ≤ yearStart 1970 := Int.natCast_nonneg _
  unfold dayAt DAY at hupper
  constructor
  · unfold dayAt RENEW_MAX_DIAS DAY
    omega
  · unfold dayAt RENEW_MAX_DIAS DAY
    omega

/-- The last millisecond of a day. -/
theorem last_moment {d : Date} (hd : d.year < 10 ^ 4) :
    Representable (midnight d + (DAY * 1000 - 1)) ∧
      dayAt (midnight d + (DAY * 1000 - 1)) = d.number := by
  have hday : dayAt (midnight d + (DAY * 1000 - 1)) = d.number := by
    unfold dayAt midnight DAY
    omega
  refine ⟨⟨?_, ?_⟩, hday⟩
  · rw [hday]
    exact Int.natCast_nonneg _
  · rw [hday]
    exact_mod_cast (year_lt_iff d _).mp hd

theorem agrees_iff (hrt : ReadsDates rt) {d : Date} (hd : d.year < 10 ^ 4) {task : Task}
    {reason : String} {now : ℤ} (hnow : 0 ≤ now)
    (hlast : Representable (now + 46 * (DAY * 1000))) (htask : Renewed task d reason (now / 1000)) :
    Agrees rt now d task ↔ (d.number : ℤ) < dayAt now := by
  constructor
  · intro h
    by_contra hlate
    -- `triage` gives up within the first second of the last day
    obtain ⟨hin, hday⟩ := last_moment hd
    have hafter : now ≤ midnight d + (DAY * 1000 - 1) := by
      unfold dayAt at hlate
      unfold midnight
      unfold DAY at hlate ⊢
      omega
    have hcounts := ((renewed_iff hrt hd htask _).mp (h.during _ hafter hin hday.le).1).1
    unfold DAY at hcounts
    omega
  · intro hpast
    have hceiling : midnight d + DAY * 1000 ≤ now := by
      unfold dayAt at hpast
      unfold midnight
      unfold DAY at hpast ⊢
      omega
    refine ⟨?_, fun time hle _ hday => ?_, fun time hle hin hday => ⟨?_, ?_⟩⟩
    · unfold RENEW_MAX_DAYS
      unfold DAY at hceiling ⊢
      omega
    · exfalso
      unfold dayAt at hpast hday
      unfold DAY at hpast hday
      omega
    · rw [← Bool.not_eq_true, renewed_iff hrt hd htask]
      rintro ⟨hmidnight, -⟩
      unfold DAY at hceiling
      omega
    · rw [renovacaoVigente_eq hrt hd htask hin.seconds (representable_ceiling hnow hlast),
        dayAt_seconds, decide_eq_false]
      exact fun h => absurd hday (not_lt.mpr h.1)

section Handler

variable {h : Handler} {host : CallHost} {args : TaskArgs} {s s' : Session} {reply : Reply}

end Handler

/-! ## A runtime with dates, and two renewals -/

def dateRuntime : Runtime where
  numberText := fun number => toString number.num
  lowerCase := fun text => String.ofList (text.toList.map Char.toLower)
  parseDate := fun text => (parse text).map midnight
  isoDay := fun time =>
    if 0 ≤ dayAt time ∧ dayAt time < yearStart (10 ^ 4) then
      some (ofNumber (dayAt time).toNat).text
    else none

theorem not_isSpace_digit (n : ℕ) : JsString.isSpace (Char.ofNat (48 + n % 10)) = false := by
  have hall : ∀ d < 10, JsString.isSpace (Char.ofNat (48 + d)) = false := by decide
  exact hall _ (Nat.mod_lt n (by decide))

theorem trimText_text (d : Date) : trimText d.text = d.text := by
  have hlist : JsString.trim d.text.toList = d.text.toList := by
    have hdrop : d.text.toList.dropWhile JsString.isSpace = d.text.toList := by
      simp only [Date.text, String.toList_ofList, digits, List.nil_append, List.cons_append]
      rw [List.dropWhile_cons_of_neg]
      simp [not_isSpace_digit]
    rw [JsString.trim, hdrop, List.rdropWhile_eq_self_iff]
    intro hne
    simp [Date.text, digits, not_isSpace_digit]
  rw [trimText, hlist, String.ofList_toList]

theorem readsDates_dateRuntime : ReadsDates dateRuntime where
  parse text _ time := by
    simp only [dateRuntime, Option.map_eq_some_iff, parse_eq_some]
    constructor
    · rintro ⟨d, ⟨hd, htext⟩, rfl⟩
      exact ⟨d, hd, htext, rfl⟩
    · rintro ⟨d, hd, htext, rfl⟩
      exact ⟨d, ⟨hd, htext⟩, rfl⟩
  day d hd time hday := by
    have hlt : (d.number : ℤ) < yearStart (10 ^ 4) := by exact_mod_cast (year_lt_iff d _).mp hd
    simp only [dateRuntime, hday]
    rw [if_pos ⟨Int.natCast_nonneg _, hlt⟩, Int.toNat_natCast, ofNumber_number]
  beyond time iso hiso hfar := by
    simp only [dateRuntime] at hiso
    rw [if_neg fun h => absurd h.2 (not_lt.mpr hfar)] at hiso
    cases hiso
  padded text _ h := by
    simp only [dateRuntime, Option.isSome_map] at h ⊢
    obtain ⟨d, hparse⟩ := Option.isSome_iff_exists.mp h
    rw [(parse_eq_some.mp hparse).2, trimText_text, ← (parse_eq_some.mp hparse).2]
    exact h

def dateHandler : Handler where
  rt := dateRuntime
  sim :=
    { allPairs := fun _ _ => []
      scoreIndexed := fun _ _ _ => 0
      findSimilar := fun _ _ => []
      obsoleteWord := fun _ => none
      localeLe := fun _ _ => true }
  projectRoot := "/repo"

/-- Ten o'clock on the tenth of January 2026. -/
def morning : CallHost where
  now := 1768039200000
  nowIso := "2026-01-10T10:00:00.000Z"
  uuid := "u"
  clock := fun _ => ⟨1768039200000, 1768039200⟩
  reconciler := ⟨fun _ => .ok "", 1768039200000, fun _ => ⟨1768039200000, 1768039200⟩, none⟩

def renewCall (until_ : String) : Dict Json :=
  [("action", .string "renew"), ("taskId", .string "t"), ("until", .string until_),
    ("reason", .string "espera resposta do cliente")]

def oneTask : Session where
  board := Board.empty.save 0 { id := "t", label := "proposta", status := .pending }
  saves := 0

theorem renewCall_ok {until_ : String}
    (h : ((request dateHandler morning (renewCall until_)).bind fun r =>
      if r.1 = .renew then (renew dateHandler morning r.2 oneTask).toOption else none).isSome =
        true) :
    ∃ args s' reply, request dateHandler morning (renewCall until_) = some (.renew, args) ∧
      renew dateHandler morning args oneTask = .ok (s', reply) := by
  obtain ⟨result, hresult⟩ := Option.isSome_iff_exists.mp h
  obtain ⟨⟨action, args⟩, hrequest, hrenew⟩ := Option.bind_eq_some_iff.mp hresult
  split_ifs at hrenew with haction
  obtain rfl : action = .renew := haction
  cases hok : renew dateHandler morning args oneTask with
  | error failure =>
    rw [hok] at hrenew
    cases hrenew
  | ok after => exact ⟨args, after.1, after.2, hrequest, hok⟩

theorem morning_representable : Representable (morning.now + 46 * (DAY * 1000)) := by
  constructor <;> decide +kernel

end RenewWindow
end Batiste
