import Batiste.HookConfig
import Batiste.JsString
import Batiste.Tally

/-! The token report: the usage of the sessions in a window, by day, by directory and in all. -/
namespace Batiste
namespace TokenUsage

/-! ## Buckets -/

structure AnthropicRates where
  input : ℚ
  cacheRead : ℚ
  cacheCreate : ℚ
  output : ℚ

def RATES : AnthropicRates := ⟨15, 3 / 2, 75 / 4, 75⟩

@[ext]
structure UsageBucket where
  input : ℚ
  cacheRead : ℚ
  cacheCreate : ℚ
  output : ℚ
  events : ℕ
  deriving DecidableEq, Repr

namespace UsageBucket

instance : Zero UsageBucket := ⟨⟨0, 0, 0, 0, 0⟩⟩

instance : Add UsageBucket := ⟨fun a b =>
  ⟨a.input + b.input, a.cacheRead + b.cacheRead, a.cacheCreate + b.cacheCreate,
    a.output + b.output, a.events + b.events⟩⟩

@[simp] theorem input_add (a b : UsageBucket) : (a + b).input = a.input + b.input := rfl
@[simp] theorem cacheRead_add (a b : UsageBucket) : (a + b).cacheRead = a.cacheRead + b.cacheRead := rfl
@[simp] theorem cacheCreate_add (a b : UsageBucket) :
    (a + b).cacheCreate = a.cacheCreate + b.cacheCreate := rfl
@[simp] theorem output_add (a b : UsageBucket) : (a + b).output = a.output + b.output := rfl
@[simp] theorem events_add (a b : UsageBucket) : (a + b).events = a.events + b.events := rfl
@[simp] theorem input_zero : (0 : UsageBucket).input = 0 := rfl
@[simp] theorem cacheRead_zero : (0 : UsageBucket).cacheRead = 0 := rfl
@[simp] theorem cacheCreate_zero : (0 : UsageBucket).cacheCreate = 0 := rfl
@[simp] theorem output_zero : (0 : UsageBucket).output = 0 := rfl
@[simp] theorem events_zero : (0 : UsageBucket).events = 0 := rfl

instance : AddCommMonoid UsageBucket where
  add_assoc := fun a b c => by ext <;> simp [add_assoc]
  zero_add := fun a => by ext <;> simp
  add_zero := fun a => by ext <;> simp
  add_comm := fun a b => by ext <;> simp [add_comm]
  nsmul := nsmulRec

end UsageBucket

def bucketCost (b : UsageBucket) (rates : AnthropicRates) : ℚ :=
  (b.input * rates.input + b.cacheRead * rates.cacheRead + b.cacheCreate * rates.cacheCreate +
    b.output * rates.output) / 1000000

/-- The surcharge if the cache had never been used. -/
def cacheSavings (b : UsageBucket) (rates : AnthropicRates) : ℚ :=
  b.cacheRead * (rates.input - rates.cacheRead) / 1000000

/-! ## Events -/

structure JsonlUsage where
  input_tokens : Option ℚ
  cache_creation_input_tokens : Option ℚ
  cache_read_input_tokens : Option ℚ
  output_tokens : Option ℚ

structure JsonlEvent where
  type : Option String
  timestamp : Option String
  /-- `message?.usage` -/
  usage : Option JsonlUsage

/-- What `JSON.parse` makes of a line: it throws, or there is `null`, or a value whose properties
can be asked for. -/
inductive Parsed
  | malformed
  | null
  | event (e : JsonlEvent)

/-- The instants that texts name, in ms, the days of instants, and the parser of a line. -/
structure Runtime where
  dateParse : String → Option ℤ
  day : ℤ → String
  parseLine : List Char → Parsed

structure ReportTotals where
  bucket : UsageBucket
  files : ℕ
  lines : ℕ

/-- The counters of a report. -/
structure Counters where
  perDay : Dict UsageBucket
  perCwd : Dict UsageBucket
  total : ReportTotals

structure TokenReport extends Counters where
  costTotalUsd : ℚ
  cacheSavingsUsd : ℚ
  noCacheCostUsd : ℚ

structure JsonlFile where
  cwdDir : String
  own : cwdDir ∉ HookConfig.inheritedNames
  /-- The lines that come before the stream ends or breaks. -/
  lines : List (List Char)

section Scan

variable (rt : Runtime)

def usageBucket (usage : JsonlUsage) : UsageBucket where
  input := usage.input_tokens.getD 0
  cacheRead := usage.cache_read_input_tokens.getD 0
  cacheCreate := usage.cache_creation_input_tokens.getD 0
  output := usage.output_tokens.getD 0
  events := 1

/-- The day of an event in the window, and what it adds there. -/
def contribution (windowStartMs : ℤ) (event : JsonlEvent) : Option (String × UsageBucket) :=
  if event.type ≠ some "assistant" then none
  else
    (event.timestamp.filter fun text => text ≠ "").bind fun timestamp =>
      (rt.dateParse timestamp).bind fun ts =>
        if ts < windowStartMs then none
        else event.usage.map fun usage => (rt.day ts, usageBucket usage)

def applyEvent (report : Counters) (cwdDir : String) (event : JsonlEvent) (windowStartMs : ℤ) :
    Counters :=
  match contribution rt windowStartMs event with
  | none => report
  | some (day, amount) =>
    { perDay := report.perDay.set day ((report.perDay.get? day).getD 0 + amount)
      perCwd := report.perCwd.set cwdDir ((report.perCwd.get? cwdDir).getD 0 + amount)
      total := { report.total with bucket := report.total.bucket + amount } }

/-- A `null` has no type to ask for, and the rest of the file is skipped. -/
def scanLines (cwdDir : String) (windowStartMs : ℤ) : Counters → List (List Char) → Counters
  | report, [] => report
  | report, line :: lines =>
    let counted := { report with total := { report.total with lines := report.total.lines + 1 } }
    if JsString.trim line = [] then scanLines cwdDir windowStartMs counted lines
    else
      match rt.parseLine (JsString.trim line) with
      | .malformed => scanLines cwdDir windowStartMs counted lines
      | .null => counted
      | .event e =>
        scanLines cwdDir windowStartMs (applyEvent rt counted cwdDir e windowStartMs) lines

def scanFile (windowStartMs : ℤ) (report : Counters) (file : JsonlFile) : Counters :=
  scanLines rt file.cwdDir windowStartMs
    { report with total := { report.total with files := report.total.files + 1 } } file.lines

def buildReport (windowStartMs : ℤ) (files : List JsonlFile) : TokenReport :=
  let report := files.foldl (scanFile rt windowStartMs) ⟨[], [], ⟨0, 0, 0⟩⟩
  { report with
    costTotalUsd := bucketCost report.total.bucket RATES
    cacheSavingsUsd := cacheSavings report.total.bucket RATES
    noCacheCostUsd := bucketCost report.total.bucket RATES + cacheSavings report.total.bucket RATES }

end Scan

/-! ## What is counted -/

section Counted

variable (rt : Runtime) (windowStartMs : ℤ)

/-- The events of a file, up to a `null`. -/
def eventsOf : List (List Char) → List JsonlEvent
  | [] => []
  | line :: lines =>
    if JsString.trim line = [] then eventsOf lines
    else
      match rt.parseLine (JsString.trim line) with
      | .malformed => eventsOf lines
      | .null => []
      | .event e => e :: eventsOf lines

def fileEntries (file : JsonlFile) : List (String × UsageBucket) :=
  (eventsOf rt file.lines).filterMap (contribution rt windowStartMs)

/-- What the files say of the days. -/
def dayEntries (files : List JsonlFile) : List (String × UsageBucket) :=
  files.flatMap (fileEntries rt windowStartMs)

/-- What the files say of the directories. -/
def cwdEntries (files : List JsonlFile) : List (String × UsageBucket) :=
  files.flatMap fun file => (fileEntries rt windowStartMs file).map fun e => (file.cwdDir, e.2)

/-- Counters with some entries more. -/
structure Counts (before after : Counters) (cwdDir : String)
    (entries : List (String × UsageBucket)) : Prop where
  perDay : after.perDay = Tally.addAll before.perDay entries
  perCwd : after.perCwd = Tally.addAll before.perCwd (entries.map fun e => (cwdDir, e.2))
  total : after.total.bucket = before.total.bucket + (entries.map Prod.snd).sum

theorem counts_scanLines (cwdDir : String) (lines : List (List Char)) (report : Counters) :
    Counts report (scanLines rt cwdDir windowStartMs report lines) cwdDir
      ((eventsOf rt lines).filterMap (contribution rt windowStartMs)) := by
  induction lines generalizing report with
  | nil => exact ⟨rfl, rfl, by simp [scanLines, eventsOf]⟩
  | cons line lines ih =>
    rw [scanLines, eventsOf]
    split_ifs with hblank
    · exact ⟨(ih _).perDay, (ih _).perCwd, (ih _).total⟩
    · cases hline : rt.parseLine (JsString.trim line) with
      | malformed => exact ⟨(ih _).perDay, (ih _).perCwd, (ih _).total⟩
      | null => exact ⟨rfl, rfl, by simp⟩
      | event e =>
        simp only [List.filterMap_cons]
        obtain ⟨hday, hcwd, htotal⟩ := ih (applyEvent rt { report with
          total := { report.total with lines := report.total.lines + 1 } } cwdDir e windowStartMs)
        cases he : contribution rt windowStartMs e with
        | none =>
          rw [applyEvent, he] at hday hcwd htotal
          rw [applyEvent, he]
          exact ⟨hday, hcwd, htotal⟩
        | some entry =>
          rw [applyEvent, he] at hday hcwd htotal
          rw [applyEvent, he]
          refine ⟨hday, hcwd, ?_⟩
          rw [htotal, List.map_cons, List.sum_cons, ← add_assoc]

theorem dayEntries_cons (file : JsonlFile) (files : List JsonlFile) :
    dayEntries rt windowStartMs (file :: files) =
      fileEntries rt windowStartMs file ++ dayEntries rt windowStartMs files := List.flatMap_cons

theorem cwdEntries_cons (file : JsonlFile) (files : List JsonlFile) :
    cwdEntries rt windowStartMs (file :: files) =
      (fileEntries rt windowStartMs file).map (fun e => (file.cwdDir, e.2)) ++
        cwdEntries rt windowStartMs files := List.flatMap_cons

theorem counts_foldl (files : List JsonlFile) (report : Counters) :
    let after := files.foldl (scanFile rt windowStartMs) report
    after.perDay = Tally.addAll report.perDay (dayEntries rt windowStartMs files) ∧
      after.perCwd = Tally.addAll report.perCwd (cwdEntries rt windowStartMs files) ∧
      after.total.bucket =
        report.total.bucket + ((dayEntries rt windowStartMs files).map Prod.snd).sum := by
  induction files generalizing report with
  | nil => exact ⟨rfl, rfl, by simp [dayEntries]⟩
  | cons file files ih =>
    obtain ⟨hday, hcwd, htotal⟩ := ih (scanFile rt windowStartMs report file)
    have hfile := counts_scanLines rt windowStartMs file.cwdDir file.lines
      { report with total := { report.total with files := report.total.files + 1 } }
    refine ⟨hday.trans ?_, hcwd.trans ?_, htotal.trans ?_⟩
    · rw [scanFile, hfile.perDay, dayEntries_cons, Tally.addAll_append]
      rfl
    · rw [scanFile, hfile.perCwd, cwdEntries_cons, Tally.addAll_append]
      rfl
    · rw [scanFile, hfile.total, dayEntries_cons, List.map_append, List.sum_append, add_assoc]
      rfl

end Counted

/-! ## Costs -/

theorem bucketCost_zero (rates : AnthropicRates) : bucketCost 0 rates = 0 := by
  simp [bucketCost]

theorem bucketCost_add (a b : UsageBucket) (rates : AnthropicRates) :
    bucketCost (a + b) rates = bucketCost a rates + bucketCost b rates := by
  simp only [bucketCost, UsageBucket.input_add, UsageBucket.cacheRead_add,
    UsageBucket.cacheCreate_add, UsageBucket.output_add]
  ring

theorem sum_bucketCost (d : Dict UsageBucket) (rates : AnthropicRates) :
    (d.map fun e => bucketCost e.2 rates).sum = bucketCost (Tally.total d) rates := by
  induction d with
  | nil => exact (bucketCost_zero rates).symm
  | cons e d ih =>
    rw [List.map_cons, List.sum_cons, ih, ← bucketCost_add]
    rfl

/-- The usage with every cached read sent anew. -/
def withoutCache (b : UsageBucket) : UsageBucket :=
  { b with input := b.input + b.cacheRead, cacheRead := 0 }

theorem cost_withoutCache (b : UsageBucket) (rates : AnthropicRates) :
    bucketCost (withoutCache b) rates = bucketCost b rates + cacheSavings b rates := by
  simp only [bucketCost, cacheSavings, withoutCache]
  ring

/-! ## The report -/

theorem cwdEntries_amounts (rt : Runtime) (windowStartMs : ℤ) (files : List JsonlFile) :
    (cwdEntries rt windowStartMs files).map Prod.snd =
      (dayEntries rt windowStartMs files).map Prod.snd := by
  simp only [cwdEntries, dayEntries, List.map_flatMap, List.map_map]
  rfl

/-- A table that shares out some entries: every key has its share, and all of them together come
to the amount and to its cost. -/
structure SharesOut (table : Dict UsageBucket) (entries : List (String × UsageBucket))
    (amount : UsageBucket) : Prop where
  keys : (table.map Prod.fst).Nodup
  share : ∀ key, table.get? key =
    if key ∈ entries.map Prod.fst then some (Tally.share entries key) else none
  total : (table.map Prod.snd).sum = amount
  cost : (table.map fun e => bucketCost e.2 RATES).sum = bucketCost amount RATES

theorem sharesOut_addAll {entries : List (String × UsageBucket)} {amount : UsageBucket}
    (h : amount = (entries.map Prod.snd).sum) : SharesOut (Tally.addAll [] entries) entries amount := by
  have hnodup : (([] : Dict UsageBucket).map Prod.fst).Nodup := List.nodup_nil
  have htotal : Tally.total (Tally.addAll [] entries) = amount := by
    rw [Tally.total_addAll hnodup, h]
    exact zero_add _
  refine ⟨Tally.nodup_addAll hnodup entries, fun key => ?_, htotal, ?_⟩
  · rw [Tally.get?_addAll, Dict.get?_nil, Option.getD_none, zero_add]
  · rw [sum_bucketCost, htotal]

end TokenUsage
end Batiste
