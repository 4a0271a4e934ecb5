import Batiste.JsString
import Batiste.KeyedOffer
import Batiste.MemoryLists

/-! What the ingest commands share: ids by hash, the scrubbing of secrets, the checkpoints and
the write of a fact whose body is new. -/
namespace Batiste
namespace FactIngest

open FirmMemory

/-- What the commands take from the runtime: `sha256` in hex, the global match and replace of
regular expressions, the canonical decomposition of a text and its lower case. -/
structure Runtime where
  sha256 : String → String
  matchCount : String → String → ℕ
  replaceAll : String → String → String → String
  nfd : String → String
  toLowerCase : String → String

variable (runtime : Runtime)

/-- First 16 hex chars of sha256. -/
def shortHash (s : String) : String := String.ofList ((runtime.sha256 s).toList.take 16)

structure Pattern where
  name : String
  re : String
  replacement : String
deriving Repr, DecidableEq

def PATTERNS : List Pattern := [
  ⟨"anthropic-key", "sk-ant-[A-Za-z0-9_-]\x7b20,\x7d", "[REDACTED:anthropic-key]"⟩,
  ⟨"openai-key", "sk-(?:proj-)?[A-Za-z0-9_-]\x7b20,\x7d", "[REDACTED:openai-key]"⟩,
  ⟨"google-api-key", "AIza[0-9A-Za-z_-]\x7b35\x7d", "[REDACTED:google-api-key]"⟩,
  ⟨"github-token", "gh[pousr]_[A-Za-z0-9]\x7b30,\x7d", "[REDACTED:github-token]"⟩,
  ⟨"aws-access-key", "\\bAKIA[0-9A-Z]\x7b16\x7d\\b", "[REDACTED:aws-key]"⟩,
  ⟨"slack-token", "xox[baprs]-[A-Za-z0-9-]\x7b10,\x7d", "[REDACTED:slack-token]"⟩,
  ⟨"bearer-header", "Bearer\\s+[A-Za-z0-9._-]\x7b16,\x7d", "Bearer [REDACTED]"⟩,
  ⟨"jwt", "\\beyJ[A-Za-z0-9_-]\x7b8,\x7d\\.[A-Za-z0-9_-]\x7b8,\x7d\\.[A-Za-z0-9_-]\x7b8,\x7d\\b",
    "[REDACTED:jwt]"⟩,
  ⟨"private-path", "\\/private\\/[^\\s'\"]+", "[REDACTED:private-path]"⟩,
  ⟨"pem-block", "-----BEGIN[^-]+PRIVATE KEY-----[\\s\\S]*?-----END[^-]+PRIVATE KEY-----",
    "[REDACTED:private-key-block]"⟩]

structure ScrubResult where
  text : String
  hits : List (String × ℕ)
deriving Repr, DecidableEq

def scrub (input : String) : ScrubResult :=
  PATTERNS.foldl (fun r p =>
    if 0 < runtime.matchCount p.re r.text then
      ⟨runtime.replaceAll p.re p.replacement r.text,
        r.hits ++ [(p.name, runtime.matchCount p.re r.text)]⟩
    else r) ⟨input, []⟩

def trim (s : String) : String := String.ofList (JsString.trim s.toList)

/-- Slugify a board name into a workstream tag. -/
def kebabCase (s : String) : String :=
  let plain := runtime.replaceAll "[̀-ͯ]" "" (runtime.nfd s)
  runtime.replaceAll "^-+|-+$" "" (runtime.replaceAll "[^a-z0-9]+" "-" (runtime.toLowerCase plain))

/-! ## Checkpoints -/

/-- `string | number`. -/
inductive Mark
  | text (s : String)
  | number (n : ℕ)
deriving Repr, DecidableEq

abbrev CheckpointMap := Dict (Dict Mark)

def getCheckpoint (checkpoints : CheckpointMap) (source key : String) : Option Mark :=
  (checkpoints.get? source).bind fun marks => marks.get? key

def setCheckpoint (checkpoints : CheckpointMap) (source key : String) (value : Mark) :
    CheckpointMap :=
  checkpoints.set source (((checkpoints.get? source).getD []).set key value)

theorem getCheckpoint_set (checkpoints : CheckpointMap) (source key key' : String) (value : Mark) :
    getCheckpoint (setCheckpoint checkpoints source key value) source key' =
      if key' = key then some value else getCheckpoint checkpoints source key' := by
  unfold getCheckpoint setCheckpoint
  rw [Dict.get?_set, if_pos rfl, Option.bind_some, Dict.get?_set]
  by_cases h : key' = key
  · rw [if_pos h, if_pos h]
  · rw [if_neg h, if_neg h]
    cases checkpoints.get? source <;> rfl

/-! ## The facts of a namespace -/

section Facts

variable {Vector : Type} {engine : Engine Vector} {namespace_ : String}

/-- A fact without its two times. -/
def undated (fact : FactEntry) : FactEntry := { fact with created_at := "", updated_at := "" }

@[simp] theorem undated_id (fact : FactEntry) : (undated fact).id = fact.id := rfl

@[simp] theorem undated_body (fact : FactEntry) : (undated fact).body = fact.body := rfl

/-- What is stored under an id, up to its times. -/
def stored (namespace_ : String) (table : Table FactKind FactRest Vector) (id : String) :
    Option FactEntry := (FirmMemory.get namespace_ table id).map undated

variable (engine namespace_)

/-- `existing && existing.body === fact.body` -/
def isStored (table : Table FactKind FactRest Vector) (fact : FactEntry) : Bool :=
  (FirmMemory.get namespace_ table fact.id).any fun existing => decide (existing.body = fact.body)

/-- Put a fact unless one with its id and body is there. -/
def offer (table : Table FactKind FactRest Vector) (fact : FactEntry) (now : String) :
    Table FactKind FactRest Vector :=
  if isStored namespace_ table fact then table
  else SqliteFactStore.put engine namespace_ table fact now

variable {engine namespace_}

theorem find_map_id {Rest Group : Type} (es : List (Entry Group Rest))
    (f : Entry Group Rest → Entry Group Rest) (hf : ∀ e, (f e).id = e.id) (id : String) :
    (es.map f).find? (fun e => e.id = id) = (es.find? fun e => e.id = id).map f := by
  rw [List.find?_map]
  have hcomp : ((fun e : Entry Group Rest => decide (e.id = id)) ∘ f) =
      fun e => decide (e.id = id) := by
    funext e
    simp [hf]
  rw [hcomp]

/-- What a put makes of the row of its id. -/
def written (fact : FactEntry) (now : String) (old : Option FactEntry) : FactEntry :=
  (old.map (rewritten fact now)).getD (stamped fact now)

theorem undated_written (fact : FactEntry) (now : String) (old : Option FactEntry) :
    undated (written fact now old) = undated fact := by
  cases old <;> rfl

/-- A row keeps the time of its first fact. -/
theorem created_written (fact : FactEntry) (now : String) (old : Option FactEntry) :
    (written fact now old).created_at =
      (old.map Entry.created_at).getD (if fact.created_at = "" then now else fact.created_at) := by
  cases old <;> rfl

theorem get_put (table : Table FactKind FactRest Vector) (fact : FactEntry) (now id : String) :
    FirmMemory.get namespace_ (SqliteFactStore.put engine namespace_ table fact now) id =
      if id = fact.id then
        some (written fact now (FirmMemory.get namespace_ table fact.id))
      else FirmMemory.get namespace_ table id := by
  unfold FirmMemory.get SqliteFactStore.put
  rw [entriesOf_put]
  split
  case isTrue h =>
    rw [find_map_id _ _ (fun e => by split <;> simp_all [rewritten])]
    by_cases hid : id = fact.id
    · subst hid
      rw [if_pos rfl]
      obtain ⟨e, he, heq⟩ := List.any_eq_true.mp h
      have hsome : ((entriesOf namespace_ table).find? fun e => e.id = fact.id).isSome :=
        List.find?_isSome.mpr ⟨e, he, heq⟩
      obtain ⟨old, hold⟩ := Option.isSome_iff_exists.mp hsome
      have hkey : old.id = fact.id := by simpa using List.find?_some hold
      simp [hold, hkey, written]
    · rw [if_neg hid]
      cases hold : (entriesOf namespace_ table).find? fun e => e.id = id with
      | none => rfl
      | some old =>
        have hkey : old.id = id := by simpa using List.find?_some hold
        simp [hkey, hid]
  case isFalse h =>
    rw [List.find?_append]
    by_cases hid : id = fact.id
    · subst hid
      rw [if_pos rfl]
      have hnone : (entriesOf namespace_ table).find? (fun e => e.id = fact.id) = none := by
        rw [List.find?_eq_none]
        exact fun e he heq => h (List.any_eq_true.mpr ⟨e, he, heq⟩)
      simp [hnone, stamped, written]
    · rw [if_neg hid]
      simp [stamped, Ne.symm hid]

theorem stored_put (table : Table FactKind FactRest Vector) (fact : FactEntry) (now : String) :
    stored namespace_ (SqliteFactStore.put engine namespace_ table fact now) =
      Function.update (stored namespace_ table) fact.id (some (undated fact)) := by
  funext id
  rw [stored, get_put, Function.update_apply]
  split
  · rw [Option.map_some, undated_written]
  · rfl

/-- The facts of the table, up to their times, are a store that entries are offered to. -/
theorem stored_offer (table : Table FactKind FactRest Vector) (fact : FactEntry) (now : String) :
    stored namespace_ (offer engine namespace_ table fact now) =
      KeyedOffer.offer Entry.body (stored namespace_ table) (fact.id, undated fact) := by
  have hany : isStored namespace_ table fact = ((stored namespace_ table) fact.id).any fun old =>
      decide (old.body = (undated fact).body) := by
    unfold isStored stored
    cases FirmMemory.get namespace_ table fact.id <;> rfl
  unfold offer KeyedOffer.offer
  rw [hany]
  split
  · rfl
  · exact stored_put table fact now

/-- A loop that offers one fact a round. -/
theorem stored_foldl {State : Type} {table : State → Table FactKind FactRest Vector}
    {step : State → FactEntry → State}
    (hstep : ∀ s fact, ∃ now, table (step s fact) = offer engine namespace_ (table s) fact now)
    (facts : List FactEntry) (s : State) :
    stored namespace_ (table (facts.foldl step s)) =
      KeyedOffer.offerAll Entry.body (stored namespace_ (table s))
        (facts.map fun fact => (fact.id, undated fact)) := by
  induction facts generalizing s with
  | nil => rfl
  | cons fact facts ih =>
    obtain ⟨now, hnow⟩ := hstep s fact
    rw [List.foldl_cons, ih, List.map_cons, KeyedOffer.offerAll_cons, hnow, stored_offer]

end Facts

end FactIngest
end Batiste
