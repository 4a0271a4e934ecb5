import Batiste.FactIngest
import Batiste.TurnTrace

/-! The scrubbing of secrets with its ten expressions, each a global replacement in the text that
those before it left. -/
namespace Batiste
namespace Scrub

open SpanRegex GlobalReplace FactIngest

def tokenChar (c : Char) : Bool := c.isAlphanum || c == '_' || c == '-'

def upperOrDigit (c : Char) : Bool := c.isUpper || c.isDigit

def text (s : String) : Re := lit s.toList

/-- `p{n,}` -/
def atLeast (n : ℕ) (p : Char → Bool) : Re := .rep true p n none

/-- `p{n}` -/
def exactly (n : ℕ) (p : Char → Bool) : Re := .rep true p n (some n)

def anthropicKey : Rule := ⟨false, .seq (text "sk-ant-") (atLeast 20 tokenChar), by decide⟩

def openaiKey : Rule :=
  ⟨false, .seq (text "sk-") (.seq (.opt (text "proj-")) (atLeast 20 tokenChar)), by decide⟩

def googleApiKey : Rule := ⟨false, .seq (text "AIza") (exactly 35 tokenChar), by decide⟩

def githubToken : Rule :=
  ⟨false, .seq (text "gh") (.seq (.cls fun c => "pousr".toList.contains c)
    (.seq (text "_") (atLeast 30 Char.isAlphanum))), by decide⟩

def awsAccessKey : Rule := ⟨true, .seq (text "AKIA") (exactly 16 upperOrDigit), by decide⟩

def slackToken : Rule :=
  ⟨false, .seq (text "xox") (.seq (.cls fun c => "baprs".toList.contains c)
    (.seq (text "-") (atLeast 10 fun c => c.isAlphanum || c == '-'))), by decide⟩

def bearerHeader : Rule :=
  ⟨false, .seq (text "Bearer") (.seq (atLeast 1 JsString.isSpace)
    (atLeast 16 fun c => tokenChar c || c == '.')), by decide⟩

def jwt : Rule :=
  ⟨true, .seq (text "eyJ") (.seq (atLeast 8 tokenChar) (.seq (text ".") (.seq (atLeast 8 tokenChar)
    (.seq (text ".") (atLeast 8 tokenChar))))), by decide⟩

/-- `[^\s'"]` -/
def pathChar (c : Char) : Bool := !(JsString.isSpace c || c == '\'' || c == '"')

def privatePath : Rule := ⟨false, .seq (text "/private/") (atLeast 1 pathChar), by decide⟩

def pemEnd : Re := .seq (atLeast 1 fun c => c != '-') (text "PRIVATE KEY-----")

/-- Between its two lines a block is as short as it can be. -/
def pemBlock : Rule :=
  ⟨false, .seq (.seq (text "-----BEGIN") pemEnd)
    (.seq (.rep false (fun _ => true) 0 none) (.seq (text "-----END") pemEnd)), by decide⟩

/-- The expressions of the patterns, in the order of the patterns. -/
def rules : List Rule :=
  [anthropicKey, openaiKey, googleApiKey, githubToken, awsAccessKey, slackToken, bearerHeader, jwt,
    privatePath, pemBlock]

def turns : List Turn := (PATTERNS.zip rules).map fun p => ⟨p.2, p.1.replacement.toList⟩

/-- The rule that a source of an expression stands for. -/
def ruleOf (re : String) : Option Rule :=
  ((PATTERNS.zip rules).find? fun p => p.1.re == re).map Prod.snd

/-- The runtime with the expressions of the patterns; of the others it says what it said. -/
def engine (runtime : Runtime) : Runtime :=
  { runtime with
    matchCount := fun re s => (ruleOf re).elim (runtime.matchCount re s) fun r =>
      (pieces id r s.toList).countP Piece.isHit
    replaceAll := fun re rep s => (ruleOf re).elim (runtime.replaceAll re rep s) fun r =>
      String.ofList (turn ⟨r, rep.toList⟩ s.toList) }

theorem ruleOf_pattern : ∀ p ∈ PATTERNS.zip rules, ruleOf p.1.re = some p.2 := by
  intro p hp
  fin_cases hp <;> rfl

theorem turn_of_countP_zero {t : Turn} {xs : List Char}
    (h : (pieces id t.rule xs).countP Piece.isHit = 0) : turn t xs = xs := by
  have hno : ∀ old, .hit old ∉ pieces id t.rule xs := fun old hold =>
    List.countP_eq_zero.mp h _ hold rfl
  rw [turn, target_of_no_hit hno, source_pieces]

/-- The loop of the patterns makes the turns of their rules. -/
theorem scrub_text (runtime : Runtime) (input : String) :
    (scrub (engine runtime) input).text.toList = run turns input.toList := by
  have hloop : ∀ (zs : List (Pattern × Rule)), (∀ z ∈ zs, ruleOf z.1.re = some z.2) →
      ∀ r : ScrubResult, ((zs.map Prod.fst).foldl (fun r p =>
        if 0 < (engine runtime).matchCount p.re r.text then
          ScrubResult.mk ((engine runtime).replaceAll p.re p.replacement r.text)
            (r.hits ++ [(p.name, (engine runtime).matchCount p.re r.text)])
        else r) r).text.toList =
        run (zs.map fun p => ⟨p.2, p.1.replacement.toList⟩) r.text.toList := by
    intro zs
    induction zs with
    | nil => exact fun _ _ => rfl
    | cons z zs ih =>
      intro hrules r
      rw [List.map_cons, List.foldl_cons, ih fun y hy => hrules y (List.mem_cons_of_mem z hy)]
      rw [List.map_cons, run, run, List.foldl_cons]
      congr 1
      have hz := hrules z List.mem_cons_self
      simp only [engine, hz, Option.elim_some]
      split
      · simp
      · rename_i hzero
        exact (turn_of_countP_zero (Nat.eq_zero_of_not_pos hzero)).symm
  exact hloop (PATTERNS.zip rules) ruleOf_pattern ⟨input, []⟩

end Scrub
end Batiste
