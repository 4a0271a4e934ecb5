import Mathlib.Data.List.DropRight
import Mathlib.Data.String.Basic
import Mathlib.Tactic

/-! Glob patterns with `*` and `**`: what they generate, and the regular expressions that say
so.  What a `**` may run over is a parameter. -/
namespace Batiste
namespace Glob

inductive Token
  | lit (c : Char)
  | star
  | globstar
deriving DecidableEq

/-- The pattern from left to right, `**` before `*`. -/
def tokens : List Char → List Token
  | [] => []
  | c :: cs =>
    if c = '*' then
      match cs with
      | d :: ds => if d = '*' then .globstar :: tokens ds else .star :: tokens (d :: ds)
      | [] => [.star]
    else .lit c :: tokens cs

theorem tokens_globstar (cs : List Char) : tokens ('*' :: '*' :: cs) = .globstar :: tokens cs := by
  simp [tokens]

theorem tokens_star {cs : List Char} (h : cs.head? ≠ some '*') :
    tokens ('*' :: cs) = .star :: tokens cs := by
  cases cs with
  | nil => simp [tokens]
  | cons d ds =>
    have hd : d ≠ '*' := fun hd => h (by simp [hd])
    simp [tokens, hd]

theorem tokens_lit {c : Char} (h : c ≠ '*') (cs : List Char) :
    tokens (c :: cs) = .lit c :: tokens cs := by
  rw [tokens.eq_def]
  simp [h]

/-- Reading a pattern: a run of two stars, a star alone, another character. -/
theorem pattern_cases {motive : List Char → Prop} (hnil : motive [])
    (hglobstar : ∀ cs, motive cs → motive ('*' :: '*' :: cs))
    (hstar : ∀ cs, cs.head? ≠ some '*' → motive cs → motive ('*' :: cs))
    (hlit : ∀ c cs, c ≠ '*' → motive cs → motive (c :: cs)) (cs : List Char) : motive cs := by
  induction cs using List.twoStepInduction with
  | nil => exact hnil
  | singleton c =>
    by_cases hc : c = '*'
    · exact hc ▸ hstar [] (by simp) hnil
    · exact hlit c [] hc hnil
  | cons_cons c d cs ih ih' =>
    by_cases hc : c = '*'
    · subst hc
      by_cases hd : d = '*'
      · exact hd ▸ hglobstar cs ih
      · exact hstar (d :: cs) (by simp [hd]) (ih' d)
    · exact hlit c (d :: cs) hc (ih' d)

/-- The literal tokens of a pattern are characters of it. -/
theorem mem_of_lit {cs : List Char} {c : Char} (h : .lit c ∈ tokens cs) : c ∈ cs ∧ c ≠ '*' := by
  induction cs using pattern_cases with
  | hnil => simp [tokens] at h
  | hglobstar cs ih =>
    rw [tokens_globstar] at h
    have hmem := ih (by simpa using h)
    simp [hmem]
  | hstar cs hhead ih =>
    rw [tokens_star hhead] at h
    exact (ih (by simpa using h)).imp_left (List.mem_cons_of_mem _)
  | hlit d cs hd ih =>
    rw [tokens_lit hd] at h
    rcases List.mem_cons.mp h with heq | hmem
    · obtain rfl := Token.lit.inj heq
      exact ⟨List.mem_cons_self, hd⟩
    · exact (ih hmem).imp_left (List.mem_cons_of_mem d)

/-- The texts that a pattern generates; a `*` does not run over a slash. -/
def Matches (dot : Char → Bool) : List Token → List Char → Prop
  | [], text => text = []
  | .lit c :: ts, text => ∃ rest, text = c :: rest ∧ Matches dot ts rest
  | .star :: ts, text => ∃ run rest, text = run ++ rest ∧ (∀ c ∈ run, c ≠ '/') ∧ Matches dot ts rest
  | .globstar :: ts, text =>
    ∃ run rest, text = run ++ rest ∧ (∀ c ∈ run, dot c = true) ∧ Matches dot ts rest

/-- Only the characters of the text matter. -/
theorem Matches.mono {p q : Char → Bool} {ts : List Token} {text : List Char} (h : Matches p ts text)
    (hpq : ∀ c ∈ text, p c = true → q c = true) : Matches q ts text := by
  induction ts generalizing text with
  | nil => exact h
  | cons t ts ih =>
    cases t with
    | lit c =>
      obtain ⟨rest, rfl, hrest⟩ := h
      exact ⟨rest, rfl, ih hrest fun d hd => hpq d (List.mem_cons_of_mem c hd)⟩
    | star =>
      obtain ⟨run, rest, rfl, hrun, hrest⟩ := h
      exact ⟨run, rest, rfl, hrun, ih hrest fun d hd => hpq d (List.mem_append_right run hd)⟩
    | globstar =>
      obtain ⟨run, rest, rfl, hrun, hrest⟩ := h
      exact ⟨run, rest, rfl, fun d hd => hpq d (List.mem_append_left rest hd) (hrun d hd),
        ih hrest fun d hd => hpq d (List.mem_append_right run hd)⟩

/-- Some end of the text after a run passes the test. -/
def afterRun (inRun : Char → Bool) (test : List Char → Bool) : List Char → Bool
  | [] => test []
  | c :: cs => test (c :: cs) || (inRun c && afterRun inRun test cs)

theorem afterRun_iff (inRun : Char → Bool) (test : List Char → Bool) (text : List Char) :
    afterRun inRun test text = true ↔
      ∃ run rest, text = run ++ rest ∧ (∀ c ∈ run, inRun c = true) ∧ test rest = true := by
  induction text with
  | nil =>
    constructor
    · intro h
      exact ⟨[], [], rfl, by simp, h⟩
    · rintro ⟨run, rest, htext, -, hrest⟩
      obtain ⟨-, rfl⟩ := List.nil_eq_append_iff.mp htext
      exact hrest
  | cons c cs ih =>
    simp only [afterRun, Bool.or_eq_true, Bool.and_eq_true, ih]
    constructor
    · rintro (h | ⟨hc, run, rest, rfl, hrun, hrest⟩)
      · exact ⟨[], c :: cs, rfl, by simp, h⟩
      · exact ⟨c :: run, rest, rfl, List.forall_mem_cons.mpr ⟨hc, hrun⟩, hrest⟩
    · rintro ⟨run, rest, htext, hrun, hrest⟩
      cases run with
      | nil =>
        obtain rfl : c :: cs = rest := htext
        exact Or.inl hrest
      | cons d run =>
        obtain ⟨rfl, rfl⟩ := List.cons.inj htext
        obtain ⟨hc, hrun⟩ := List.forall_mem_cons.mp hrun
        exact Or.inr ⟨hc, run, rest, rfl, hrun, hrest⟩

def test (dot : Char → Bool) : List Token → List Char → Bool
  | [], text => text.isEmpty
  | .lit c :: ts, text =>
    match text with
    | d :: rest => d == c && test dot ts rest
    | [] => false
  | .star :: ts, text => afterRun (fun c => c != '/') (test dot ts) text
  | .globstar :: ts, text => afterRun dot (test dot ts) text

theorem test_iff (dot : Char → Bool) (ts : List Token) (text : List Char) :
    test dot ts text = true ↔ Matches dot ts text := by
  induction ts generalizing text with
  | nil => simp [test, Matches]
  | cons t ts ih =>
    cases t with
    | lit c =>
      cases text with
      | nil => simp [test, Matches]
      | cons d rest =>
        simp only [test, Matches, Bool.and_eq_true, beq_iff_eq, ih, List.cons.injEq]
        constructor
        · rintro ⟨rfl, h⟩
          exact ⟨rest, ⟨rfl, rfl⟩, h⟩
        · rintro ⟨rest', ⟨rfl, rfl⟩, h⟩
          exact ⟨rfl, h⟩
    | star => simp only [test, Matches, afterRun_iff, ih, bne_iff_ne]
    | globstar => simp only [test, Matches, afterRun_iff, ih]

/-- Up to its first star a pattern stands at the beginning of what it matches. -/
theorem literal_of_matches {dot : Char → Bool} {pattern text : List Char}
    (h : Matches dot (tokens pattern) text) : pattern.takeWhile (fun c => c != '*') <+: text := by
  induction pattern generalizing text with
  | nil => exact List.nil_prefix
  | cons c cs ih =>
    by_cases hc : c = '*'
    · simp [hc]
    · rw [tokens_lit hc] at h
      obtain ⟨rest, rfl, hrest⟩ := h
      simpa [hc] using ih hrest

/-- The pattern up to the last slash before its first star. -/
def literalDirectory (pattern : List Char) : List Char :=
  (pattern.takeWhile fun c => c != '*').rdropWhile fun c => c != '/'

theorem literalDirectory_of_matches {dot : Char → Bool} {pattern text : List Char}
    (h : Matches dot (tokens pattern) text) : ∃ rest, text = literalDirectory pattern ++ rest := by
  obtain ⟨rest, rfl⟩ := (List.rdropWhile_prefix (fun c => c != '/')
    (pattern.takeWhile fun c => c != '*')).trans (literal_of_matches h)
  exact ⟨rest, rfl⟩

theorem literalDirectory_ends (pattern : List Char) :
    literalDirectory pattern = [] ∨ ∃ names, literalDirectory pattern = names ++ ['/'] := by
  cases List.eq_nil_or_concat (literalDirectory pattern) with
  | inl hnil => exact Or.inl hnil
  | inr hconcat =>
    obtain ⟨names, c, hconcat⟩ := hconcat
    have hnames : literalDirectory pattern = names ++ [c] := by simpa using hconcat
    have hne : literalDirectory pattern ≠ [] := by simp [hnames]
    have hlast : (literalDirectory pattern).getLast hne = c := by simp [hnames]
    have hslash := List.rdropWhile_last_not (fun c => c != '/')
      (pattern.takeWhile fun c => c != '*') hne
    obtain rfl : c = '/' := by
      rw [← hlast]
      simpa [literalDirectory] using hslash
    exact Or.inr ⟨names, hnames⟩

/-! The regular expressions. -/

/-- The characters other than a star and a dot that mean something in an expression. -/
def special : List Char := "^$+?()[]\x7b\x7d|\\".toList

def Plain (pattern : List Char) : Prop := ∀ c ∈ pattern, c ∉ special

instance (pattern : List Char) : Decidable (Plain pattern) :=
  inferInstanceAs (Decidable (∀ c ∈ pattern, c ∉ special))

/-- The tokens of a plain pattern. -/
def PlainTokens (ts : List Token) : Prop := ∀ c, .lit c ∈ ts → c ∉ special ∧ c ≠ '*'

theorem plainTokens_tokens (pattern : List Char) (h : Plain pattern) :
    PlainTokens (tokens pattern) := fun c hc =>
  (mem_of_lit hc).imp_left (h c)

def starSource : List Char := "[^/]*".toList

def globstarSource : List Char := ".*".toList

def litSource (c : Char) : List Char := if c = '.' then ['\\', '.'] else [c]

def Token.source : Token → List Char
  | .lit c => litSource c
  | .star => starSource
  | .globstar => globstarSource

/-- The expression that matches what the tokens generate. -/
def source (ts : List Token) : String := "^" ++ String.ofList (ts.flatMap Token.source) ++ "$"

/-- Read the middle of such an expression. -/
def readBody : List Char → Option (List Token)
  | [] => some []
  | '\\' :: c :: cs => (readBody cs).map (.lit c :: ·)
  | '[' :: '^' :: '/' :: ']' :: '*' :: cs => (readBody cs).map (.star :: ·)
  | '.' :: '*' :: cs => (readBody cs).map (.globstar :: ·)
  | c :: cs => if c ∈ special ∨ c = '.' ∨ c = '*' then none else (readBody cs).map (.lit c :: ·)

theorem readBody_star (cs : List Char) :
    readBody (starSource ++ cs) = (readBody cs).map (.star :: ·) := by
  simp [starSource, readBody]

theorem readBody_globstar (cs : List Char) :
    readBody (globstarSource ++ cs) = (readBody cs).map (.globstar :: ·) := by
  simp [globstarSource, readBody]

/-- A character that means nothing in an expression. -/
theorem readBody_cons {c : Char} (hspecial : c ∉ special) (hdot : c ≠ '.') (hstar : c ≠ '*')
    (cs : List Char) : readBody (c :: cs) = (readBody cs).map (.lit c :: ·) := by
  have hslash : c ≠ '\\' := by
    rintro rfl
    exact hspecial (by decide)
  have hbracket : c ≠ '[' := by
    rintro rfl
    exact hspecial (by decide)
  have hread : readBody (c :: cs) =
      if c ∈ special ∨ c = '.' ∨ c = '*' then none else (readBody cs).map (.lit c :: ·) := by
    rw [readBody]
    all_goals grind
  rw [hread, if_neg (by tauto)]

/-- Tokens that are read one by one are read back from what they write. -/
theorem readBody_flatMap {write : Token → List Char} {ts : List Token}
    (h : ∀ t ∈ ts, ∀ cs, readBody (write t ++ cs) = (readBody cs).map (t :: ·)) :
    readBody (ts.flatMap write) = some ts := by
  induction ts with
  | nil => rfl
  | cons t ts ih =>
    have hts := ih fun s hs => h s (List.mem_cons_of_mem t hs)
    rw [List.flatMap_cons, h t List.mem_cons_self, hts, Option.map_some]

theorem readBody_source {ts : List Token} (h : PlainTokens ts) :
    readBody (ts.flatMap Token.source) = some ts := by
  refine readBody_flatMap fun t ht cs => ?_
  cases t with
  | star => exact readBody_star cs
  | globstar => exact readBody_globstar cs
  | lit c =>
    obtain ⟨hspecial, hstar⟩ := h c ht
    by_cases hdot : c = '.'
    · subst hdot
      rfl
    · have hsource : Token.source (.lit c) = [c] := by simp [Token.source, litSource, hdot]
      rw [hsource]
      exact readBody_cons hspecial hdot hstar cs

/-- Read an expression. -/
def readSource (expression : List Char) : Option (List Token) :=
  match expression with
  | '^' :: rest => if rest.getLast? = some '$' then readBody rest.dropLast else none
  | _ => none

theorem readSource_source {ts : List Token} (h : PlainTokens ts) :
    readSource (source ts).toList = some ts := by
  have hsource : (source ts).toList = '^' :: (ts.flatMap Token.source ++ ['$']) := by
    simp [source]
  rw [hsource]
  simp [readSource, readBody_source h]

end Glob
end Batiste
