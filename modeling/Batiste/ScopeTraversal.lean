import Batiste.Glob
import Batiste.JsString
import Batiste.LexicalPath
import Batiste.TokenScope

/-! The file patterns of a token scope as globs, and where the paths they allow lead. -/
namespace Batiste
namespace Auth

open Glob LexicalPath

/-! The replacements that turn a plain pattern into the expression of its tokens. -/

section Replace

variable {pattern by_ : List Char}

theorem replaceAll_skip (xs rest : List Char) :
    replaceAll pattern by_ xs.length (xs ++ rest) = replaceAll pattern by_ 0 rest := by
  induction xs with
  | nil => rfl
  | cons x xs ih => simpa [replaceAll] using ih

theorem replaceAll_here (p : Char) (ps rest : List Char) :
    replaceAll (p :: ps) by_ 0 (p :: ps ++ rest) = by_ ++ replaceAll (p :: ps) by_ 0 rest := by
  rw [List.cons_append, replaceAll, if_pos (by simp)]
  simpa using replaceAll_skip ps rest

theorem replaceAll_no {p : Char} {ps : List Char} {xs : List Char} (h : ∀ x ∈ xs, x ≠ p)
    (rest : List Char) :
    replaceAll (p :: ps) by_ 0 (xs ++ rest) = xs ++ replaceAll (p :: ps) by_ 0 rest := by
  induction xs with
  | nil => rfl
  | cons x xs ih =>
    have hx : p ≠ x := (h x List.mem_cons_self).symm
    rw [List.cons_append, replaceAll, if_neg (by simp [hx]), ih fun y hy =>
      h y (List.mem_cons_of_mem x hy)]
    rfl

theorem replaceAll_char (p : Char) (cs : List Char) :
    replaceAll [p] by_ 0 cs = cs.flatMap fun c => if c = p then by_ else [c] := by
  induction cs with
  | nil => rfl
  | cons c cs ih =>
    rw [replaceAll, List.flatMap_cons]
    by_cases hc : c = p
    · simp [hc, ih]
    · simp [hc, Ne.symm hc, ih]

end Replace

/-- A token after the stars have been replaced by pairs. -/
def starPiece : Token → List Char
  | .lit c => litSource c
  | .star => ['*']
  | .globstar => Auth.globstar

/-- A token after the single stars have been replaced. -/
def runPiece : Token → List Char
  | .globstar => Auth.globstar
  | t => t.source

theorem mem_litSource {c d : Char} (h : d ∈ litSource c) : d = c ∨ d = '\\' := by
  unfold litSource at h
  split at h
  · next hdot =>
    subst hdot
    simpa [or_comm] using h
  · exact Or.inl (by simpa using h)

theorem replace_pairs (cs : List Char) :
    replaceAll ['*', '*'] Auth.globstar 0 (cs.flatMap litSource) =
      (tokens cs).flatMap starPiece := by
  induction cs using pattern_cases with
  | hnil => rfl
  | hglobstar cs ih =>
    have hhere : replaceAll ['*', '*'] Auth.globstar 0 ('*' :: ['*'] ++ cs.flatMap litSource) = _ :=
      replaceAll_here '*' ['*'] (cs.flatMap litSource)
    rw [tokens_globstar, List.flatMap_cons, List.flatMap_cons, List.flatMap_cons, ← ih]
    exact hhere
  | hstar cs hhead ih =>
    rw [tokens_star hhead, List.flatMap_cons, List.flatMap_cons, ← ih]
    have hnext : ['*'].isPrefixOf (cs.flatMap litSource) = false := by
      cases cs with
      | nil => rfl
      | cons d ds =>
        have hd : d ≠ '*' := fun hd => hhead (by simp [hd])
        by_cases hdot : d = '.'
        · simp [litSource, hdot, List.isPrefixOf]
        · simp [litSource, hdot, List.isPrefixOf, Ne.symm hd]
    have hstar : litSource '*' = ['*'] := by decide
    rw [hstar, List.singleton_append, replaceAll, if_neg (by simp [hnext])]
    rfl
  | hlit c cs hc ih =>
    rw [tokens_lit hc, List.flatMap_cons, List.flatMap_cons, ← ih]
    refine replaceAll_no (fun d hd => ?_) _
    rcases mem_litSource hd with rfl | rfl
    · exact hc
    · decide

theorem replace_stars {ts : List Token} (h : ∀ c, .lit c ∈ ts → c ≠ '*') :
    replaceAll ['*'] starSource 0 (ts.flatMap starPiece) = ts.flatMap runPiece := by
  rw [replaceAll_char, List.flatMap_assoc]
  refine List.flatMap_congr fun t ht => ?_
  cases t with
  | star => decide
  | globstar => decide
  | lit c =>
    have hnone : ∀ d ∈ litSource c, d ≠ '*' := by
      intro d hd
      rcases mem_litSource hd with rfl | rfl
      · exact h d ht
      · decide
    have hsame : (litSource c).flatMap (fun d => if d = '*' then starSource else [d]) =
        (litSource c).flatMap fun d => [d] :=
      List.flatMap_congr fun d hd => if_neg (hnone d hd)
    change (litSource c).flatMap _ = litSource c
    rw [hsame]
    simp

/-- Where an end of the placeholder begins what the tokens became, it stands in the pattern. -/
theorem prefix_of_pieces {w : List Char} (hw : w <:+ Auth.globstar.tail) (cs : List Char)
    (h : w <+: (tokens cs).flatMap runPiece) : w <+: cs := by
  induction w generalizing cs with
  | nil => exact List.nil_prefix
  | cons x w ih =>
    have hx : x ≠ '[' ∧ x ≠ '\\' ∧ ¬ x :: w <+: Auth.globstar := by
      have hends : ∀ v ∈ Auth.globstar.tail.tails, v.head? ≠ some '[' ∧ v.head? ≠ some '\\' ∧
          (v = [] ∨ ¬ v <+: Auth.globstar) := by decide
      obtain ⟨h₁, h₂, h₃⟩ := hends _ ((List.mem_tails _ _).mpr hw)
      exact ⟨by simpa using h₁, by simpa using h₂, h₃.resolve_left (by simp)⟩
    cases cs using pattern_cases with
    | hnil => simp [tokens] at h
    | hglobstar cs =>
      rw [tokens_globstar, List.flatMap_cons] at h
      refine absurd (List.prefix_of_prefix_length_le h (List.prefix_append _ _) ?_) hx.2.2
      exact hw.length_le.trans (by decide)
    | hstar cs hhead =>
      rw [tokens_star hhead, List.flatMap_cons] at h
      obtain ⟨rest, hrest⟩ := h
      exact absurd (List.cons.inj hrest).1 hx.1
    | hlit c cs hc =>
      rw [tokens_lit hc, List.flatMap_cons] at h
      by_cases hdot : c = '.'
      · obtain ⟨rest, hrest⟩ := h
        rw [hdot] at hrest
        exact absurd (List.cons.inj hrest).1 hx.2.1
      · have hpiece : runPiece (.lit c) = [c] := by simp [runPiece, Token.source, litSource, hdot]
        rw [hpiece, List.singleton_append, List.cons_prefix_cons] at h
        obtain ⟨rfl, h⟩ := h
        exact List.cons_prefix_cons.mpr ⟨rfl, ih ((List.suffix_cons _ _).trans hw) cs h⟩

theorem replace_globstars {cs : List Char} (h : ¬ Auth.globstar <:+: cs) :
    replaceAll Auth.globstar globstarSource 0 ((tokens cs).flatMap runPiece) =
      (tokens cs).flatMap Token.source := by
  induction cs using pattern_cases with
  | hnil => rfl
  | hglobstar cs ih =>
    rw [tokens_globstar, List.flatMap_cons, List.flatMap_cons,
      ← ih fun hin => h (hin.trans (List.suffix_append ['*', '*'] cs).isInfix)]
    exact replaceAll_here '\x7b' _ _
  | hstar cs hhead ih =>
    rw [tokens_star hhead, List.flatMap_cons, List.flatMap_cons,
      ← ih fun hin => h (hin.trans (List.suffix_cons '*' cs).isInfix)]
    exact replaceAll_no (p := '\x7b') (by simp [runPiece, Token.source, starSource]) _
  | hlit c cs hc ih =>
    rw [tokens_lit hc, List.flatMap_cons, List.flatMap_cons,
      ← ih fun hin => h (hin.trans (List.suffix_cons c cs).isInfix)]
    by_cases hbrace : c = '\x7b'
    · subst hbrace
      have hpiece : runPiece (.lit '\x7b') = ['\x7b'] := by decide
      have hnot : ¬ Auth.globstar.isPrefixOf ('\x7b' :: (tokens cs).flatMap runPiece) = true := by
        rw [List.isPrefixOf_iff_prefix]
        intro hpre
        have htail := prefix_of_pieces List.suffix_rfl cs (List.cons_prefix_cons.mp hpre).2
        exact h (List.cons_prefix_cons.mpr ⟨rfl, htail⟩).isInfix
      rw [hpiece, List.singleton_append, replaceAll, if_neg hnot]
      rfl
    · refine replaceAll_no (p := '\x7b') (fun d hd => ?_) _
      rcases mem_litSource hd with rfl | rfl
      · exact hbrace
      · decide

/-- The expression of a pattern without the placeholder is that of its tokens. -/
theorem globSource_tokens {pattern : String} (h : ¬ Auth.globstar <:+: pattern.toList) :
    globSource pattern = source (tokens pattern.toList) := by
  have hdots : replaceAll ['.'] ['\\', '.'] 0 pattern.toList = pattern.toList.flatMap litSource :=
    replaceAll_char '.' pattern.toList
  simp only [globSource, hdots, replace_pairs]
  have hlits : ∀ c, .lit c ∈ tokens pattern.toList → c ≠ '*' := fun c hc => (mem_of_lit hc).2
  have hstars := replace_stars hlits
  have hglobstars := replace_globstars h
  unfold starSource at hstars
  unfold globstarSource at hglobstars
  rw [hstars]
  change "^" ++ String.ofList (replaceAll Auth.globstar ".*".toList 0 _) ++ "$" = _
  rw [hglobstars, source]

theorem globSource_plain {pattern : String} (h : Plain pattern.toList) :
    globSource pattern = source (tokens pattern.toList) :=
  globSource_tokens fun hin => h '\x7b' (hin.subset (by decide)) (by decide)

/-- What `.` matches in an expression. -/
def dot (c : Char) : Bool := !JsString.isLineTerminator c

/-- The engine reads the expressions of globs as documented. -/
def ReadsGlobs (regExp : RegExp) : Prop :=
  ∀ ts, PlainTokens ts → ∃ test, regExp (source ts) = .ok test ∧
    ∀ path : String, test path = true ↔ Matches dot ts path.toList

theorem matchGlob_plain {regExp : RegExp} (hengine : ReadsGlobs regExp) {path pattern : String}
    (h : Plain pattern.toList) : ∃ matched, matchGlob regExp path pattern = .ok matched ∧
      (matched = true ↔ Matches dot (tokens pattern.toList) path.toList) := by
  obtain ⟨test, htest, hmatches⟩ := hengine _ (plainTokens_tokens _ h)
  refine ⟨test path, ?_, hmatches path⟩
  rw [matchGlob, globSource_plain h, htest]

/-- The path leads to a place under the literal directory of a pattern that matches it. -/
def StaysInScope (regExp : RegExp) (scope : ScopeDefinition) (path : String) : Prop :=
  ∃ pattern ∈ scope.files.getD [], matchGlob regExp path pattern = .ok true ∧
    under (literalDirectory pattern.toList) path.toList = true

/-- The path begins with the literal directory of the pattern, and its rest stays inside; the
match of a pattern with other special characters may begin elsewhere. -/
def FollowsDirectory (pattern path : String) : Prop :=
  (∃ rest, path.toList = literalDirectory pattern.toList ++ rest ∧
    staysInside (literalDirectory pattern.toList) rest = true) ∨
  ¬ Plain pattern.toList ∧ under (literalDirectory pattern.toList) path.toList = true

theorem under_iff_followsDirectory {regExp : RegExp} (hengine : ReadsGlobs regExp)
    {path pattern : String} (h : matchGlob regExp path pattern = .ok true) :
    under (literalDirectory pattern.toList) path.toList = true ↔ FollowsDirectory pattern path := by
  have hends := literalDirectory_ends pattern.toList
  constructor
  · intro hunder
    by_cases hplain : Plain pattern.toList
    · obtain ⟨matched, hmatched, hmatches⟩ := matchGlob_plain hengine hplain
      obtain rfl := Except.ok.inj (h.symm.trans hmatched)
      obtain ⟨rest, hrest⟩ := literalDirectory_of_matches (hmatches.mp rfl)
      rw [hrest, under_append hends] at hunder
      exact Or.inl ⟨rest, hrest, hunder⟩
    · exact Or.inr ⟨hplain, hunder⟩
  · rintro (⟨rest, hrest, hinside⟩ | ⟨-, hunder⟩)
    · rw [hrest, under_append hends]
      exact hinside
    · exact hunder

theorem checkFiles_allowed_iff {regExp : RegExp} (patterns filePaths : List String) :
    (∃ result, checkFiles regExp patterns filePaths = .ok result ∧ result.allowed = true) ↔
      ∀ path ∈ filePaths, matchesAnyPattern regExp path patterns = .ok true := by
  induction filePaths with
  | nil => simp [checkFiles]
  | cons path rest ih =>
    rw [List.forall_mem_cons, ← ih, checkFiles]
    cases hmatch : matchesAnyPattern regExp path patterns with
    | error message => simp
    | ok matched => cases matched <;> simp

theorem checkScope_allowed_iff (regExp : RegExp) {scope : ScopeDefinition} (toolName : String)
    (args : Dict Json) (hfiles : scope.files.getD [] ≠ []) :
    (∃ result, checkScope regExp scope toolName args = .ok result ∧ result.allowed = true) ↔
      ToolInScope scope toolName ∧ ∀ path ∈ extractFilePaths args,
        matchesAnyPattern regExp path (scope.files.getD []) = .ok true := by
  rw [← checkFiles_allowed_iff]
  simp only [checkScope, ToolInScope]
  by_cases htool : scope.tools.getD [] ≠ [] ∧ toolName ∉ scope.tools.getD []
  · rw [if_pos htool]
    simp [htool.1, htool.2]
  · rw [if_neg htool, if_pos hfiles]
    refine (and_iff_right fun hne => ?_).symm
    by_contra hnot
    exact htool ⟨hne, hnot⟩

/-- What the check allows stays in scope. -/
def Confines (regExp : RegExp) (scope : ScopeDefinition) (toolName : String) (args : Dict Json) :
    Prop :=
  ∀ result, checkScope regExp scope toolName args = .ok result → result.allowed = true →
    ∀ path ∈ extractFilePaths args, StaysInScope regExp scope path

theorem confines_iff {regExp : RegExp} (hengine : ReadsGlobs regExp) {scope : ScopeDefinition}
    (hfiles : scope.files.getD [] ≠ []) (toolName : String) (args : Dict Json) :
    Confines regExp scope toolName args ↔
      ¬ ToolInScope scope toolName ∨
        (∃ path ∈ extractFilePaths args,
          matchesAnyPattern regExp path (scope.files.getD []) ≠ .ok true) ∨
        ∀ path ∈ extractFilePaths args, ∃ pattern ∈ scope.files.getD [],
          matchGlob regExp path pattern = .ok true ∧ FollowsDirectory pattern path := by
  have hpaths : (∀ path ∈ extractFilePaths args, StaysInScope regExp scope path) ↔
      ∀ path ∈ extractFilePaths args, ∃ pattern ∈ scope.files.getD [],
        matchGlob regExp path pattern = .ok true ∧ FollowsDirectory pattern path :=
    forall₂_congr fun path _ => exists_congr fun pattern => and_congr_right fun _ =>
      and_congr_right fun hmatch => under_iff_followsDirectory hengine hmatch
  have hallowed := checkScope_allowed_iff regExp toolName args hfiles
  rw [← hpaths]
  constructor
  · intro h
    by_cases hcheck : ToolInScope scope toolName ∧ ∀ path ∈ extractFilePaths args,
        matchesAnyPattern regExp path (scope.files.getD []) = .ok true
    · obtain ⟨result, hresult, htrue⟩ := hallowed.mpr hcheck
      exact Or.inr (Or.inr (h result hresult htrue))
    · rw [not_and_or] at hcheck
      push Not at hcheck
      exact hcheck.imp_right Or.inl
  · intro h result hresult htrue
    obtain ⟨htool, hmatch⟩ := hallowed.mp ⟨result, hresult, htrue⟩
    rcases h with hrefused | ⟨path, hpath, hunmatched⟩ | hstay
    · exact absurd htool hrefused
    · exact absurd (hmatch path hpath) hunmatched
    · exact hstay

/-- An engine for the expressions of globs only. -/
def globEngine : RegExp := fun expression =>
  match readSource expression.toList with
  | some ts => .ok fun path => test dot ts path.toList
  | none => .error "Invalid regular expression"

theorem readsGlobs_globEngine : ReadsGlobs globEngine := by
  intro ts hts
  refine ⟨fun path => test dot ts path.toList, ?_, fun path => test_iff dot ts path.toList⟩
  simp [globEngine, readSource_source hts]

def srcScope : ScopeDefinition where
  files := some ["src/**"]

theorem confines_inner_parent : Confines globEngine srcScope "find_symbol"
    [("path", .string "src/auth/../api/routes.ts")] := by
  refine (confines_iff readsGlobs_globEngine (by decide) _ _).mpr (Or.inr (Or.inr ?_))
  intro path hpath
  obtain rfl := List.mem_singleton.mp hpath
  refine ⟨"src/**", List.mem_cons_self, by decide +kernel, Or.inl ?_⟩
  exact ⟨"auth/../api/routes.ts".toList, by decide +kernel, by decide +kernel⟩

/-- A path out of the allowed directory matches its pattern. -/
theorem parent_leaves_scope : ¬ Confines globEngine srcScope "find_symbol"
    [("path", .string "src/../etc/passwd")] := by
  intro h
  obtain ⟨pattern, hpattern, -, hunder⟩ := h { allowed := true } (by rfl) rfl
    "src/../etc/passwd" List.mem_cons_self
  obtain rfl := List.mem_singleton.mp hpattern
  revert hunder
  decide +kernel

end Auth

/-! `matchGlob` against the grammar of its patterns. -/

namespace Auth

open Glob

/-- The characters other than a star and a dot that an expression does not read as themselves,
a curly bracket that opens a quantifier apart. -/
def syntaxCharacters : List Char := "^$+?()[|\\".toList

inductive BraceQuantifier : List Char → Prop
  | exactly (n : ℕ) (digits : List Char) (h : digits.length = n + 1)
      (hdigits : ∀ d ∈ digits, d.isDigit = true) : BraceQuantifier ('\x7b' :: digits ++ ['\x7d'])
  | range (n : ℕ) (digits digits' : List Char) (h : digits.length = n + 1)
      (hdigits : ∀ d ∈ digits ++ digits', d.isDigit = true) :
      BraceQuantifier ('\x7b' :: digits ++ ',' :: digits' ++ ['\x7d'])

/-- The patterns whose characters, the stars apart, stand for themselves in the expression. -/
structure Inert (pattern : List Char) : Prop where
  plain : ∀ c ∈ pattern, c ∉ syntaxCharacters
  unquantified : ∀ quantifier, BraceQuantifier quantifier → ¬ quantifier <:+: pattern
  unplaced : ¬ Auth.globstar <:+: pattern

/-- The engine reads the expressions of such patterns as documented. -/
def ReadsInert (regExp : RegExp) : Prop :=
  ∀ pattern, Inert pattern → ∃ test, regExp (source (tokens pattern)) = .ok test ∧
    ∀ path : String, test path = true ↔ Matches dot (tokens pattern) path.toList

/-- The grammar of the documentation: a `**` runs over every character. -/
def Generates (pattern path : String) : Prop :=
  Matches (fun _ => true) (tokens pattern.toList) path.toList

/-- The runs of the pattern's `**` in the path can be chosen on one line each. -/
def GeneratesInLine (pattern path : String) : Prop :=
  Matches dot (tokens pattern.toList) path.toList

/-- No throw, and the answer of the grammar. -/
def Meets (regExp : RegExp) (pattern path : String) : Prop :=
  ∃ matched, matchGlob regExp path pattern = .ok matched ∧
    (matched = true ↔ Generates pattern path)

theorem GeneratesInLine.generates {pattern path : String} (h : GeneratesInLine pattern path) :
    Generates pattern path :=
  h.mono fun _ _ _ => rfl

theorem matchGlob_inert {regExp : RegExp} (hengine : ReadsInert regExp) {pattern : String}
    (h : Inert pattern.toList) (path : String) :
    ∃ matched, matchGlob regExp path pattern = .ok matched ∧
      (matched = true ↔ GeneratesInLine pattern path) := by
  obtain ⟨test, htest, hmatches⟩ := hengine _ h
  refine ⟨test path, ?_, hmatches path⟩
  rw [matchGlob, globSource_tokens h.unplaced, htest]

/-- An inert pattern is matched as the grammar says, exactly where a path that the grammar
generates does not need a line break in the run of a `**`. -/
theorem matchGlob_meets_iff {regExp : RegExp} (hengine : ReadsInert regExp) {pattern : String}
    (h : Inert pattern.toList) (path : String) :
    Meets regExp pattern path ↔ (Generates pattern path → GeneratesInLine pattern path) := by
  obtain ⟨matched, hmatched, hinline⟩ := matchGlob_inert hengine h path
  constructor
  · rintro ⟨matched', hmatched', hgenerates⟩ hgen
    obtain rfl := Except.ok.inj (hmatched.symm.trans hmatched')
    exact hinline.mp (hgenerates.mpr hgen)
  · intro hline
    exact ⟨matched, hmatched, hinline.trans ⟨GeneratesInLine.generates, hline⟩⟩

/-! An engine for these expressions. -/

def readInertBody : List Char → Option (List Token)
  | [] => some []
  | '\\' :: c :: cs => (readInertBody cs).map (.lit c :: ·)
  | '[' :: '^' :: '/' :: ']' :: '*' :: cs => (readInertBody cs).map (.star :: ·)
  | '.' :: '*' :: cs => (readInertBody cs).map (.globstar :: ·)
  | c :: cs =>
    if c ∈ syntaxCharacters ∨ c = '.' ∨ c = '*' then none
    else (readInertBody cs).map (.lit c :: ·)

theorem readInertBody_source {ts : List Token}
    (h : ∀ c, .lit c ∈ ts → c ∉ syntaxCharacters ∧ c ≠ '*') :
    readInertBody (ts.flatMap Token.source) = some ts := by
  induction ts with
  | nil => rfl
  | cons t ts ih =>
    have hts := ih fun c hc => h c (List.mem_cons_of_mem t hc)
    rw [List.flatMap_cons]
    cases t with
    | star => simp [Token.source, starSource, readInertBody, hts]
    | globstar => simp [Token.source, globstarSource, readInertBody, hts]
    | lit c =>
      obtain ⟨hnone, hstar⟩ := h c List.mem_cons_self
      by_cases hdot : c = '.'
      · simp [Token.source, litSource, hdot, readInertBody, hts]
      · have hslash : c ≠ '\\' := by
          rintro rfl
          exact hnone (by decide)
        have hbracket : c ≠ '[' := by
          rintro rfl
          exact hnone (by decide)
        have hread : readInertBody (c :: ts.flatMap Token.source) =
            if c ∈ syntaxCharacters ∨ c = '.' ∨ c = '*' then none
            else (readInertBody (ts.flatMap Token.source)).map (.lit c :: ·) := by
          rw [readInertBody]
          all_goals grind
        simp [Token.source, litSource, hdot, hread, hnone, hstar, hts]

def inertEngine : RegExp := fun expression =>
  match readInertBody (expression.toList.tail.dropLast) with
  | some ts => .ok fun path => test dot ts path.toList
  | none => .error "Invalid regular expression"

theorem readsInert_inertEngine : ReadsInert inertEngine := by
  intro pattern h
  have hlits : ∀ c, .lit c ∈ tokens pattern → c ∉ syntaxCharacters ∧ c ≠ '*' := fun c hc =>
    (mem_of_lit hc).imp_left (h.plain c)
  have hread := readInertBody_source hlits
  have hbody : (source (tokens pattern)).toList.tail.dropLast =
      (tokens pattern).flatMap Token.source := by
    simp [source]
  refine ⟨fun path => test dot (tokens pattern) path.toList, ?_, fun path => test_iff dot _ _⟩
  simp [inertEngine, hbody, hread]

theorem inert_of_all {pattern : List Char}
    (h : pattern.all (fun c => !syntaxCharacters.contains c && c != '\x7b') = true) :
    Inert pattern := by
  rw [List.all_eq_true] at h
  have hchars : ∀ c ∈ pattern, c ∉ syntaxCharacters ∧ c ≠ '\x7b' := fun c hc => by
    simpa using h c hc
  have hbrace : '\x7b' ∉ pattern := fun hmem => (hchars _ hmem).2 rfl
  refine ⟨fun c hc => (hchars c hc).1, fun quantifier hq hin => hbrace (hin.subset ?_),
    fun hin => hbrace (hin.subset (by decide))⟩
  cases hq <;> simp

theorem generates_iff (pattern path : String) :
    Generates pattern path ↔ test (fun _ => true) (tokens pattern.toList) path.toList = true :=
  (test_iff _ _ _).symm

theorem generatesInLine_iff (pattern path : String) :
    GeneratesInLine pattern path ↔ test dot (tokens pattern.toList) path.toList = true :=
  (test_iff _ _ _).symm

theorem nested_matched : Meets inertEngine "src/**/*.ts" "src/auth/scope.ts" := by
  have hinert : Inert "src/**/*.ts".toList := inert_of_all (by decide +kernel)
  refine (matchGlob_meets_iff readsInert_inertEngine hinert _).mpr fun _ => ?_
  rw [generatesInLine_iff]
  decide +kernel

/-- A file whose name has a line break in it is out of every `**`. -/
theorem line_break_missed : ReadsInert inertEngine ∧ ¬ Meets inertEngine "src/**" "src/a\nb" := by
  refine ⟨readsInert_inertEngine, fun h => ?_⟩
  have hinert : Inert "src/**".toList := inert_of_all (by decide +kernel)
  have hline := (matchGlob_meets_iff readsInert_inertEngine hinert _).mp h
  rw [generates_iff, generatesInLine_iff] at hline
  exact absurd (hline (by decide +kernel)) (by decide +kernel)

end Auth
end Batiste
