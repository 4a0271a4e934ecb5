import Batiste.Glob
import Batiste.JsString
import Batiste.Scrub

/-! The globs of the secret scan's allowlist and the expressions that they are turned into. -/
namespace Batiste
namespace SecretScan

open Glob

abbrev Text := List Char

/-- The characters that `esc` puts a backslash before. -/
def escaped : Text := ['.', '+', '?', '^', '$', '{', '}', '(', ')', '|', '[', ']', '\\']

def esc (s : Text) : Text := s.flatMap fun c => if c ∈ escaped then ['\\', c] else [c]

/-- `g.split("**")` -/
def splitPairs : Text → List Text
  | '*' :: '*' :: cs => [] :: splitPairs cs
  | [] => [[]]
  | c :: cs =>
    match splitPairs cs with
    | [] => [[c]]
    | piece :: pieces => (c :: piece) :: pieces

def joinWith (sep : Text) (pieces : List Text) : Text := sep.intercalate pieces

/-- The text given to `new RegExp`. -/
def globSource (g : Text) : Text :=
  '^' :: (joinWith globstarSource ((splitPairs g).map fun t =>
    joinWith starSource ((t.splitOn '*').map esc)) ++ ['$'])

/-- What `.` matches in an expression. -/
def dot (c : Char) : Bool := !JsString.isLineTerminator c

/-- An expression of escaped characters, `[^/]*` and `.*` is tested as documented. -/
def regExp (expression : Text) : Option (Text → Bool) :=
  (readSource expression).map (test dot)

def globRe (g : Text) : Option (Text → Bool) := regExp (globSource g)

/-! ## The source of a glob -/

def tokenSource : Token → Text
  | .lit c => esc [c]
  | .star => starSource
  | .globstar => globstarSource

theorem joinWith_append (sep a x : Text) (xs : List Text) :
    joinWith sep ((a ++ x) :: xs) = a ++ joinWith sep (x :: xs) := by
  cases xs <;> simp [joinWith, List.intercalate]

theorem joinWith_nil_cons (sep x : Text) (xs : List Text) :
    joinWith sep ([] :: x :: xs) = sep ++ joinWith sep (x :: xs) := by
  simp [joinWith, List.intercalate]

theorem splitPairs_ne_nil (cs : Text) : splitPairs cs ≠ [] := by
  fun_induction splitPairs cs <;> simp

theorem splitPairs_globstar (cs : Text) : splitPairs ('*' :: '*' :: cs) = [] :: splitPairs cs := by
  rw [splitPairs]

/-- Any other first character goes to the first piece. -/
theorem splitPairs_cons {c : Char} {cs : Text} (h : c = '*' → cs.head? ≠ some '*') :
    splitPairs (c :: cs) = (splitPairs cs).modifyHead (c :: ·) := by
  have hne := splitPairs_ne_nil cs
  rw [splitPairs]
  · cases hsplit : splitPairs cs with
    | nil => exact absurd hsplit hne
    | cons piece pieces => rfl
  · rintro ds rfl rfl
    exact h rfl rfl

def pieceSource (t : Text) : Text := joinWith starSource ((t.splitOn '*').map esc)

theorem pieceSource_star (t : Text) : pieceSource ('*' :: t) = starSource ++ pieceSource t := by
  rw [pieceSource, List.splitOn_cons_eq_if_modifyHead, if_pos (beq_self_eq_true '*'), pieceSource]
  cases hsplit : t.splitOn '*' with
  | nil => exact absurd hsplit (List.splitOn_ne_nil '*' t)
  | cons piece pieces => exact joinWith_nil_cons starSource (esc piece) (pieces.map esc)

theorem pieceSource_lit {c : Char} (h : c ≠ '*') (t : Text) :
    pieceSource (c :: t) = esc [c] ++ pieceSource t := by
  have hbeq : ¬(c == '*') = true := by simpa using h
  rw [pieceSource, List.splitOn_cons_eq_if_modifyHead, if_neg hbeq, pieceSource]
  cases hsplit : t.splitOn '*' with
  | nil => exact absurd hsplit (List.splitOn_ne_nil '*' t)
  | cons piece pieces =>
    have hesc : esc (c :: piece) = esc [c] ++ esc piece := by simp [esc]
    rw [List.modifyHead_cons, List.map_cons, hesc, joinWith_append, List.map_cons]

/-- What stands between `^` and `$`. -/
def globBody (g : Text) : Text := joinWith globstarSource ((splitPairs g).map pieceSource)

theorem globBody_cons {c : Char} {cs source : Text} (h : c = '*' → cs.head? ≠ some '*')
    (hsource : ∀ t, pieceSource (c :: t) = source ++ pieceSource t) :
    globBody (c :: cs) = source ++ globBody cs := by
  rw [globBody, splitPairs_cons h, globBody]
  cases hsplit : splitPairs cs with
  | nil => exact absurd hsplit (splitPairs_ne_nil cs)
  | cons piece pieces =>
    rw [List.modifyHead_cons, List.map_cons, hsource, joinWith_append, List.map_cons]

theorem globBody_globstar (cs : Text) :
    globBody ('*' :: '*' :: cs) = globstarSource ++ globBody cs := by
  rw [globBody, splitPairs_globstar, globBody]
  cases hsplit : splitPairs cs with
  | nil => exact absurd hsplit (splitPairs_ne_nil cs)
  | cons piece pieces => exact joinWith_nil_cons globstarSource (pieceSource piece) _

/-- Splitting and joining writes the tokens down one after the other. -/
theorem globBody_eq (g : Text) : globBody g = (tokens g).flatMap tokenSource := by
  induction g using pattern_cases with
  | hnil => rfl
  | hglobstar cs ih => rw [globBody_globstar, ih, tokens_globstar, List.flatMap_cons, tokenSource]
  | hstar cs hhead ih =>
    rw [globBody_cons (fun _ => hhead) pieceSource_star, ih, tokens_star hhead, List.flatMap_cons,
      tokenSource]
  | hlit c cs hc ih =>
    rw [globBody_cons (fun h => absurd h hc) (pieceSource_lit hc), ih, tokens_lit hc,
      List.flatMap_cons, tokenSource]

/-! ## Reading the source back -/

theorem special_escaped {c : Char} (h : c ∈ special ∨ c = '.') : c ∈ escaped := by
  have hspecial : special = ['^', '$', '+', '?', '(', ')', '[', ']', '{', '}', '|', '\\'] := rfl
  rw [hspecial] at h
  simp only [List.mem_cons, List.not_mem_nil, or_false, escaped] at h ⊢
  tauto

theorem readBody_esc {c : Char} (hstar : c ≠ '*') (cs : Text) :
    readBody (esc [c] ++ cs) = (readBody cs).map (.lit c :: ·) := by
  by_cases hc : c ∈ escaped
  · have hesc : esc [c] = ['\\', c] := by simp [esc, hc]
    rw [hesc]
    rfl
  · have hesc : esc [c] = [c] := by simp [esc, hc]
    have hspecial : c ∉ special := fun h => hc (special_escaped (.inl h))
    have hdot : c ≠ '.' := fun h => hc (special_escaped (.inr h))
    rw [hesc]
    exact readBody_cons hspecial hdot hstar cs

theorem readBody_tokens {ts : List Token} (h : .lit '*' ∉ ts) :
    readBody (ts.flatMap tokenSource) = some ts := by
  refine readBody_flatMap fun t ht cs => ?_
  cases t with
  | star => exact readBody_star cs
  | globstar => exact readBody_globstar cs
  | lit c =>
    have hstar : c ≠ '*' := by
      rintro rfl
      exact h ht
    exact readBody_esc hstar cs

theorem readSource_glob (g : Text) : readSource (globSource g) = some (tokens g) := by
  have hsource : globSource g = '^' :: (globBody g ++ ['$']) := rfl
  have hread : readSource ('^' :: (globBody g ++ ['$'])) = readBody (globBody g) := by
    simp [readSource]
  rw [hsource, hread, globBody_eq]
  exact readBody_tokens fun h => (mem_of_lit h).2 rfl

theorem globRe_eq (g : Text) : globRe g = some (test dot (tokens g)) := by
  rw [globRe, regExp, readSource_glob, Option.map_some]

/-! ## What a glob matches -/

/-- The expression of a glob is well formed; `**` stops at a line terminator and nowhere else. -/
theorem globRe_iff (g p : Text) : ∃ t, globRe g = some t ∧
    (t p = true ↔ Matches dot (tokens g) p) ∧
    (p.all dot = true → (t p = true ↔ Matches (fun _ => true) (tokens g) p)) := by
  have hdot := test_iff dot (tokens g) p
  refine ⟨test dot (tokens g), globRe_eq g, hdot, fun hp => ?_⟩
  rw [List.all_eq_true] at hp
  exact hdot.trans ⟨fun h => h.mono fun _ _ _ => rfl, fun h => h.mono fun c hc _ => hp c hc⟩

/-- A carriage return is a character, and git allows it in a path. -/
theorem return_not_matched :
    (∀ c ∈ ['a', '/', '\r'], c ≠ '\n') ∧
      Matches (fun _ => true) (tokens ['a', '/', '*', '*']) ['a', '/', '\r'] ∧
      ¬∃ t, globRe ['a', '/', '*', '*'] = some t ∧ t ['a', '/', '\r'] = true := by
  refine ⟨by simp, ?_, ?_⟩
  · rw [← test_iff]
    decide
  · rintro ⟨t, ht, hp⟩
    rw [globRe_eq, Option.some.injEq] at ht
    subst ht
    revert hp
    decide

end SecretScan

/-! The scan of a repository's files for credentials: the expressions, the allowlist, and the
findings in one file. -/

namespace SecretScan

open SpanRegex
open Scrub (tokenChar upperOrDigit text atLeast exactly)

/-! ## The expressions -/

/-- One of the alternatives matches somewhere. -/
def found (alternatives : List Re) (cs : Text) : Bool :=
  cs.tails.any fun rest => alternatives.any fun re => !(spans re rest).isEmpty

/-- One of the alternatives matches at the beginning. -/
def foundFirst (alternatives : List Re) (cs : Text) : Bool :=
  alternatives.any fun re => !(spans re cs).isEmpty

/-- The flag `i`, for expressions of small letters. -/
def lower (cs : Text) : Text := cs.map Char.toLower

def sequence : List Re → Re
  | [] => .eps
  | re :: rest => .seq re (sequence rest)

def spaces : Re := atLeast 0 JsString.isSpace

def oneOf (cs : Text) : Re := .cls fun c => cs.contains c

def quoteMark (c : Char) : Bool := c == '"' || c == '\''

def mark : Re := .cls quoteMark

/-- `["'][^"']{n,}["']` -/
def literal (n : ℕ) : Re := sequence [mark, atLeast n fun c => !quoteMark c, mark]

def fallbackRe : List Re :=
  ["secretFallback", "fallback"].map fun name =>
    sequence [text name, spaces, text ":", spaces, literal 4]

def envOr : Re := sequence [spaces, text "||", spaces, literal 1]

def envNames : List Re :=
  [sequence [text ".", atLeast 1 fun c => c.isAlpha || c == '_'],
    sequence [text "[", atLeast 1 fun c => c != ']', text "]"]]

/-- The first group of the first match. -/
def envName (cs : Text) : Option Text :=
  cs.tails.findSome? fun rest =>
    (spans (text "env") rest).findSome? fun k =>
      envNames.findSome? fun name => ((spans name (rest.drop k)).find? fun n =>
        !(spans envOr (rest.drop (k + n))).isEmpty).map (rest.drop k).take

def credentialWord (name : Text) : Bool :=
  found (["secret", "token", "pass", "senha", "key", "auth"].map text) (lower name)

def assignRe : List Re :=
  [text "PASS", text "PASSWORD", text "SENHA", text "SECRET", text "TOKEN",
    sequence [text "API", .opt (text "_"), text "KEY"]].map fun name =>
      sequence [name, atLeast 0 fun c => c.isUpper || c == '_', spaces, oneOf [':', '='], spaces,
        literal 6]

def senhaRe : List Re :=
  [sequence [spaces, text "senha", spaces, .opt (oneOf [':', '=']), spaces,
    atLeast 6 fun c => !JsString.isSpace c]]

def signedRe : List Re :=
  [sequence [text "eyJ", atLeast 10 tokenChar, text ".", atLeast 30 tokenChar],
    sequence [text "?t=eyJ", atLeast 16 tokenChar]]

def providerRe : List Re :=
  [sequence [text "sk_live_", atLeast 8 Char.isAlphanum],
    sequence [text "rk_live_", atLeast 8 Char.isAlphanum],
    sequence [text "pk_live_", atLeast 8 Char.isAlphanum],
    sequence [text "whsec_", atLeast 10 Char.isAlphanum],
    sequence [text "sk-ant-", atLeast 20 tokenChar],
    sequence [text "AKIA", exactly 16 upperOrDigit],
    sequence [text "AIza", exactly 35 tokenChar],
    sequence [text "gh", oneOf ['p', 'o', 'u', 's', 'r'], text "_", atLeast 36 Char.isAlphanum],
    sequence [text "xox", oneOf ['b', 'a', 'p', 'r', 's'], text "-",
      atLeast 8 fun c => c.isAlphanum || c == '-']]

def bearerRe : List Re :=
  [sequence [text "Bearer", atLeast 1 JsString.isSpace,
      atLeast 20 fun c => tokenChar c || c == '.' || c == '='],
    sequence [text "://", atLeast 1 fun c => !(c == '/' || JsString.isSpace c || quoteMark c), text ":",
      atLeast 1 fun c => !(c == '@' || JsString.isSpace c || quoteMark c), text "@"]]

def pemRe : List Re :=
  ["", "RSA ", "EC ", "OPENSSH "].map fun kind =>
    sequence [text "BEGIN ", text kind, text "PRIVATE KEY"]

def entropyRe : List Re :=
  [sequence [mark, atLeast 40 fun c => c.isDigit || ('a' ≤ c && c ≤ 'f'), mark],
    sequence [mark, atLeast 48 fun c => c.isAlphanum || c == '+' || c == '/',
      .rep true (fun c => c == '=') 0 (some 2), mark]]

/-! ## Names of files -/

/-- `p.split("/").pop()` -/
def base (p : Text) : Text := (p.splitOn '/').getLastD []

def endsWith (p : Text) (ending : String) : Bool := ending.toList.isSuffixOf p

/-- `/^name($|\.)/` -/
def isOrDotted (name : String) (p : Text) : Bool :=
  p == name.toList || (name.toList ++ ['.']).isPrefixOf p

def inFunctions (p : Text) : Bool :=
  "functions/".toList.isPrefixOf p || p.tails.any "/functions/".toList.isPrefixOf

def inTools (p : Text) : Bool := "tools/".toList.isPrefixOf p

def isNote (p : Text) : Bool := [".md", ".txt"].any (endsWith (lower p))

def NOME_PROIBIDO (p : Text) : Bool :=
  if endsWith (base p) ".example" then false
  else isOrDotted ".env" (base p) || isOrDotted ".dev.vars" (base p) || endsWith (base p) ".pem" ||
    "id_rsa".toList.isPrefixOf (base p)

def extensions : List String :=
  ["png", "jpg", "jpeg", "gif", "webp", "avif", "ico", "svgz", "woff", "woff2", "ttf", "otf", "pdf",
    "mp4", "webm", "mp3", "wav", "m4a", "zip", "gz", "tar", "stl", "glb", "wasm", "pyc", "jar", "bin",
    "heic", "mov", "xlsx", "docx", "pptx", "key", "sketch", "fig", "psd", "ai", "eps", "dat", "db",
    "sqlite", "node"]

def BIN_EXT (p : Text) : Bool := extensions.any fun e => endsWith (lower p) ("." ++ e)

/-! ## The patterns -/

structure Padrao where
  id : ℕ
  desc : String
  re : Text → Bool
  soEm : Option (Text → Bool) := none
  check : Option (Text → Bool) := none

def PADROES : List Padrao :=
  [{ id := 1, desc := "fallback de credencial (proibido, inclusive dev-only)",
     re := found fallbackRe, soEm := some fun p => inFunctions p || inTools p },
   { id := 2, desc := "env.<credencial> || \"literal\" — fail-open que vira credencial efetiva",
     re := found (envNames.map fun name => sequence [text "env", name, envOr]),
     check := some fun linha => (envName linha).elim false credentialWord },
   { id := 3, desc := "atribuição de credencial literal (PASS/SENHA/SECRET/TOKEN/API_KEY)",
     re := found assignRe },
   { id := 4, desc := "senha em claro em sidecar/INDEX (md/txt)",
     re := fun linha => foundFirst senhaRe (lower linha), soEm := some isNote },
   { id := 5, desc := "token assinado INTEIRO (Thalia/JWT) — release só carrega link truncado",
     re := found signedRe },
   { id := 6, desc := "prefixo de provedor (Stripe/Anthropic/AWS/Google/GitHub/Slack)",
     re := found providerRe },
   { id := 7, desc := "Bearer literal ou user:pass em URL", re := found bearerRe },
   { id := 8, desc := "chave privada PEM", re := found pemRe },
   { id := 9, desc := "entropia alta (hex ≥40 ou base64 ≥48 entre aspas)", re := found entropyRe }]

/-! ## The allowlist -/

/-- What the code uses of its runtime: expressions written by the user, digests, and the decoding of
a file's bytes. -/
structure Runtime where
  newRegExp : Text → Option (Text → Bool)
  sha256 : Text → Text
  decode : List UInt8 → Text

structure PathPattern where
  glob : Text
  patterns : List ℕ

structure Value where
  text : Text
  paths : List Text

structure Pin where
  path : Text
  lineSha256 : List Text

structure Allow where
  paths : List Text := []
  lineAllow : List Text := []
  pathPatterns : List PathPattern := []
  values : List Value := []
  pins : List Pin := []

structure Compiled where
  PATH_SKIP : List (Text → Bool)
  LINE_ALLOW : List (Text → Bool)
  PATH_PATTERN_SKIP : List ((Text → Bool) × List ℕ)
  VALORES : List (Text × List (Text → Bool))
  PINS : List Pin

/-- `none` when `new RegExp` throws. -/
def compilar (runtime : Runtime) (ALLOW : Allow) : Option Compiled := do
  let PATH_SKIP ← ALLOW.paths.mapM globRe
  let LINE_ALLOW ← ALLOW.lineAllow.mapM runtime.newRegExp
  let PATH_PATTERN_SKIP ← ALLOW.pathPatterns.mapM fun e => (globRe e.glob).map (·, e.patterns)
  let VALORES ← ALLOW.values.mapM fun v => (v.paths.mapM globRe).map (v.text, ·)
  return { PATH_SKIP, LINE_ALLOW, PATH_PATTERN_SKIP, VALORES, PINS := ALLOW.pins }

def casaGlob (res : List (Text → Bool)) (p : Text) : Bool := res.any fun re => re p || re (base p)

def shaLinha (runtime : Runtime) (linha : Text) : Text := runtime.sha256 (JsString.trim linha)

/-- `PINS.get(path)`; the last of several pins of a path is the one in the map. -/
def pinsOf (A : Compiled) (path : Text) : Option (List Text) :=
  (A.PINS.reverse.find? fun pin => pin.path == path).map Pin.lineSha256

def permitido (runtime : Runtime) (A : Compiled) (path linha : Text) (padraoId : ℕ) : Bool :=
  A.LINE_ALLOW.any (fun re => re linha) ||
  A.PATH_PATTERN_SKIP.any (fun e => e.2.contains padraoId && (e.1 path || e.1 (base path))) ||
  A.VALORES.any (fun v => decide (v.1 <:+: linha) && (v.2.isEmpty || casaGlob v.2 path)) ||
  (pinsOf A path).any fun pins => pins.contains (shaLinha runtime linha)

/-! ## The findings in a file -/

/-- `linha` is a text of code units, cut at any of them. -/
structure Achado where
  f : Text
  n : ℕ
  id : ℕ
  linha : List ℕ
  desc : String
deriving DecidableEq

def units (cs : Text) : List ℕ := JsString.codeUnits (String.ofList cs)

/-- The pattern reports the line. -/
def acusa (runtime : Runtime) (A : Compiled) (f linha : Text) (p : Padrao) : Bool :=
  p.soEm.all (fun soEm => soEm f) && p.re linha && p.check.all (fun check => check linha) &&
    !permitido runtime A f linha p.id

def naLinha (runtime : Runtime) (A : Compiled) (f : Text) (i : ℕ) (linha : Text) : List Achado :=
  if 500 < (units linha).length then []
  else (PADROES.filter (acusa runtime A f linha)).map fun p =>
    { f, n := i + 1, id := p.id, linha := (units (JsString.trim linha)).take 160, desc := p.desc }

def pulado (A : Compiled) (f : Text) : Bool :=
  casaGlob A.PATH_SKIP f || endsWith f ".secret-scan.allowlist.json"

def segredo (f : Text) : Achado :=
  { f, n := 0, id := 8,
    linha := JsString.codeUnits "(arquivo de segredo staged — só *.example passa)",
    desc := "arquivo de segredo" }

/-- The findings of one turn of the loop over the files. -/
def doArquivo (runtime : Runtime) (A : Compiled) (conteudo : Text → Option (List UInt8)) (f : Text) :
    List Achado :=
  if pulado A f then []
  else if NOME_PROIBIDO f then [segredo f]
  else if BIN_EXT f then []
  else
    match conteudo f with
    | none => []
    | some buf =>
      if buf.contains 0 then []
      else ((runtime.decode buf).splitOn '\n').zipIdx.flatMap fun linha =>
        naLinha runtime A f linha.2 linha.1

/-! ## Which files have findings -/

/-- A line of the file is reported by one of the patterns. -/
def Acusado (runtime : Runtime) (A : Compiled) (f : Text) (buf : List UInt8) : Prop :=
  ∃ linha ∈ (runtime.decode buf).splitOn '\n', (units linha).length ≤ 500 ∧
    ∃ p ∈ PADROES, acusa runtime A f linha p = true

/-- There is something to report in the file. -/
def HasSecret (runtime : Runtime) (A : Compiled) (conteudo : Text → Option (List UInt8)) (f : Text) :
    Prop :=
  pulado A f = false ∧ (NOME_PROIBIDO f = true ∨
    (BIN_EXT f = false ∧ ∃ buf, conteudo f = some buf ∧ 0 ∉ buf ∧ Acusado runtime A f buf))

theorem file_of_mem_naLinha {runtime : Runtime} {A : Compiled} {f linha : Text} {i : ℕ} {x : Achado}
    (h : x ∈ naLinha runtime A f i linha) : x.f = f := by
  rw [naLinha] at h
  split at h
  · cases h
  · obtain ⟨p, -, rfl⟩ := List.mem_map.mp h
    rfl

theorem naLinha_ne_nil_iff {runtime : Runtime} {A : Compiled} {f linha : Text} {i : ℕ} :
    naLinha runtime A f i linha ≠ [] ↔
      (units linha).length ≤ 500 ∧ ∃ p ∈ PADROES, acusa runtime A f linha p = true := by
  rw [naLinha]
  split
  · rename_i hlong
    simp [hlong]
  · rename_i hshort
    simp [Nat.le_of_not_lt hshort]

theorem file_of_mem_doArquivo {runtime : Runtime} {A : Compiled}
    {conteudo : Text → Option (List UInt8)} {f : Text} {x : Achado}
    (h : x ∈ doArquivo runtime A conteudo f) : x.f = f := by
  rw [doArquivo] at h
  split at h
  · cases h
  · split at h
    · rw [List.mem_singleton.mp h, segredo]
    · split at h
      · cases h
      · split at h
        · cases h
        · split at h
          · cases h
          · obtain ⟨linha, -, hx⟩ := List.mem_flatMap.mp h
            exact file_of_mem_naLinha hx

theorem linhas_ne_nil_iff {runtime : Runtime} {A : Compiled} {f : Text} {buf : List UInt8} :
    (((runtime.decode buf).splitOn '\n').zipIdx.flatMap fun linha =>
        naLinha runtime A f linha.2 linha.1) ≠ [] ↔ Acusado runtime A f buf := by
  rw [ne_eq, List.flatMap_eq_nil_iff, not_forall]
  constructor
  · rintro ⟨linha, h⟩
    rw [Classical.not_imp] at h
    exact ⟨linha.1, List.fst_mem_of_mem_zipIdx h.1, naLinha_ne_nil_iff.mp h.2⟩
  · rintro ⟨linha, hmem, hacusa⟩
    obtain ⟨i, hi⟩ := List.mem_iff_getElem?.mp hmem
    refine ⟨(linha, i), fun h => ?_⟩
    exact naLinha_ne_nil_iff.mpr hacusa (h (List.mk_mem_zipIdx_iff_getElem?.mpr hi))

theorem doArquivo_ne_nil_iff {runtime : Runtime} {A : Compiled}
    {conteudo : Text → Option (List UInt8)} {f : Text} :
    doArquivo runtime A conteudo f ≠ [] ↔ HasSecret runtime A conteudo f := by
  rw [doArquivo, HasSecret]
  split
  · rename_i hskip
    simp [hskip]
  · rename_i hskip
    have hskip : pulado A f = false := by simpa using hskip
    rw [hskip]
    split
    · rename_i hname
      simp [hname]
    · rename_i hname
      split
      · rename_i hbin
        simp [hname, hbin]
      · rename_i hbin
        split
        · rename_i hnone
          simp [hname, hnone]
        · rename_i buf hsome
          split
          · rename_i hzero
            have hmem : 0 ∈ buf := List.contains_iff_mem.mp hzero
            simp [hname, hsome, hmem]
          · rename_i hzero
            have hmem : 0 ∉ buf := fun h => hzero (List.contains_iff_mem.mpr h)
            rw [linhas_ne_nil_iff]
            simp [hname, hbin, hsome, hmem]

end SecretScan
end Batiste
