import Batiste.ByteCodec
import Batiste.JsString
import Batiste.Matcher

/-! What `deploy-integrity post` asks of a deployment: every staged file is fetched, and its status,
its type and its body are compared with the commit. -/
namespace Batiste
namespace DeployPost

open JsString Matcher ByteCodec

abbrev Text := List Char

/-! ## The stage -/

/-- What `readdir` finds; `other` is neither a file nor a directory. -/
inductive Node
  | file (content : Bytes)
  | dir (entries : List (Text × Node))
  | other

def joined (rel name : Text) : Text := if rel = [] then name else rel ++ '/' :: name

/-- The paths of the files with their contents, of which the source keeps the hashes. -/
def Node.files (rel : Text) : Node → List (Text × Bytes)
  | .file content => [(rel, content)]
  | .dir entries => walk rel entries
  | .other => []
where
  walk (rel : Text) : List (Text × Node) → List (Text × Bytes)
    | [] => []
    | (name, node) :: entries =>
      (if name = ".DS_Store".toList then [] else node.files (joined rel name)) ++ walk rel entries

def hashTree (pub : List (Text × Node)) : List (Text × Bytes) := Node.files.walk [] pub

/-! ## The common form of two pages -/

/-- `\b` behind a letter -/
def wordEnd : Matcher := ahead fun cs => !cs.head?.any isWord

def isQuote (c : Char) : Bool := c == '"' || c == '\''

def notClose (c : Char) : Bool := c != '>'

def isMailLocal (c : Char) : Bool :=
  c.isAlphanum || c == '.' || c == '_' || c == '%' || c == '+' || c == '-'

def isMailHost (c : Char) : Bool := c.isAlphanum || c == '-'

/-- `<name\b[^>]*` -/
def tagStart (name : String) : Matcher :=
  all [litI ('<' :: name.toList), wordEnd, star notClose]

/-- `<\/name\s*>` -/
def tagEnd (name : String) : Matcher :=
  all [litI ('<' :: '/' :: name.toList), star isSpace, lit ['>']]

def text (s : String) : Matcher := litI s.toList

def beaconTag : Matcher :=
  all [tagStart "script", alt (text "static.cloudflareinsights.com") (text "data-cf-beacon"),
    star notClose, lit ['>'], star isSpace, tagEnd "script"]

def beaconScript : Matcher :=
  all [tagStart "script", lit ['>'], star (· != '<'), text "cloudflareinsights", star (· != '<'),
    tagEnd "script"]

/-- `(?:(?!<\/script)[\s\S])*` -/
def insideScript : Matcher :=
  starBefore fun cs => !(text "</script" cs).isEmpty

def challengeScript : Matcher :=
  all [tagStart "script", lit ['>'], insideScript, text "__CF$cv$params", insideScript,
    tagEnd "script"]

def cdnCgiScript : Matcher :=
  all [tagStart "script", text "/cdn-cgi/", star notClose, lit ['>'], star isSpace,
    tagEnd "script"]

/-- A link whose `href` begins with a text. -/
def anchorTo (href : String) : Matcher :=
  all [tagStart "a", text "href=", cls isQuote, text href, star (fun c => !isQuote c), cls isQuote,
    star notClose, lit ['>'], lazyAny, tagEnd "a"]

def emailSpan : Matcher :=
  all [tagStart "span", text "class=", cls isQuote, text "__cf_email__", cls isQuote,
    star notClose, lit ['>'], lazyAny, tagEnd "span"]

def protectionLink : Matcher := all [text "/cdn-cgi/l/email-protection#", plus isHex]

def email : Matcher :=
  all [plus isMailLocal, lit ['@'], plus isMailHost, some_ (all [lit ['.'], plus isMailHost])]

def cacheBust : Matcher :=
  all [cls fun c => c == '?' || c == '&', lit "_di=".toList, plus Char.isDigit, opt (lit ['&'])]

def drop (_ : List Char) : List Char := []

def marker (_ : List Char) : List Char := "[email]".toList

/-- The first character of a match that ends in `&`. -/
def keepFirst (w : List Char) : List Char := if w.getLast? = some '&' then w.take 1 else []

def isBlank (c : Char) : Bool := c == ' ' || c == '\t'

def trimLines (cs : List Char) : List Char :=
  ['\n'].intercalate ((cs.splitOn '\n').map (List.rdropWhile isBlank))

def normalizarHtml (txt : List Char) : List Char :=
  let t := replace (lit ['\r', '\n']) (fun _ => ['\n']) txt
  let t := replace beaconTag drop t
  let t := replace beaconScript drop t
  let t := replace challengeScript drop t
  let t := replace cdnCgiScript drop t
  let t := replace (anchorTo "/cdn-cgi/l/email-protection") marker t
  let t := replace emailSpan marker t
  let t := replace protectionLink marker t
  let t := replace (anchorTo "mailto:") marker t
  let t := replace email marker t
  let t := replace cacheBust keepFirst t
  (trimLines t).rdropWhile isSpace

/-! ## The managed block of `robots.txt` -/

/-- The place where a word begins a line. -/
def lineStart (w : Text) : Option Char → Text → Option ℕ
  | _, [] => none
  | before, c :: cs =>
    if before.all isLineTerminator && w.isPrefixOf (c :: cs) then some 0
    else (lineStart w (some c) cs).map (· + 1)

/-- `/^\s*(#.*)?$/` on a line -/
def isComment (line : Text) : Bool :=
  match line.dropWhile isSpace with
  | [] => true
  | c :: cs => c == '#' && !cs.any isLineTerminator

/-- `/(^|\/)robots\.txt$/` -/
def isRobots (rel : Text) : Bool :=
  rel == "robots.txt".toList || "/robots.txt".toList.isSuffixOf rel

section Bodies

variable (decode : Bytes → Text)

def semBlocoGerenciado (buf : Bytes) (rel : Text) : Bytes :=
  if isRobots rel then
    let txt := decode buf
    let endMark := "# END Cloudflare Managed Content".toList
    match lineStart "# BEGIN Cloudflare Managed".toList none txt, lineStart endMark none txt with
    | some i, some m =>
      let antes := txt.take i
      let depois := ((txt.drop (m + endMark.length)).dropWhile (· != '\n')).drop 1
      let kept := if (antes.splitOn '\n').all isComment then depois else antes ++ depois
      utf8 (String.ofList (kept.dropWhile isSpace))
    | _, _ => buf
  else buf

/-- `await r.text()`: a byte order mark is left out. -/
def responseText (corpo : Bytes) : Text :=
  if [0xEF, 0xBB, 0xBF].isPrefixOf corpo then decode (corpo.drop 3) else decode corpo

end Bodies

/-! ## Configuration, types and addresses -/

def htmlDinamico (padroes : List Text) (rel : Text) : Bool :=
  let bare (p : Text) : Text := if p.head? = some '/' then p.drop 1 else p
  let r := bare rel
  padroes.any fun p0 =>
    let p := bare p0
    if ['/', '*'].isSuffixOf p then p.dropLast.isPrefixOf r
    else if ['/'].isSuffixOf p then p.isPrefixOf r
    else r == p || (p ++ ['/']).isPrefixOf r

/-- A word to find in a type, at its beginning or anywhere, in any letter case. -/
inductive Word
  | leading (w : String)
  | anywhere (w : String)

def Word.test (ct : Text) : Word → Bool
  | .leading w => !(litI w.toList ct).isEmpty
  | .anywhere w => ct.tails.any fun rest => !(litI w.toList rest).isEmpty

def CT_ESPERADO : List (List String × List Word) :=
  [(["js", "mjs"], [.anywhere "javascript", .anywhere "ecmascript"]),
    (["css"], [.leading "text/css"]),
    (["json"], [.anywhere "json"]),
    (["webmanifest"], [.anywhere "json", .anywhere "manifest"]),
    (["png", "jpg", "jpeg", "webp", "gif", "svg", "avif"], [.leading "image/"]),
    (["ico"], [.leading "image/", .anywhere "icon"]),
    (["mp4", "webm"], [.leading "video/"]),
    (["mp3", "wav", "m4a"], [.leading "audio/"]),
    (["woff", "woff2"], [.anywhere "font", .anywhere "octet"]),
    (["txt"], [.leading "text/"]),
    (["xml"], [.anywhere "xml"]),
    (["pdf"], [.anywhere "pdf"])]

/-- A name that the table inherits is no expression: the test throws. -/
def tipoPlausivel (ext ct : Text) : Option Bool :=
  if ext = "html".toList then some ((Word.anywhere "text/html").test ct)
  else if (Word.leading "text/html").test ct then some false
  else if ext = "constructor".toList ∨ ext = "__proto__".toList then none
  else
    match CT_ESPERADO.find? fun row => row.1.any fun name => decide (name.toList = ext) with
    | some row => some (row.2.any (Word.test ct))
    | none => some true

def urlDe (rel : Text) : Text :=
  if rel = "index.html".toList then ['/']
  else if "/index.html".toList.isSuffixOf rel then '/' :: rel.take (rel.length - 10)
  else '/' :: rel

def ext (rel : Text) : Text := (((rel.splitOn '.').getLast?).getD []).map Char.toLower

/-! ## The answers -/

structure Response where
  status : ℕ
  contentType : Option Text
  /-- Reading the body can fail. -/
  body : Option Bytes

/-- The outcome of each attempt at an address. -/
abbrev Server := Text → ℕ → Except Text Response

def tentar (fetchFn : ℕ → Except Text Response) : ℕ → ℕ → Except Text Response
  | 0, t => fetchFn t
  | left + 1, t =>
    match fetchFn t with
    | .ok r => .ok r
    | .error _ => tentar fetchFn left (t + 1)

/-- Three attempts; the error is that of the last one. -/
def fetchComRetry (fetchFn : ℕ → Except Text Response) : Except Text Response :=
  tentar fetchFn 2 1

inductive Falha
  | semResposta (url message : Text)
  | portao (url : Text) (status : ℕ)
  | http (url : Text) (status : ℕ)
  | tipo (url ct ext : Text)
  | conteudo (url head : Text)
  | html (url head : Text)
  deriving DecidableEq, Repr

def Falha.texto : Falha → Text
  | .semResposta url message =>
    url ++ ": sem resposta apos 3 tentativas (".toList ++ message ++ ")".toList
  | .portao url status => url ++ ": caminho gated respondeu HTTP ".toList ++
      (toString status).toList ++ " pro anônimo (portão caiu?)".toList
  | .http url status => url ++ ": HTTP ".toList ++ (toString status).toList
  | .tipo url ct ext => url ++ ": tipo \"".toList ++ ct ++ "\" para .".toList ++ ext ++
      " (o arquivo não está no ar: o Pages devolveu a página inicial no lugar)".toList
  | .conteudo url head => url ++ ": conteúdo no ar diferente do commit ".toList ++ head.take 8 ++
      " (sha256 não bate)".toList
  | .html url head => "HTML no ar difere do commit ".toList ++ head.take 8 ++ ": ".toList ++ url

/-- The digests tell byte strings apart; `decode` reads UTF-8. -/
structure Runtime (D : Type*) where
  sha : Bytes → D
  sha_injective : Function.Injective sha
  decode : Bytes → Text

structure Deploy where
  pub : List (Text × Node)
  gated : List Text
  dinamicos : List Text
  host : Text
  head : Text
  stamp : ℕ
  server : Server

/-- `/^_(headers|redirects|routes)/.test(rel) || rel === ".assetsignore"` -/
def ignorado (rel : Text) : Bool :=
  ["_headers", "_redirects", "_routes"].any (fun w => w.toList.isPrefixOf rel) ||
    rel == ".assetsignore".toList

section Post

variable {D : Type*} [DecidableEq D] (rt : Runtime D) (d : Deploy)

def Deploy.url (rel : Text) : Text :=
  (if d.host.getLast? = some '/' then d.host.dropLast else d.host) ++ urlDe rel ++
    (if '?' ∈ urlDe rel then ['&'] else ['?']) ++ "_di=".toList ++ (toString d.stamp).toList

def Deploy.answer (rel : Text) : Except Text Response := fetchComRetry (d.server (d.url rel))

def Deploy.atrasDoPortao (rel : Text) : Bool := d.gated.any fun p => p.isPrefixOf rel

def Runtime.hashHtml (txt : Text) : D := rt.sha (utf8 (String.ofList (normalizarHtml txt)))

/-- The failures that a file adds; none where the source throws. -/
def confere (rel : Text) (content : Bytes) : Option (List Falha) :=
  if ignorado rel then some []
  else match d.answer rel with
    | .error message => some [.semResposta (urlDe rel) message]
    | .ok r =>
      let ct := r.contentType.getD []
      if d.atrasDoPortao rel then
        if r.status = 401 ∨ r.status = 403 then some [] else some [.portao (urlDe rel) r.status]
      else if r.status ≠ 200 then some [.http (urlDe rel) r.status]
      else match tipoPlausivel (ext rel) ct with
        | none => none
        | some false => some [.tipo (urlDe rel) ct (ext rel)]
        | some true =>
          if ext rel ≠ "html".toList then
            r.body.map fun corpo =>
              if rt.sha (semBlocoGerenciado rt.decode corpo rel) ≠ rt.sha content then
                [.conteudo (urlDe rel) d.head]
              else []
          else if htmlDinamico d.dinamicos rel then some []
          else
            r.body.map fun corpo =>
              if rt.hashHtml (responseText rt.decode corpo) ≠ rt.hashHtml (rt.decode content) then
                [.html (urlDe rel) d.head]
              else []

def post : Option (List Falha) :=
  ((hashTree d.pub).mapM fun f => confere rt d f.1 f.2).map List.flatten

/-! ## What a green run proves -/

/-- The files that configure Pages. -/
def controle : List Text :=
  ["_headers", "_redirects", "_routes.json", ".assetsignore"].map String.toList

/-- The body on the air is the committed one; pages are compared in their common form. -/
def SameBody (rel : Text) (content : Bytes) (r : Response) : Prop :=
  ∃ corpo, r.body = some corpo ∧
    if ext rel = "html".toList then
      normalizarHtml (responseText rt.decode corpo) = normalizarHtml (rt.decode content)
    else semBlocoGerenciado rt.decode corpo rel = content

/-- Behind the gate the file is refused; any other file is answered with its body, unless it is
dynamic HTML. -/
def Publicado (rel : Text) (content : Bytes) : Prop :=
  ∃ r, d.answer rel = .ok r ∧
    if d.atrasDoPortao rel then r.status = 401 ∨ r.status = 403
    else r.status = 200 ∧
      (SameBody rt rel content r ∨ ext rel = "html".toList ∧ htmlDinamico d.dinamicos rel = true)

/-- The type of the answer is plausible where it is looked at. -/
def TipoCerto (rel : Text) : Prop :=
  d.atrasDoPortao rel = true ∨
    ∃ r, d.answer rel = .ok r ∧ tipoPlausivel (ext rel) (r.contentType.getD []) = some true

variable {rt d} {rel : Text} {content : Bytes}

omit [DecidableEq D] in
theorem hashHtml_eq_iff {a b : Text} :
    rt.hashHtml a = rt.hashHtml b ↔ normalizarHtml a = normalizarHtml b := by
  unfold Runtime.hashHtml
  rw [rt.sha_injective.eq_iff, utf8_injective.eq_iff, String.ofList_inj]

/-- The comparison of the bodies by their digests. -/
theorem body_check_iff {r : Response} {differs : Bytes → Prop} [DecidablePred differs]
    {falha : Falha} :
    (r.body.map fun corpo => if differs corpo then [falha] else []) = some [] ↔
      ∃ corpo, r.body = some corpo ∧ ¬ differs corpo := by
  cases r.body with
  | none => simp
  | some corpo => simp

theorem confere_eq_nil_iff (hrel : ignorado rel = false) :
    confere rt d rel content = some [] ↔ Publicado rt d rel content ∧ TipoCerto d rel := by
  unfold confere Publicado TipoCerto
  rw [hrel, if_neg Bool.false_ne_true]
  cases hanswer : d.answer rel with
  | error message => simp
  | ok r =>
    simp only [Except.ok.injEq, exists_eq_left']
    cases hportao : d.atrasDoPortao rel with
    | true => simp [or_iff_not_imp_left]
    | false =>
      simp only [Bool.false_eq_true, if_false, false_or]
      by_cases hstatus : r.status = 200
      · rw [if_neg (not_not.mpr hstatus)]
        cases htipo : tipoPlausivel (ext rel) (r.contentType.getD []) with
        | none => simp
        | some right =>
          cases right with
          | false => simp
          | true =>
            simp only [hstatus, true_and, and_true]
            unfold SameBody
            by_cases hext : ext rel = "html".toList
            · rw [if_neg (not_not.mpr hext)]
              simp only [hext, if_true, true_and]
              cases hdin : htmlDinamico d.dinamicos rel with
              | true => simp
              | false =>
                rw [if_neg Bool.false_ne_true, body_check_iff]
                simp only [ne_eq, not_not, hashHtml_eq_iff, Bool.false_eq_true, or_false]
            · rw [if_pos hext, body_check_iff]
              simp only [hext, ne_eq, not_not, rt.sha_injective.eq_iff, if_false, false_and,
                or_false]
      · rw [if_pos hstatus]
        simp [hstatus]

theorem confere_ignorado (hrel : ignorado rel = true) : confere rt d rel content = some [] := by
  rw [confere, if_pos hrel]

theorem mapM_flatten_eq_nil {α β : Type*} {f : α → Option (List β)} {xs : List α} :
    (xs.mapM f).map List.flatten = some [] ↔ ∀ x ∈ xs, f x = some [] := by
  induction xs with
  | nil => simp
  | cons x xs ih =>
    rw [List.forall_mem_cons, ← ih, List.mapM_cons]
    cases hx : f x with
    | none => simp
    | some ys =>
      cases hxs : xs.mapM f with
      | none => simp
      | some yss => simp

/-- A run without failures: every file that is fetched is as it has to be. -/
theorem post_eq_nil_iff : post rt d = some [] ↔ ∀ f ∈ hashTree d.pub, ignorado f.1 = false →
    Publicado rt d f.1 f.2 ∧ TipoCerto d f.1 := by
  rw [post, mapM_flatten_eq_nil]
  refine forall₂_congr fun f _ => ?_
  cases hrel : ignorado f.1 with
  | true => simp [confere_ignorado hrel]
  | false => simp [confere_eq_nil_iff hrel]

/-- A green run proves the deployment just when, the fetched files being right, those whose names
only begin like that of a control file are right as well. -/
theorem post_proves_iff (rt : Runtime D) (d : Deploy) :
    (post rt d = some [] →
      ∀ f ∈ hashTree d.pub, f.1 ∉ controle → Publicado rt d f.1 f.2) ↔
    ((∀ f ∈ hashTree d.pub, ignorado f.1 = false →
        Publicado rt d f.1 f.2 ∧ TipoCerto d f.1) →
      ∀ f ∈ hashTree d.pub, ignorado f.1 = true → f.1 ∉ controle → Publicado rt d f.1 f.2) := by
  rw [post_eq_nil_iff]
  refine imp_congr_right fun hfetched => ⟨fun h f hf _ hcontrole => h f hf hcontrole, ?_⟩
  intro h f hf hcontrole
  cases hrel : ignorado f.1 with
  | true => exact h f hf hrel hcontrole
  | false => exact (hfetched f hf hrel).1

end Post

/-- The digests of short texts as the texts themselves. -/
def plain : Runtime Bytes where
  sha := id
  sha_injective := Function.injective_id
  decode bs := bs.map fun b => Char.ofNat b.toNat

/-- A page whose name begins like that of a control file, and a server that has nothing. -/
def lost : Deploy where
  pub := [(['_', 'h', 'e', 'a', 'd', 'e', 'r', 's', '.', 'h', 't', 'm', 'l'], .file [104, 105])]
  gated := []
  dinamicos := []
  host := ['h']
  head := []
  stamp := 0
  server _ _ := .ok ⟨404, none, some []⟩

/-- The run is green although the only page of the product is not found. -/
theorem lost_page_green : post plain lost = some [] ∧
    ∃ f ∈ hashTree lost.pub, f.1 ∉ controle ∧ ¬ Publicado plain lost f.1 f.2 := by
  refine ⟨rfl, _, List.mem_cons_self, by decide, ?_⟩
  rintro ⟨r, hr, hgood⟩
  obtain rfl := Except.ok.inj (show Except.ok ⟨404, none, some []⟩ = Except.ok r from hr)
  exact absurd hgood.1 (by decide)

end DeployPost
end Batiste
