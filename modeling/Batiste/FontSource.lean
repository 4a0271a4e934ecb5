import Batiste.JsString
import Batiste.Matcher
import Batiste.NodePath

/-! The check of a product's sources for fonts of a CDN: comments are blanked, and the lines that
still name a font host are reported. -/
namespace Batiste
namespace FontSource

open JsString Matcher

abbrev Text := List Char

def CDN_FONT_HOSTS : List Text := ["fonts.googleapis.com", "fonts.gstatic.com"].map String.toList

/-- `CDN_RE.test(line)` -/
def cdnTest (line : Text) : Bool :=
  line.tails.any fun rest => CDN_FONT_HOSTS.any fun host => !(litI host rest).isEmpty

/-! ## Comments -/

def htmlComment : Matcher := all [lit ['<', '!', '-', '-'], lazyAny, lit ['-', '-', '>']]

def cssComment : Matcher := all [lit ['/', '*'], lazyAny, lit ['*', '/']]

/-- A character of two code units gives one blank here, which no line and no report shows. -/
def blank (c : Char) : Char := if c = '\n' then '\n' else ' '

def blankComments (text : Text) : Text :=
  replace cssComment (List.map blank) (replace htmlComment (List.map blank) text)

/-! ## The sources -/

/-- What `stat` says of a name; a file may still be unreadable. -/
inductive Node
  | file (content : Option Text)
  | dir (entries : List (Text × Node))
  | missing

structure SourceFile where
  path : Text
  ext : Text
  content : Option Text

def SKIP_DIRS : List Text :=
  ["node_modules", "dist", ".git", ".wrangler", "_scratch"].map String.toList

/-- `join(dir, name)` of a normal path -/
def join (dir name : Text) : Text :=
  if dir = ['.'] then name else if dir.getLast? = some '/' then dir ++ name else dir ++ '/' :: name

def extOf (name : Text) : Text := (NodePath.extname (String.ofList name)).toList.map Char.toLower

/-- The files below a node that is found under a path and a name. -/
def Node.files (full name : Text) : Node → List SourceFile
  | .file content => [⟨full, extOf name, content⟩]
  | .dir entries => below full entries
  | .missing => []
where
  below (dir : Text) : List (Text × Node) → List SourceFile
    | [] => []
    | (name, node) :: entries =>
      (if name ∈ SKIP_DIRS then [] else node.files (join dir name) name) ++ below dir entries

/-- A directory in which every path is found once. -/
structure SourceDir where
  root : Text
  entries : List (Text × Node)
  paths_nodup : ((Node.files.below root entries).map SourceFile.path).Nodup

def SourceDir.walk (d : SourceDir) (exts : List Text) : List SourceFile :=
  (Node.files.below d.root d.entries).filter fun f => decide (f.ext ∈ exts)

/-! ## The report -/

structure Finding where
  file : Text
  line : ℕ
  text : Text
  deriving DecidableEq

def rawLine (raw : Text) (i : ℕ) : Text := (raw.splitOn '\n')[i]?.getD []

def fileOffenders (file raw : Text) : List Finding :=
  ((blankComments raw).splitOn '\n').zipIdx.filterMap fun line =>
    if cdnTest line.1 then some ⟨file, line.2 + 1, trim (rawLine raw line.2)⟩ else none

def isQuote (c : Char) : Bool := c == '"' || c == '\''

/-- `/^(font-src|style-src)\b/i` and a font host -/
def trustsHost (directive : Text) : Bool :=
  ["font-src", "style-src"].any (fun w =>
    !(seq (litI w.toList) (ahead fun rest => !rest.head?.any isWord) directive).isEmpty) &&
    cdnTest directive

def cspWarn (file csp : Text) : List Finding :=
  ((csp.splitOn ';').map trim).filterMap fun directive =>
    if trustsHost directive then some ⟨file, 0, directive⟩ else none

def metaCsp : Matcher :=
  all [litI "content-security-policy".toList, star (· != '>'), litI "content".toList, star isSpace,
    lit ['='], star isSpace, cls isQuote, plus (fun c => !isQuote c), cls isQuote]

/-- The group of a match: what stands between the quotes at its end. -/
def quoted (w : Text) : Text := w.dropLast.rtakeWhile fun c => !isQuote c

/-- The group of `/content-security-policy\s*:\s*(.+)$/i` on a trimmed line. -/
def headerCsp (line : Text) : Option Text :=
  line.tails.findSome? fun rest =>
    ((seq (litI "content-security-policy".toList) (seq (star isSpace) (lit [':']))) rest).head?.bind
      fun n =>
        let csp := (rest.drop n).dropWhile isSpace
        if csp = [] ∨ csp.any isLineTerminator then none else some csp

def headerWarnings (file raw : Text) : List Finding :=
  ((raw.splitOn '\n').map trim).flatMap fun line =>
    if line.head? = some '#' then []
    else match headerCsp line with
      | some csp => cspWarn file csp
      | none => []

structure Scan where
  offenders : List Finding
  warnings : List Finding

def HTML : Text := ".html".toList

def CSS : Text := ".css".toList

def scanForCdnFonts (d : SourceDir) : Scan where
  offenders := (d.walk [HTML, CSS]).flatMap fun f => f.content.elim [] (fileOffenders f.path)
  warnings :=
    ((d.walk [HTML]).flatMap fun f => f.content.elim [] fun raw =>
      (findAll metaCsp raw).flatMap fun w => cspWarn f.path (quoted w)) ++
    ((d.walk [[]]).filter fun f => "/_headers".toList.isSuffixOf f.path).flatMap fun f =>
      f.content.elim [] (headerWarnings f.path)

/-! ## What of a page is live -/

/-- Where a character of a page stands. -/
inductive Place
  | data
  | tag
  | comment
  | element
  deriving DecidableEq, Repr

inductive Attribute
  | name
  | value
  | unquoted
  | quoted (q : Char)
  deriving DecidableEq, Repr

/-- Where a reader of the page is; `opening` and `closing` count the characters left of the marks
around a comment, and a tag may open an element that is read as text. -/
inductive Reading
  | data
  | opening (left : ℕ)
  | comment (fresh : Bool)
  | closing (left : ℕ)
  | tag (place : Place) (opens : Option (Text × Place)) (att : Attribute)
  | raw (name : Text) (place : Place)
  deriving DecidableEq, Repr

/-- The elements whose content is read as text; those of styles and scripts are set apart. -/
def rawElements : List (Text × Place) :=
  (["style", "script"].map fun name => (name.toList, .element)) ++
    (["title", "textarea", "xmp", "iframe", "noembed", "noframes"].map fun name =>
      (name.toList, .data))

def endsName (c : Char) : Bool := isSpace c || c == '/' || c == '>'

/-- The name of the tag that opens after `<`, with whether it is an end tag. -/
def tagName (cs : Text) : Option (Bool × Text) :=
  let closes := cs.head? == some '/'
  let rest := if closes then cs.drop 1 else cs
  if rest.head?.any Char.isAlpha then
    some (closes, (rest.takeWhile fun c => !endsName c).map Char.toLower)
  else none

/-- The end tag of an element. -/
def closesElement (name cs : Text) : Bool :=
  !(litI ('<' :: '/' :: name) cs).isEmpty && (cs.drop (name.length + 2)).head?.any endsName

def afterTag : Option (Text × Place) → Reading
  | none => .data
  | some (name, place) => .raw name place

def Attribute.step (c : Char) : Attribute → Attribute
  | .name => if c = '=' then .value else .name
  | .value =>
    if isSpace c then .value else if isQuote c then .quoted c else .unquoted
  | .unquoted => if isSpace c then .name else .unquoted
  | .quoted q => if c = q then .name else .quoted q

/-- The place of the next character, and where the reader is after it. -/
def Reading.step (c : Char) (cs : Text) : Reading → Place × Reading
  | .data =>
    if ['<', '!', '-', '-'].isPrefixOf (c :: cs) then (.comment, .opening 3)
    else if c = '<' then
      match tagName cs with
      | none => (.data, .data)
      | some (true, _) => (.tag, .tag .tag none .name)
      | some (false, name) =>
        let opens := rawElements.find? fun e => decide (e.1 = name)
        let place := if opens.any fun e => decide (e.2 = .element) then .element else .tag
        (place, .tag place opens .name)
    else (.data, .data)
  | .opening left => (.comment, if left = 1 then .comment true else .opening (left - 1))
  | .comment fresh =>
    if fresh ∧ c = '>' then (.comment, .data)
    else if fresh ∧ ['-', '>'].isPrefixOf (c :: cs) then (.comment, .closing 1)
    else if ['-', '-', '>'].isPrefixOf (c :: cs) then (.comment, .closing 2)
    else if ['-', '-', '!', '>'].isPrefixOf (c :: cs) then (.comment, .closing 3)
    else (.comment, .comment false)
  | .closing left => (.comment, if left = 1 then .data else .closing (left - 1))
  | .tag place opens att =>
    let within := match att with
      | .quoted _ => true
      | _ => false
    if c = '>' ∧ within = false then (place, afterTag opens)
    else (place, .tag place opens (att.step c))
  | .raw name place =>
    if closesElement name (c :: cs) then
      let own := if place = .element then .element else .tag
      (own, .tag own none .name)
    else (place, .raw name place)

def places : Reading → Text → List Place
  | _, [] => []
  | r, c :: cs => (r.step c cs).1 :: places (r.step c cs).2 cs

/-! ## Occurrences -/

def Occurs (host text : Text) (i : ℕ) : Prop := host <+: (text.drop i).map Char.toLower

def lineOf (text : Text) (i : ℕ) : ℕ := (text.take i).count '\n'

/-- The occurrence lies outside comments and outside style and script elements. -/
def Live (host raw : Text) (i : ℕ) : Prop :=
  ∀ j < host.length, (places .data raw)[i + j]? = some .data ∨ (places .data raw)[i + j]? = some .tag

/-- The characters that the comment spans of the gate cover. -/
def htmlSpans (raw : Text) : List Bool := cover htmlComment raw

def cssSpans (raw : Text) : List Bool := cover cssComment (maskWith blank raw (htmlSpans raw))

/-- No span of the gate touches the occurrence. -/
def Clear (host raw : Text) (i : ℕ) : Prop :=
  ∀ j < host.length, (htmlSpans raw)[i + j]? = some false ∧ (cssSpans raw)[i + j]? = some false

/-! ## Blanked spans -/

theorem masked_newlines {cs : Text} {marks : List Bool} (h : marks.length = cs.length) :
    (maskWith blank cs marks).map (· == '\n') = cs.map (· == '\n') := by
  induction cs generalizing marks with
  | nil => simp [maskWith]
  | cons c cs ih =>
    cases marks with
    | nil => cases h
    | cons b marks =>
      have hrest := ih (Nat.succ.inj h)
      have hhead : ((if b then blank c else c) == '\n') = (c == '\n') := by
        cases b with
        | false => rfl
        | true =>
          by_cases hc : c = '\n'
          · simp [blank, hc]
          · simp [blank, hc]
      rw [maskWith, List.zipWith_cons_cons, List.map_cons, List.map_cons, hhead]
      exact congrArg _ hrest

theorem length_maskWith {cs : Text} {marks : List Bool} (h : marks.length = cs.length) :
    (maskWith blank cs marks).length = cs.length := by
  rw [maskWith, List.length_zipWith, h, Nat.min_self]

theorem blankComments_eq (raw : Text) : blankComments raw =
    maskWith blank (maskWith blank raw (htmlSpans raw)) (cssSpans raw) := by
  rw [blankComments, replace_map, replace_map]
  rfl

theorem length_htmlSpans (raw : Text) : (htmlSpans raw).length = raw.length := length_cover raw

theorem length_cssSpans (raw : Text) :
    (cssSpans raw).length = (maskWith blank raw (htmlSpans raw)).length := length_cover _

/-- Blanking keeps every newline where it is. -/
theorem blankComments_newlines (raw : Text) :
    (blankComments raw).map (· == '\n') = raw.map (· == '\n') := by
  rw [blankComments_eq, masked_newlines (length_cssSpans raw),
    masked_newlines (length_htmlSpans raw)]

theorem lineOf_congr {a b : Text} (h : a.map (· == '\n') = b.map (· == '\n')) (i : ℕ) :
    lineOf a i = lineOf b i := by
  have hcount : ∀ t : Text, lineOf t i = ((t.map (· == '\n')).take i).countP id := by
    intro t
    rw [lineOf, List.count, ← List.map_take, List.countP_map]
    rfl
  rw [hcount, hcount, h]

/-! ## Occurrences in blanked texts -/

theorem prefix_masked_iff {host cs : Text} {marks : List Bool} (h : marks.length = cs.length)
    (hblank : ' ' ∉ host) (hnewline : '\n' ∉ host) :
    host <+: (maskWith blank cs marks).map Char.toLower ↔
      host <+: cs.map Char.toLower ∧ ∀ j < host.length, marks[j]? = some false := by
  induction host generalizing cs marks with
  | nil => simp
  | cons x host ih =>
    cases cs with
    | nil => simp [maskWith]
    | cons c cs =>
      cases marks with
      | nil => cases h
      | cons b marks =>
        have hrest := ih (Nat.succ.inj h) (fun hx => hblank (List.mem_cons_of_mem x hx))
          fun hx => hnewline (List.mem_cons_of_mem x hx)
        have hforall : (∀ j < (x :: host).length, (b :: marks)[j]? = some false) ↔
            b = false ∧ ∀ j < host.length, marks[j]? = some false := by
          rw [List.length_cons, Nat.forall_lt_succ_left']
          simp
        rw [hforall, maskWith, List.zipWith_cons_cons, List.map_cons, List.map_cons,
          List.cons_prefix_cons, List.cons_prefix_cons]
        cases b with
        | false =>
          simp only [Bool.false_eq_true, if_false, true_and, and_assoc]
          exact and_congr_right fun _ => hrest
        | true =>
          have hne : x ≠ (blank c).toLower := by
            rintro rfl
            unfold blank at hblank hnewline
            split at hblank
            · rename_i hc
              rw [if_pos hc] at hnewline
              exact hnewline List.mem_cons_self
            · exact hblank List.mem_cons_self
          simp [hne]

theorem occurs_masked_iff {host cs : Text} {marks : List Bool} (h : marks.length = cs.length)
    (hblank : ' ' ∉ host) (hnewline : '\n' ∉ host) (i : ℕ) :
    Occurs host (maskWith blank cs marks) i ↔
      Occurs host cs i ∧ ∀ j < host.length, marks[i + j]? = some false := by
  unfold Occurs
  rw [maskWith, List.drop_zipWith, ← maskWith,
    prefix_masked_iff (by rw [List.length_drop, List.length_drop, h]) hblank hnewline]
  simp only [List.getElem?_drop]

/-! ## Occurrences in lines -/

theorem host_plain {host : Text} (h : host ∈ CDN_FONT_HOSTS) :
    host ≠ [] ∧ ' ' ∉ host ∧ '\n' ∉ host ∧ host.map Char.toLower = host := by
  have hall : ∀ host ∈ CDN_FONT_HOSTS,
      host ≠ [] ∧ ' ' ∉ host ∧ '\n' ∉ host ∧ host.map Char.toLower = host := by decide
  exact hall host h

theorem cdnTest_iff {line : Text} :
    cdnTest line = true ↔ ∃ host ∈ CDN_FONT_HOSTS, ∃ i, Occurs host line i := by
  have hlit : ∀ host ∈ CDN_FONT_HOSTS, ∀ rest : Text,
      (!(litI host rest).isEmpty) = true ↔ host <+: rest.map Char.toLower := by
    intro host hhost rest
    rw [litI, (host_plain hhost).2.2.2, ← List.isPrefixOf_iff_prefix]
    cases host.isPrefixOf (rest.map Char.toLower) <;> simp
  rw [cdnTest, List.any_eq_true]
  constructor
  · rintro ⟨rest, hrest, htest⟩
    obtain ⟨host, hhost, hfound⟩ := List.any_eq_true.mp htest
    have hdrop := List.suffix_iff_eq_drop.mp ((List.mem_tails rest line).mp hrest)
    refine ⟨host, hhost, line.length - rest.length, ?_⟩
    rw [Occurs, ← hdrop]
    exact (hlit host hhost rest).mp hfound
  · rintro ⟨host, hhost, i, hoccurs⟩
    refine ⟨line.drop i, (List.mem_tails _ _).mpr (List.drop_suffix i line), ?_⟩
    exact List.any_eq_true.mpr ⟨host, hhost, (hlit host hhost _).mpr hoccurs⟩

/-- A word without newlines begins a text just when it begins its first line. -/
theorem prefix_line_iff {host line rest : Text} (hnewline : '\n' ∉ host) :
    host <+: (line ++ '\n' :: rest).map Char.toLower ↔ host <+: line.map Char.toLower := by
  induction host generalizing line with
  | nil => simp
  | cons x host ih =>
    cases line with
    | nil =>
      have hne : x ≠ '\n' := fun h => hnewline (h ▸ List.mem_cons_self)
      have hlower : ('\n').toLower = '\n' := by decide
      simp [List.cons_prefix_cons, hlower, hne]
    | cons c line =>
      rw [List.cons_append, List.map_cons, List.map_cons, List.cons_prefix_cons,
        List.cons_prefix_cons, ih fun h => hnewline (List.mem_cons_of_mem x h)]

theorem first_line {cs first : Text} {rest : List Text} (h : cs.splitOn '\n' = first :: rest) :
    cs = first ∨ ∃ tail, cs = first ++ '\n' :: tail := by
  have hjoin : ['\n'].intercalate (cs.splitOn '\n') = cs := List.intercalate_splitOn '\n'
  rw [h] at hjoin
  cases rest with
  | nil =>
    rw [List.intercalate_singleton] at hjoin
    exact .inl hjoin.symm
  | cons second rest =>
    rw [List.intercalate_cons_cons, List.append_assoc] at hjoin
    exact .inr ⟨_, hjoin.symm⟩

theorem lineOf_succ (c : Char) (cs : Text) (i : ℕ) :
    lineOf (c :: cs) (i + 1) = lineOf cs i + if c = '\n' then 1 else 0 := by
  rw [lineOf, List.take_succ_cons, List.count_cons, lineOf]
  simp

theorem not_occurs_nil {host : Text} (hne : host ≠ []) (i : ℕ) : ¬ Occurs host [] i := fun h =>
  hne (List.prefix_nil.mp (by simpa [Occurs] using h))

/-- The occurrences after a first character: at the beginning, or one of the rest. -/
theorem exists_occurs_cons {host cs : Text} {c : Char} {P : ℕ → Prop} :
    (∃ i, Occurs host (c :: cs) i ∧ P i) ↔
      Occurs host (c :: cs) 0 ∧ P 0 ∨ ∃ i, Occurs host cs i ∧ P (i + 1) :=
  Nat.or_exists_add_one.symm

/-- A line holds the host just when the text has an occurrence on this line. -/
theorem line_occurs_iff {host cs : Text} (hne : host ≠ []) (hnewline : '\n' ∉ host) {k : ℕ} :
    (∃ line, (cs.splitOn '\n')[k]? = some line ∧ ∃ i, Occurs host line i ∧ True) ↔
      ∃ i, Occurs host cs i ∧ lineOf cs i = k := by
  have hnone := not_occurs_nil hne
  induction cs generalizing k with
  | nil =>
    simp only [hnone, false_and, exists_false, iff_false, not_exists, not_and]
    rintro line hline i hi -
    rw [List.splitOn_nil, List.getElem?_singleton] at hline
    split at hline
    · exact hnone i (Option.some.inj hline ▸ hi)
    · cases hline
  | cons c cs ih =>
    obtain ⟨first, rest, hsplit⟩ := List.exists_cons_of_ne_nil (List.splitOn_ne_nil '\n' cs)
    rw [List.splitOn_cons_eq_if_modifyHead, exists_occurs_cons]
    by_cases hc : c = '\n'
    · have hstart : ¬ Occurs host (c :: cs) 0 := by
        intro h
        obtain ⟨x, host, rfl⟩ := List.exists_cons_of_ne_nil hne
        have hx : x = c.toLower := (List.cons_prefix_cons.mp h).1
        rw [hc] at hx
        exact hnewline (by rw [hx]; exact List.mem_cons_self)
      rw [if_pos (beq_iff_eq.mpr hc)]
      simp only [hstart, false_and, false_or, lineOf_succ, if_pos hc]
      cases k with
      | zero => simp [hnone]
      | succ k => simpa using ih (k := k)
    · rw [if_neg (mt beq_iff_eq.mp hc), hsplit, List.modifyHead_cons]
      simp only [lineOf_succ, if_neg hc, Nat.add_zero]
      have hrest := ih (k := k)
      rw [hsplit] at hrest
      cases k with
      | zero =>
        have hbegin : Occurs host (c :: first) 0 ↔ Occurs host (c :: cs) 0 := by
          rcases first_line hsplit with h | ⟨tail, h⟩
          · rw [h]
          · rw [h]
            exact (@prefix_line_iff host (c :: first) tail hnewline).symm
        simp only [List.getElem?_cons_zero, Option.some.injEq, exists_eq_left'] at hrest ⊢
        rw [exists_occurs_cons, hbegin]
        exact or_congr (and_congr_right fun _ => iff_of_true trivial rfl) hrest
      | succ k =>
        rw [List.getElem?_cons_succ] at hrest ⊢
        exact hrest.trans (or_iff_right fun h => absurd h.2 (Nat.succ_ne_zero k).symm).symm

/-! ## What the gate reports -/

theorem line_test_iff {cs : Text} {k : ℕ} :
    (∃ line, (cs.splitOn '\n')[k]? = some line ∧ cdnTest line = true) ↔
      ∃ host ∈ CDN_FONT_HOSTS, ∃ i, Occurs host cs i ∧ lineOf cs i = k := by
  constructor
  · rintro ⟨line, hline, htest⟩
    obtain ⟨host, hhost, i, hi⟩ := cdnTest_iff.mp htest
    have hplain := host_plain hhost
    exact ⟨host, hhost, (line_occurs_iff hplain.1 hplain.2.2.1).mp ⟨line, hline, i, hi, trivial⟩⟩
  · rintro ⟨host, hhost, hoccurs⟩
    have hplain := host_plain hhost
    obtain ⟨line, hline, i, hi, -⟩ := (line_occurs_iff hplain.1 hplain.2.2.1).mpr hoccurs
    exact ⟨line, hline, cdnTest_iff.mpr ⟨host, hhost, i, hi⟩⟩

theorem occurs_blanked_iff {host raw : Text} (hhost : host ∈ CDN_FONT_HOSTS) (i : ℕ) :
    Occurs host (blankComments raw) i ↔ Occurs host raw i ∧ Clear host raw i := by
  obtain ⟨-, hblank, hnewline, -⟩ := host_plain hhost
  rw [blankComments_eq, occurs_masked_iff (length_cssSpans raw) hblank hnewline,
    occurs_masked_iff (length_htmlSpans raw) hblank hnewline, and_assoc]
  unfold Clear
  simp only [forall_and]

/-- The report of the line of a place. -/
def offenderAt (file raw : Text) (i : ℕ) : Finding :=
  ⟨file, lineOf raw i + 1, trim (rawLine raw (lineOf raw i))⟩

theorem mem_fileOffenders {file raw : Text} {o : Finding} : o ∈ fileOffenders file raw ↔
    ∃ k, (∃ line, ((blankComments raw).splitOn '\n')[k]? = some line ∧ cdnTest line = true) ∧
      o = ⟨file, k + 1, trim (rawLine raw k)⟩ := by
  rw [fileOffenders, List.mem_filterMap]
  constructor
  · rintro ⟨⟨line, k⟩, hmem, ho⟩
    rw [List.mem_zipIdx_iff_getElem?] at hmem
    split at ho
    · rename_i htest
      exact ⟨k, ⟨line, hmem, htest⟩, (Option.some.inj ho).symm⟩
    · cases ho
  · rintro ⟨k, ⟨line, hline, htest⟩, rfl⟩
    exact ⟨(line, k), List.mem_zipIdx_iff_getElem?.mpr hline, if_pos htest⟩

/-- A line is reported just when an occurrence that no span touches stands on it. -/
theorem offenderAt_mem_iff {file raw : Text} {i : ℕ} :
    offenderAt file raw i ∈ fileOffenders file raw ↔
      ∃ host ∈ CDN_FONT_HOSTS, ∃ j, Occurs host raw j ∧ Clear host raw j ∧
        lineOf raw j = lineOf raw i := by
  have hlines := lineOf_congr (blankComments_newlines raw)
  rw [mem_fileOffenders]
  constructor
  · rintro ⟨k, hline, ho⟩
    obtain ⟨host, hhost, j, hoccurs, hj⟩ := line_test_iff.mp hline
    obtain ⟨hraw, hclear⟩ := (occurs_blanked_iff hhost j).mp hoccurs
    have hk : lineOf raw i + 1 = k + 1 := congrArg Finding.line ho
    exact ⟨host, hhost, j, hraw, hclear, by rw [← hlines, hj, Nat.succ.inj hk]⟩
  · rintro ⟨host, hhost, j, hraw, hclear, hj⟩
    refine ⟨lineOf raw i, line_test_iff.mpr ⟨host, hhost, j, ?_, ?_⟩, rfl⟩
    · exact (occurs_blanked_iff hhost j).mpr ⟨hraw, hclear⟩
    · rw [hlines, hj]

theorem file_of_mem {file raw : Text} {o : Finding} (h : o ∈ fileOffenders file raw) :
    o.file = file := by
  obtain ⟨k, -, rfl⟩ := mem_fileOffenders.mp h
  rfl

/-- The findings of a file are those that the scan reports under its path. -/
theorem mem_offenders_iff {d : SourceDir} {f : SourceFile} {raw : Text} {o : Finding}
    (hf : f ∈ d.walk [HTML, CSS]) (hraw : f.content = some raw) (ho : o.file = f.path) :
    o ∈ (scanForCdnFonts d).offenders ↔ o ∈ fileOffenders f.path raw := by
  rw [scanForCdnFonts, List.mem_flatMap]
  constructor
  · rintro ⟨other, hother, hmem⟩
    cases hcontent : other.content with
    | none =>
      rw [hcontent] at hmem
      cases hmem
    | some text =>
      rw [hcontent] at hmem
      have hpath : other.path = f.path := (file_of_mem hmem).symm.trans ho
      have hsame := List.inj_on_of_nodup_map d.paths_nodup (List.mem_of_mem_filter hother)
        (List.mem_of_mem_filter hf) hpath
      rw [hsame, hraw] at hcontent
      rw [hsame] at hmem
      exact Option.some.inj hcontent ▸ hmem
  · intro hmem
    exact ⟨f, hf, by rw [hraw]; exact hmem⟩

/-- Every live occurrence in a page makes its line an offender just when no span of the gate leaves
the line of one without an occurrence that it does not touch. -/
theorem live_reported_iff (d : SourceDir) :
    (∀ f ∈ d.walk [HTML, CSS], f.ext = HTML → ∀ raw, f.content = some raw →
      (∀ host ∈ CDN_FONT_HOSTS, ∀ i, Occurs host raw i → Live host raw i →
        offenderAt f.path raw i ∈ (scanForCdnFonts d).offenders) ∧
      (blankComments raw).map (· == '\n') = raw.map (· == '\n')) ↔
    ∀ f ∈ d.walk [HTML, CSS], f.ext = HTML → ∀ raw, f.content = some raw →
      ∀ host ∈ CDN_FONT_HOSTS, ∀ i, Occurs host raw i → Live host raw i →
        ∃ other ∈ CDN_FONT_HOSTS, ∃ j, Occurs other raw j ∧ Clear other raw j ∧
          lineOf raw j = lineOf raw i := by
  refine forall₂_congr fun f hf => forall_congr' fun _ => forall₂_congr fun raw hraw => ?_
  rw [and_iff_left (blankComments_newlines raw)]
  refine forall₂_congr fun host _ => forall_congr' fun i => forall₂_congr fun _ _ => ?_
  rw [mem_offenders_iff hf hraw rfl, offenderAt_mem_iff]

/-- A link between two texts of which one opens a span and the other closes it. -/
def page : Text :=
  ['/', '*', '<', 'a', ' ', 'h', 'r', 'e', 'f', '=', 'f', 'o', 'n', 't', 's', '.', 'g', 's', 't',
    'a', 't', 'i', 'c', '.', 'c', 'o', 'm', '>', '*', '/']

def site : SourceDir where
  root := ['p']
  entries := [(['a', '.', 'h', 't', 'm', 'l'], .file (some page))]
  paths_nodup := by decide

def pageFile : SourceFile := ⟨['p', '/', 'a', '.', 'h', 't', 'm', 'l'], HTML, some page⟩

/-- The live link is swallowed, and the scan finds no offender. -/
theorem link_swallowed : pageFile ∈ site.walk [HTML, CSS] ∧
    Occurs "fonts.gstatic.com".toList page 10 ∧ Live "fonts.gstatic.com".toList page 10 ∧
      (scanForCdnFonts site).offenders = [] := by
  have hfile : site.walk [HTML, CSS] = [pageFile] := rfl
  unfold Occurs Live
  exact ⟨hfile ▸ List.mem_cons_self, by decide +kernel⟩

end FontSource
end Batiste
