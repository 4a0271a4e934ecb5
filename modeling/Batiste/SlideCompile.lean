import Batiste.ClusterSummary
import Batiste.SlideZones

/-! `design/compiler.ts`: the slides that a list of facts is projected to, and the files that are
written for them. -/
namespace Batiste
namespace SlideCompile

open CodeGraph SlideZones StableSort

structure FactEntry where
  title : String
  body : String
  workstream : Option String
  tags : List String
  createdAt : String

/-- A card that makes a slide: its fact, and what the tags and the body say. -/
structure Row where
  fact : FactEntry
  palette : PaletteName
  index : Option ℤ
  assetRefs : List String
  copy : String
  cta : Option String

/-- `palette.toLowerCase()` -/
def lowerName : PaletteName → String
  | .Azul => "azul"
  | .Vinho => "vinho"
  | .Rosa => "rosa"
  | .Verde => "verde"
  | .Mood => "mood"

/-- What follows a prefix. -/
def afterPrefix (start text : String) : Option String :=
  if start.toList.isPrefixOf text.toList then
    some (String.ofList (text.toList.drop start.toList.length))
  else none

def trimmed (text : String) : String := String.ofList (JsString.trim text.toList)

def lines (text : String) : List String := (text.toList.splitOn '\n').map String.ofList

/-! ## The source -/

section Source

variable (texts : Texts) (collation : Collation)

def resolvePaletteName (label : String) : Option PaletteName :=
  let norm := texts.toLowerCase (trimmed label)
  if norm = "azul" then some .Azul
  else if norm = "vinho" then some .Vinho
  else if norm = "rosa" then some .Rosa
  else if norm = "verde" then some .Verde
  else if norm = "mood" then some .Mood
  else none

def isCandidate (workstream : String) (f : FactEntry) : Bool :=
  let own := f.workstream.getD ""
  if "source:trello" ∉ f.tags then false
  else if own ≠ "" ∧ own ≠ workstream then false
  else if own = "" ∧ "workstream:" ++ workstream ∉ f.tags then false
  else true

/-- The lines of the body that name an asset, and those that are copy. -/
def bodyLine (line : String) : Sum String (Option String) :=
  match afterPrefix "- asset:" (trimmed line) with
  | some rest => .inl (trimmed rest)
  | none =>
    if (afterPrefix "cta:" (trimmed line)).isSome then .inr none
    else if trimmed line = "" then .inr none
    else .inr (some line)

def ctaOf (body : String) : Option String :=
  ((lines body).find? fun l => (afterPrefix "cta:" (texts.toLowerCase (trimmed l))).isSome).map
    fun l => trimmed (String.ofList ((trimmed l).toList.drop 4))

/-- The row of a fact, unless its palette is missing or unknown. -/
def rowOf (f : FactEntry) : Option Row :=
  ((f.tags.findSome? (afterPrefix "palette:")).bind (resolvePaletteName texts)).map fun palette =>
    { fact := f
      palette := palette
      index := (f.tags.findSome? (afterPrefix "slide-index:")).bind texts.parseInt
      assetRefs := (lines f.body).filterMap fun l => (bodyLine l).getLeft?
      copy := "\n".intercalate ((lines f.body).filterMap fun l => (bodyLine l).getRight?.join)
      cta := ctaOf texts f.body }

def rows (workstream : String) (facts : List FactEntry) : List Row :=
  (facts.filter (isCandidate workstream)).filterMap (rowOf texts)

/-- `a < b`, where a missing index is infinite. -/
def sooner : Option ℤ → Option ℤ → Bool
  | some i, some j => i < j
  | some _, none => true
  | none, _ => false

/-- Explicit `slide-index` first, then by `created_at`. -/
def Before (a b : Row) : Prop :=
  sooner a.index b.index = true ∨
    a.index = b.index ∧ collation.le a.fact.createdAt b.fact.createdAt = true

instance : DecidableRel (Before collation) := fun a b => by
  unfold Before
  infer_instance

def toSlide (width height : ℤ) (total i : ℕ) (row : Row) : Slide where
  index := row.index.getD (i + 1)
  title := row.fact.title
  palette := row.palette
  copy := row.copy
  cta := row.cta
  assetRefs := row.assetRefs
  width := width
  height := height
  total := total

def projectFactsToSlides (facts : List FactEntry) (workstream : String) (width height : ℤ) :
    List Slide :=
  let indexed := (rows texts workstream facts).insertionSort (Before collation)
  indexed.mapIdx (toSlide width height indexed.length)

inductive CompileError
  | noSlides (workstream : String)
  | render (e : PsdRenderer.RangeError)

def CompileError.message : CompileError → String
  | .noSlides workstream =>
    "No FactEntries with tags=[source:trello] matched workstream \"" ++ workstream ++
      "\". Run `batiste-fm ingest trello` first or pass --fixture."
  | .render e => e.message

structure CompileResult where
  files : List String
  slideCount : ℕ
  deriving DecidableEq, Repr

/-- `String(index).padStart(1, '0')`, a dash and the palette. -/
def stem (slide : Slide) : String :=
  String.ofList ((texts.numberText slide.index).toList.leftpad 1 '0') ++ "-" ++
    lowerName slide.palette

/-- The files of one slide, by their names in the output directory. -/
def svgPath (slide : Slide) : String := stem texts slide ++ ".svg"

def psdPath (slide : Slide) : String := stem texts slide ++ ".psd"

/-- The loop over the slides: the files written so far, and the error that ended it. The SVG of a
slide is on the disk before its PSD is drawn. -/
def writeSlides : List Slide → List String → List String × Option PsdRenderer.RangeError
  | [], files => (files, none)
  | slide :: rest, files =>
    match PsdRenderer.buildSlidePsd texts slide with
    | .error e => (files ++ [svgPath texts slide], some e)
    | .ok _ => writeSlides rest (files ++ [svgPath texts slide, psdPath texts slide])

structure Run where
  written : List String
  outcome : Except CompileError CompileResult

/-- `compile`, from the facts of the memory on. -/
def compile (workstream : String) (width height : ℤ) (facts : List FactEntry) : Run :=
  let slides := projectFactsToSlides texts collation facts workstream width height
  if slides.length = 0 then ⟨[], .error (.noSlides workstream)⟩
  else
    let (files, failure) := writeSlides texts slides []
    ⟨files, failure.elim (.ok ⟨files, slides.length⟩) fun e => .error (.render e)⟩

end Source

/-! ## The files of a run -/

section Files

variable {texts : Texts}

/-- What the language says of the texts of numbers. -/
structure NumberTexts (texts : Texts) : Prop where
  inj : Function.Injective texts.numberText
  ne_empty : ∀ n, texts.numberText n ≠ ""

/-- What the names of the files of a slide are made of. -/
def mark (slide : Slide) : ℤ × PaletteName := (slide.index, slide.palette)

def slideFiles (texts : Texts) (slide : Slide) : List String :=
  [svgPath texts slide, psdPath texts slide]

theorem lowerName_getLast (p q : PaletteName)
    (h : (lowerName p).toList.getLast? = (lowerName q).toList.getLast?) : p = q := by
  cases p <;> cases q <;> first | rfl | exact absurd h (by decide)

theorem stem_toList (h : NumberTexts texts) (slide : Slide) : (stem texts slide).toList =
    (texts.numberText slide.index).toList ++ '-' :: (lowerName slide.palette).toList := by
  have hpos : (texts.numberText slide.index).toList ≠ [] := fun hnil =>
    h.ne_empty slide.index (String.toList_inj.mp hnil)
  have hone : 1 - (texts.numberText slide.index).toList.length = 0 := by
    have := List.length_pos_iff.mpr hpos
    omega
  simp [stem, List.leftpad, hone]

theorem stem_inj (h : NumberTexts texts) {a b : Slide} :
    stem texts a = stem texts b ↔ mark a = mark b := by
  constructor
  · intro heq
    have hchars := congrArg String.toList heq
    rw [stem_toList h, stem_toList h] at hchars
    have hpalette : a.palette = b.palette := by
      apply lowerName_getLast
      have hlast := congrArg List.getLast? hchars
      have hne : ∀ p, (lowerName p).toList ≠ [] := fun p => by cases p <;> decide
      rwa [List.getLast?_append_of_ne_nil _ (List.cons_ne_nil _ _),
        List.getLast?_append_of_ne_nil _ (List.cons_ne_nil _ _),
        ← List.singleton_append, List.getLast?_append_of_ne_nil _ (hne _),
        ← List.singleton_append, List.getLast?_append_of_ne_nil _ (hne _)] at hlast
    rw [hpalette] at hchars
    have hindex := h.inj (String.toList_inj.mp (List.append_cancel_right hchars))
    exact Prod.ext hindex hpalette
  · intro heq
    obtain ⟨hindex, hpalette⟩ := Prod.ext_iff.mp heq
    dsimp only [mark] at hindex hpalette
    rw [stem, stem, hindex, hpalette]

theorem path_inj {s t : String} {a b : Slide} (hs : s.toList.length = t.toList.length) :
    stem texts a ++ s = stem texts b ++ t ↔ stem texts a = stem texts b ∧ s = t := by
  constructor
  · intro heq
    have hchars := congrArg String.toList heq
    rw [String.toList_append, String.toList_append] at hchars
    obtain ⟨hstem, hext⟩ := List.append_inj' hchars hs
    exact ⟨String.toList_inj.mp hstem, String.toList_inj.mp hext⟩
  · rintro ⟨hstem, rfl⟩
    rw [hstem]

/-- The files are distinct when the indexes with their palettes are. -/
theorem flatMap_slideFiles_nodup (h : NumberTexts texts) (slides : List Slide) :
    (slides.flatMap (slideFiles texts)).Nodup ↔ (slides.map mark).Nodup := by
  have hmap : (slides.map mark).Nodup ↔ slides.Pairwise fun a b => mark a ≠ mark b :=
    List.pairwise_map
  rw [List.nodup_flatMap, hmap]
  constructor
  · rintro ⟨-, hdisjoint⟩
    refine hdisjoint.imp fun {a b} hab hmark => ?_
    have hsvg : svgPath texts a = svgPath texts b := by
      rw [svgPath, svgPath, (stem_inj h).mpr hmark]
    have hmem : ∀ slide, svgPath texts slide ∈ slideFiles texts slide :=
      fun slide => List.mem_cons_self
    have hshared := hmem b
    rw [← hsvg] at hshared
    exact hab (hmem a) hshared
  · intro hmarks
    constructor
    · intro slide _
      have hne : svgPath texts slide ≠ psdPath texts slide := fun heq =>
        absurd ((path_inj (by decide)).mp heq).2 (by decide)
      simpa [slideFiles] using hne
    · refine hmarks.imp fun {a b} hab path ha hb => hab ?_
      rw [← stem_inj h]
      simp only [slideFiles, List.mem_cons, List.not_mem_nil, or_false] at ha hb
      rcases ha with rfl | rfl <;> rcases hb with heq | heq
      all_goals exact ((path_inj (by decide)).mp heq).1

/-- What is written is the files of the slides, up to the one that cannot be drawn. -/
theorem writeSlides_eq (slides : List Slide) (files : List String) :
    ((writeSlides texts slides files).1 <+: files ++ slides.flatMap (slideFiles texts)) ∧
      ((writeSlides texts slides files).2 = none →
        (writeSlides texts slides files).1 = files ++ slides.flatMap (slideFiles texts)) := by
  induction slides generalizing files with
  | nil => simp [writeSlides]
  | cons slide rest ih =>
    rw [List.flatMap_cons, writeSlides]
    cases PsdRenderer.buildSlidePsd texts slide with
    | error e =>
      refine ⟨⟨psdPath texts slide :: rest.flatMap (slideFiles texts), ?_⟩, fun h => by cases h⟩
      simp [slideFiles]
    | ok psd =>
      rw [← List.append_assoc]
      exact ih (files ++ slideFiles texts slide)

end Files

/-! ## The marks of the rows -/

section Marks

variable (collation : Collation)

/-- The explicit indexes, each with its palette. -/
def marks (rows : List Row) : List (ℤ × PaletteName) :=
  rows.filterMap fun row => row.index.map fun index => (index, row.palette)

/-- The rows without an index, oldest first. -/
def unmarked (rows : List Row) : List Row :=
  (rows.filter fun row => row.index.isNone).insertionSort
    fun a b => collation.le a.fact.createdAt b.fact.createdAt = true

/-- No two rows ask for the same index and palette, and none asks for the place of a row without
an index that has its palette: these are counted on behind the rows with one. -/
structure NoClash (rows : List Row) : Prop where
  explicit : (marks rows).Nodup
  counted : ∀ (k : ℕ) (row : Row), (unmarked collation rows)[k]? = some row →
    (((marks rows).length + k + 1 : ℤ), row.palette) ∉ marks rows

/-- A missing index is infinite. -/
def rank (index : Option ℤ) : WithTop ℤ := index

theorem sooner_iff (i j : Option ℤ) : sooner i j = true ↔ rank i < rank j := by
  cases i with
  | none => exact ⟨fun h => (by cases h), fun h => absurd h not_top_lt⟩
  | some i =>
    cases j with
    | none => exact ⟨fun _ => WithTop.coe_lt_top i, fun _ => rfl⟩
    | some j => exact decide_eq_true_iff.trans WithTop.coe_lt_coe.symm

theorem before_iff (a b : Row) : Before collation a b ↔
    OrderDual.toDual (rank b.index) < OrderDual.toDual (rank a.index) ∨
      OrderDual.toDual (rank a.index) = OrderDual.toDual (rank b.index) ∧
        collation.le a.fact.createdAt b.fact.createdAt = true :=
  or_congr (sooner_iff _ _) Iff.rfl

instance : IsTrans Row (Before collation) where
  trans a b c := by
    rw [before_iff, before_iff, before_iff]
    exact (collation.isTrans (fun row : Row => OrderDual.toDual (rank row.index))
      fun row => row.fact.createdAt).trans a b c

instance : Std.Total (Before collation) where
  total a b := by
    rw [before_iff, before_iff]
    exact (collation.isTotal (fun row : Row => OrderDual.toDual (rank row.index))
      fun row => row.fact.createdAt).total a b

theorem before_of_isNone {a b : Row} (ha : a.index.isNone = true) (hb : b.index.isNone = true) :
    Before collation a b ↔ collation.le a.fact.createdAt b.fact.createdAt = true := by
  rw [Option.isNone_iff_eq_none] at ha hb
  simp [Before, ha, hb, sooner]

theorem isSome_of_before {a b : Row} (h : Before collation a b) (hb : b.index.isSome = true) :
    a.index.isSome = true := by
  rcases h with hlt | ⟨heq, -⟩
  · cases ha : a.index with
    | none => simp [ha, sooner] at hlt
    | some i => rfl
  · rwa [heq]

/-- The rows in their order: those with an index, and then the others. -/
theorem sorted_eq (rows : List Row) : rows.insertionSort (Before collation) =
    (rows.filter fun row => row.index.isSome).insertionSort (Before collation) ++
      unmarked collation rows := by
  have hsorted := List.pairwise_insertionSort (Before collation) rows
  have hsplit := eq_filter_append_filter (p := fun row : Row => row.index.isSome)
    (hsorted.imp fun {a b} hab hb => isSome_of_before collation hab hb)
  have hnone : (fun row : Row => !row.index.isSome) = fun row => row.index.isNone := by
    funext row
    rw [Option.not_isSome]
  rw [hnone, filter_insertionSort, filter_insertionSort] at hsplit
  rw [hsplit, unmarked]
  congr 1
  rw [← List.map_id (List.insertionSort _ _)]
  refine (List.map_insertionSort _ _ id _ ?_).trans (by rw [List.map_id])
  intro a ha b hb
  exact before_of_isNone collation (by simpa using (List.mem_filter.mp ha).2)
    (by simpa using (List.mem_filter.mp hb).2)

theorem marks_perm {rows rows' : List Row} (h : rows.Perm rows') : (marks rows).Perm (marks rows') :=
  h.filterMap _

theorem marks_filter (rows : List Row) :
    marks (rows.filter fun row => row.index.isSome) = marks rows := by
  rw [marks, List.filterMap_filter]
  congr 1
  funext row
  cases row.index <;> rfl

theorem length_marks {rows : List Row} (h : ∀ row ∈ rows, row.index.isSome = true) :
    (marks rows).length = rows.length := by
  rw [marks, List.length_filterMap_eq_countP, List.countP_eq_length]
  intro row hrow
  rw [Option.isSome_map]
  exact h row hrow

/-- Where every row has an index no row is counted. -/
theorem marks_eq_mapIdx {rows : List Row} (h : ∀ row ∈ rows, row.index.isSome = true)
    (place : ℕ → ℤ) :
    rows.mapIdx (fun i row => (row.index.getD (place i), row.palette)) = marks rows := by
  induction rows generalizing place with
  | nil => rfl
  | cons row rows ih =>
    obtain ⟨hrow, hrest⟩ := List.forall_mem_cons.mp h
    obtain ⟨index, hindex⟩ := Option.isSome_iff_exists.mp hrow
    have htail := ih hrest fun i => place (i + 1)
    simp only [marks] at htail
    simp [marks, List.mapIdx_cons, hindex, htail]

/-- The marks of the slides, in their order: the explicit ones, and then those that are counted. -/
theorem map_mark_slides (texts : Texts) (facts : List FactEntry) (workstream : String)
    (width height : ℤ) :
    (projectFactsToSlides texts collation facts workstream width height).map mark =
      marks (((rows texts workstream facts).filter fun row => row.index.isSome).insertionSort
          (Before collation)) ++
        (unmarked collation (rows texts workstream facts)).mapIdx fun k row =>
          (((marks (rows texts workstream facts)).length + k + 1 : ℤ), row.palette) := by
  generalize hrows : rows texts workstream facts = rs
  have hperm := List.perm_insertionSort (Before collation) (rs.filter fun row => row.index.isSome)
  have hsome : ∀ row ∈ (rs.filter fun row => row.index.isSome).insertionSort (Before collation),
      row.index.isSome = true := fun row hrow => (List.mem_filter.mp (hperm.mem_iff.mp hrow)).2
  have hlength : (marks rs).length =
      ((rs.filter fun row => row.index.isSome).insertionSort (Before collation)).length := by
    rw [← length_marks hsome, (marks_perm hperm).length_eq, marks_filter]
  have hmap : (projectFactsToSlides texts collation facts workstream width height).map mark =
      (rs.insertionSort (Before collation)).mapIdx
        fun i row => (row.index.getD ((i + 1 : ℕ) : ℤ), row.palette) := by
    rw [← hrows]
    apply List.ext_getElem
    · simp [projectFactsToSlides]
    · intro i _ _
      simp [projectFactsToSlides, toSlide, mark]
  rw [hmap, sorted_eq, List.mapIdx_append, marks_eq_mapIdx hsome fun i => ((i + 1 : ℕ) : ℤ)]
  congr 1
  apply List.ext_getElem
  · simp
  · intro k hk _
    rw [List.length_mapIdx] at hk
    have hmem := (List.perm_insertionSort _ _).mem_iff.mp (List.getElem_mem hk)
    have hnone : (unmarked collation rs)[k].index = none := by
      simpa using (List.mem_filter.mp hmem).2
    simp only [List.getElem_mapIdx, hnone, Option.getD_none, hlength]
    push_cast
    ring_nf

end Marks

/-! ## Distinct files -/

section Distinct

variable (texts : Texts) (collation : Collation)

theorem marks_nodup_iff (facts : List FactEntry) (workstream : String) (width height : ℤ) :
    ((projectFactsToSlides texts collation facts workstream width height).map mark).Nodup ↔
      NoClash collation (rows texts workstream facts) := by
  rw [map_mark_slides]
  generalize rows texts workstream facts = rs
  have hperm := (marks_perm (List.perm_insertionSort (Before collation)
    (rs.filter fun row => row.index.isSome))).trans (.of_eq (marks_filter rs))
  have hcounted : ((unmarked collation rs).mapIdx fun k row =>
      (((marks rs).length + k + 1 : ℤ), row.palette)).Nodup := by
    rw [List.nodup_iff_injective_getElem]
    intro i j hij
    have hfirst := congrArg Prod.fst hij
    simp only [List.getElem_mapIdx] at hfirst
    exact Fin.ext (by omega)
  rw [List.nodup_append, hperm.nodup_iff]
  constructor
  · rintro ⟨hexplicit, -, hdisjoint⟩
    refine ⟨hexplicit, fun k row hrow hmem => ?_⟩
    refine hdisjoint _ (hperm.mem_iff.mpr hmem) _ ?_ rfl
    exact List.mem_of_getElem? (i := k) (by rw [List.getElem?_mapIdx, hrow]; rfl)
  · intro h
    refine ⟨h.explicit, hcounted, ?_⟩
    rintro a ha b hb rfl
    obtain ⟨k, hk, rfl⟩ := List.mem_mapIdx.mp hb
    exact h.counted k _ (List.getElem?_eq_getElem hk) (hperm.mem_iff.mp ha)

/-- The files of a run are distinct, and as many as its slides ask for: an SVG and a PSD each. -/
structure OverwritesNothing (result : CompileResult) : Prop where
  distinct : result.files.Nodup
  counted : result.files.toFinset.card = 2 * result.slideCount

theorem files_of_ok {workstream : String} {width height : ℤ} {facts : List FactEntry}
    {result : CompileResult}
    (h : (compile texts collation workstream width height facts).outcome = .ok result) :
    result.files = (projectFactsToSlides texts collation facts workstream width height).flatMap
        (slideFiles texts) ∧
      result.slideCount =
        (projectFactsToSlides texts collation facts workstream width height).length := by
  unfold compile at h
  generalize projectFactsToSlides texts collation facts workstream width height = slides at h ⊢
  simp only at h
  split at h
  · cases h
  · cases hfailure : (writeSlides texts slides []).2 with
    | some e => simp [hfailure] at h
    | none =>
      simp only [hfailure, Option.elim_none, Except.ok.injEq] at h
      rw [← h]
      exact ⟨(writeSlides_eq slides []).2 hfailure, rfl⟩

theorem written_sublist (workstream : String) (width height : ℤ) (facts : List FactEntry) :
    (compile texts collation workstream width height facts).written.Sublist
      ((projectFactsToSlides texts collation facts workstream width height).flatMap
        (slideFiles texts)) := by
  unfold compile
  simp only
  split
  · exact List.nil_sublist _
  · exact (writeSlides_eq _ []).1.sublist

/-- A run of `compile` that ends well has overwritten nothing when no marks clash, and only then.
Where they do not clash a run that fails has written no file twice either. -/
theorem compile_overwritesNothing_iff (hnum : NumberTexts texts) (workstream : String)
    (width height : ℤ) (facts : List FactEntry) :
    (∀ result, (compile texts collation workstream width height facts).outcome = .ok result →
      (OverwritesNothing result ↔ NoClash collation (rows texts workstream facts))) ∧
      (NoClash collation (rows texts workstream facts) →
        (compile texts collation workstream width height facts).written.Nodup) := by
  have hiff : ((projectFactsToSlides texts collation facts workstream width height).flatMap
      (slideFiles texts)).Nodup ↔ NoClash collation (rows texts workstream facts) :=
    (flatMap_slideFiles_nodup hnum _).trans (marks_nodup_iff texts collation facts _ _ _)
  constructor
  · intro result hok
    obtain ⟨hfiles, hcount⟩ := files_of_ok texts collation hok
    rw [← hiff, ← hfiles]
    constructor
    · exact fun h => h.distinct
    · intro hnodup
      refine ⟨hnodup, ?_⟩
      rw [List.toFinset_card_of_nodup hnodup, hfiles, hcount]
      simp [slideFiles, List.length_flatMap, mul_comm]
  · intro hclash
    exact (hiff.mpr hclash).sublist (written_sublist texts collation _ _ _ _)

end Distinct

/-! ## A carousel with a repeated index -/

/-- The texts of plain letters and of single digits. -/
def asciiTexts : Texts where
  parseInt := fun text => ((List.range 10).map fun n => (n : ℤ)).find? fun n => toString n = text
  numberText := toString
  toLowerCase := fun text => String.ofList (text.toList.map Char.toLower)
  toUpperCase := fun text => String.ofList (text.toList.map Char.toUpper)

theorem natRepr_injective : Function.Injective Nat.repr := by
  intro m n h
  have hdigits := congrArg (fun text : String => Nat.ofDigitChars 10 text.toList 0) h
  simp only [Nat.repr_eq_ofList_toDigits, String.toList_ofList] at hdigits
  rwa [Nat.ofDigitChars_toDigits (by decide) (by decide),
    Nat.ofDigitChars_toDigits (by decide) (by decide)] at hdigits

theorem minus_not_digit (n m : ℕ) : Nat.repr n ≠ "-" ++ Nat.repr m := by
  intro h
  have hmem : '-' ∈ (Nat.repr n).toList := by
    rw [h, String.toList_append]
    exact List.mem_append_left _ (by decide)
  rw [Nat.repr_eq_ofList_toDigits, String.toList_ofList] at hmem
  exact absurd (Nat.isDigit_of_mem_toDigits (by decide) (by decide) hmem) (by decide)

theorem asciiTexts_numberTexts : NumberTexts asciiTexts where
  inj a b h := by
    cases a with
    | ofNat m =>
      cases b with
      | ofNat n => exact congrArg Int.ofNat (natRepr_injective h)
      | negSucc n => exact absurd h (minus_not_digit m (n + 1))
    | negSucc m =>
      cases b with
      | ofNat n => exact absurd h.symm (minus_not_digit n (m + 1))
      | negSucc n =>
        have hsucc : m + 1 = n + 1 :=
          natRepr_injective (String.append_right_inj "-" |>.mp h)
        rw [Nat.succ.inj hsucc]
  ne_empty n h := by
    cases n with
    | ofNat m => exact Nat.repr_ne_empty h
    | negSucc m => exact absurd (congrArg String.toList h) (by simp [asciiTexts, Int.toString_eq_repr,
        Int.repr])

def card (createdAt : String) (tags : List String) : FactEntry where
  title := "Compre por Azul"
  body := "Novo tom"
  workstream := some "compre-por-cor"
  tags := "source:trello" :: tags
  createdAt := createdAt

def distinctCards : List FactEntry :=
  [card "2025-01-02" ["palette:Azul"], card "2025-01-01" ["palette:azul", "slide-index:1"]]

theorem distinctCards_noClash : NoClash byCodePoint
    (rows asciiTexts "compre-por-cor" distinctCards) := by
  have hrun : (compile asciiTexts byCodePoint "compre-por-cor" 1080 1350 distinctCards).outcome =
      .ok ⟨["1-azul.svg", "1-azul.psd", "2-azul.svg", "2-azul.psd"], 2⟩ := by
    rfl
  exact ((compile_overwritesNothing_iff asciiTexts byCodePoint asciiTexts_numberTexts
    "compre-por-cor" 1080 1350 distinctCards).1 _ hrun).mp ⟨by decide, by decide⟩

def sameIndex : List FactEntry :=
  [card "2025-01-01" ["palette:Azul", "slide-index:1"],
    card "2025-01-02" ["palette:Azul", "slide-index:1"]]

/-- Two slides, and the files of one. -/
theorem sameIndex_overwritten :
    ∃ result, (compile asciiTexts byCodePoint "compre-por-cor" 1080 1350 sameIndex).outcome =
        .ok result ∧ result.slideCount = 2 ∧
      result.files = ["1-azul.svg", "1-azul.psd", "1-azul.svg", "1-azul.psd"] ∧
        ¬ OverwritesNothing result := by
  refine ⟨⟨["1-azul.svg", "1-azul.psd", "1-azul.svg", "1-azul.psd"], 2⟩, ?_, rfl, rfl, ?_⟩
  · rfl
  · exact fun h => absurd h.distinct (by decide)

end SlideCompile
end Batiste
