import Batiste.CellGrid
import Batiste.JsString
import Mathlib.Algebra.Order.Floor.Div

/-! The zones that the slide renderers reserve for the assets of a slide: rectangles of the SVG and
layers of the PSD. -/
namespace Batiste
namespace SlideZones

open CellGrid

/-! ## Slides -/

inductive PaletteName
  | Azul | Vinho | Rosa | Verde | Mood
  deriving DecidableEq, Repr

/-- What the renderers draw. -/
structure Slide where
  index : ℤ
  title : String
  palette : PaletteName
  copy : String
  cta : Option String
  assetRefs : List String
  width : ℤ
  height : ℤ
  total : ℕ
  deriving DecidableEq, Repr

/-- What the language supplies for texts and numbers. -/
structure Texts where
  parseInt : String → Option ℤ
  numberText : ℤ → String
  toLowerCase : String → String
  toUpperCase : String → String

variable (texts : Texts)

/-- `Math.max(64, Number.parseInt(text, 10) || fallback)` -/
def canvasSide (text : String) (fallback : ℤ) : ℤ :=
  let parsed := (texts.parseInt text).getD 0
  max 64 (if parsed = 0 then fallback else parsed)

structure CanvasOptions where
  width : String
  height : String

/-- A slide on the canvas that the options of the command ask for. -/
def onCanvas (opts : CanvasOptions) (slide : Slide) : Slide :=
  { slide with
    width := canvasSide texts opts.width 1080
    height := canvasSide texts opts.height 1350 }

/-! ## The two renderers -/

structure Zone extends Rect ℚ where
  ref : String

/-- `Math.min(n, n <= 3 ? n : Math.ceil(n / 2))` -/
def zoneCols (n : ℕ) : ℕ := min n (if n ≤ 3 then n else n ⌈/⌉ 2)

namespace SvgRenderer

def marginX : ℚ := 80

def assetGridTop : ℚ := 380

def assetGridBottom : ℚ := 1140

def assetZones (refs : List String) (width top bottom marginX : ℚ) : List Zone :=
  if refs.length = 0 then []
  else
    let cols := zoneCols refs.length
    let rows := refs.length ⌈/⌉ cols
    let innerW := width - marginX * 2
    let innerH := bottom - top
    let gap := 24
    let zoneW := (innerW - gap * (cols - 1)) / cols
    let zoneH := (innerH - gap * (rows - 1)) / rows
    refs.mapIdx fun i ref =>
      let col := i % cols
      let row := i / cols
      { x := marginX + col * (zoneW + gap)
        y := top + row * (zoneH + gap)
        w := zoneW
        h := zoneH
        ref := ref }

/-- The zones of `renderSlideSvg`. -/
def zones (slide : Slide) : List Zone :=
  assetZones slide.assetRefs slide.width assetGridTop assetGridBottom marginX

end SvgRenderer

namespace PsdRenderer

inductive Content
  | pixels (width height : ℤ)
  | text (text font : String) (fontSize : ℕ)
  deriving DecidableEq, Repr

structure Layer where
  name : String
  top : ℤ
  left : ℤ
  bottom : ℤ
  right : ℤ
  content : Content
  deriving DecidableEq, Repr

/-- A `RangeError`. -/
structure RangeError where
  message : String
  deriving DecidableEq, Repr

/-- `new Uint8Array(width * height * 4)`, filled. -/
def imageData (width height : ℤ) : Except RangeError Content :=
  if width * height * 4 < 0 then
    .error ⟨"Invalid typed array length: " ++ toString (width * height * 4)⟩
  else .ok (.pixels width height)

def isSlugChar (c : Char) : Bool := ('a' ≤ c && c ≤ 'z') || ('0' ≤ c && c ≤ '9')

/-- `.replace(/\.[a-z0-9]+$/, '')` -/
def stripExtension (cs : List Char) : List Char :=
  let extension := cs.rtakeWhile isSlugChar
  let rest := cs.rdropWhile isSlugChar
  if extension ≠ [] ∧ rest.getLast? = some '.' then rest.dropLast else cs

/-- Runs of other characters become one dash, and none stands at either end. -/
def slug (s : String) : String :=
  let runs := (stripExtension (texts.toLowerCase s).toList).splitOnP fun c => !isSlugChar c
  String.ofList ((['-'].intercalate (runs.filter (· ≠ []))).take 40)

/-- The whole numbers of the layout. -/
structure Layout where
  cols : ℕ
  rows : ℕ
  zoneW : ℤ
  zoneH : ℤ
  deriving DecidableEq, Repr

def marginX : ℤ := 80

def assetTop : ℤ := 380

def assetBottom : ℤ := 1140

def gap : ℤ := 24

def layout (slide : Slide) : Layout :=
  let n := slide.assetRefs.length
  let cols := if n = 0 then 1 else zoneCols n
  let rows := if n = 0 then 0 else n ⌈/⌉ cols
  let innerW := slide.width - marginX * 2
  let innerH := assetBottom - assetTop
  { cols := cols
    rows := rows
    zoneW := if 0 < rows then ⌊((innerW - gap * (cols - 1) : ℤ) : ℚ) / cols⌋ else 0
    zoneH := if 0 < rows then ⌊((innerH - gap * (rows - 1) : ℤ) : ℚ) / rows⌋ else 0 }

/-- The layer that stands in for one asset. -/
def placeholder (slide : Slide) (i : ℕ) (ref : String) : Except RangeError Layer := do
  let { cols, zoneW, zoneH, .. } := layout slide
  let col := i % cols
  let row := i / cols
  let x := marginX + col * (zoneW + gap)
  let y := assetTop + row * (zoneH + gap)
  return {
    name := "asset-placeholder-" ++ toString (i + 1) ++ "-" ++ slug texts ref
    top := y
    left := x
    bottom := y + zoneH
    right := x + zoneW
    content := ← imageData zoneW zoneH }

def ctaLayers (cta : String) : Except RangeError (List Layer) := do
  let ctaW := 320
  let ctaH := 56
  let ctaX := marginX
  let ctaY := 1180
  return [
    { name := "cta-button", top := ctaY, left := ctaX, bottom := ctaY + ctaH, right := ctaX + ctaW
      content := ← imageData ctaW ctaH },
    { name := "cta-text", top := ctaY, left := ctaX, bottom := ctaY + ctaH, right := ctaX + ctaW
      content := .text (texts.toUpperCase cta) "Inter" 16 }]

structure Psd where
  width : ℤ
  height : ℤ
  children : List Layer
  composite : Content
  deriving DecidableEq, Repr

def buildSlidePsd (slide : Slide) : Except RangeError Psd := do
  let background ← imageData slide.width slide.height
  let placeholders ← slide.assetRefs.zipIdx.mapM fun p => placeholder texts slide p.2 p.1
  -- an empty call to action is drawn no more than a missing one
  let cta ← if slide.cta.getD "" = "" then pure [] else ctaLayers texts (slide.cta.getD "")
  return {
    width := slide.width
    height := slide.height
    children :=
      [{ name := "background", top := 0, left := 0, bottom := slide.height, right := slide.width
         content := background }] ++ placeholders ++ cta ++
      [{ name := "copy", top := 240, left := marginX, bottom := 380, right := slide.width - marginX
         content := .text slide.copy "EB Garamond" 28 },
       { name := "title", top := 130, left := marginX, bottom := 220, right := slide.width - marginX
         content := .text slide.title "EB Garamond" 56 },
       { name := "slide-index", top := 1280, left := slide.width - marginX - 100, bottom := 1320
         right := slide.width - marginX
         content := .text (texts.numberText slide.index ++ "/" ++ texts.numberText slide.total)
           "Inter" 11 }]
    composite := ← imageData slide.width slide.height }

def Layer.rect (layer : Layer) : Rect ℤ where
  x := layer.left
  y := layer.top
  w := layer.right - layer.left
  h := layer.bottom - layer.top

def Layer.isPlaceholder (layer : Layer) : Bool :=
  "asset-placeholder-".toList.isPrefixOf layer.name.toList

/-- The layers that stand in for assets, by their name. -/
def Psd.zones (psd : Psd) : List (Rect ℤ) :=
  (psd.children.filter Layer.isPlaceholder).map Layer.rect

end PsdRenderer

/-! ## The grid both renderers lay out -/

section Counts

variable {n : ℕ}

theorem zoneCols_eq (n : ℕ) : zoneCols n = if n ≤ 3 then n else (n + 1) / 2 := by
  unfold zoneCols
  rw [Nat.ceilDiv_eq_add_pred_div]
  split_ifs
  · exact min_self n
  · omega

theorem zoneCols_pos (h : 0 < n) : 0 < zoneCols n := by
  rw [zoneCols_eq]
  split_ifs
  · exact h
  · omega

theorem zoneCols_le (n : ℕ) : zoneCols n ≤ n := min_le_left _ _

/-- One row holds up to three zones, two rows any number of them. -/
theorem zoneRows_eq (h : 0 < n) : n ⌈/⌉ zoneCols n = if n ≤ 3 then 1 else 2 := by
  rw [Nat.ceilDiv_eq_add_pred_div, zoneCols_eq]
  split_ifs with hn
  · rw [Nat.div_eq_of_lt_le] <;> omega
  · rw [Nat.div_eq_of_lt_le] <;> omega

/-- The last zone stands in the last row. -/
theorem last_row (h : 0 < n) : (n - 1) / zoneCols n = n ⌈/⌉ zoneCols n - 1 := by
  rw [zoneRows_eq h, zoneCols_eq]
  split_ifs with hn
  · exact Nat.div_eq_of_lt (by omega)
  · rw [Nat.div_eq_of_lt_le] <;> omega

theorem le_cols_mul_rows (h : 0 < n) : n ≤ zoneCols n * (n ⌈/⌉ zoneCols n) := by
  rw [zoneRows_eq h, zoneCols_eq]
  split_ifs <;> omega

end Counts

/-- The pixels that the zones of a row share. -/
def room (n : ℕ) (width : ℤ) : ℤ := width - 160 - 24 * (zoneCols n - 1)

/-- The height of a zone, a whole number. -/
def zoneHeight (n : ℕ) : ℤ := if n ≤ 3 then 760 else 368

theorem zoneHeight_pos (n : ℕ) : 0 < zoneHeight n := by
  unfold zoneHeight
  split_ifs <;> norm_num

def svgGrid (n : ℕ) (width : ℤ) : Grid ℚ where
  left := 80
  top := 380
  cellW := room n width / zoneCols n
  cellH := zoneHeight n
  gap := 24
  cols := zoneCols n

def psdGrid (n : ℕ) (width : ℤ) : Grid ℤ where
  left := 80
  top := 380
  cellW := room n width / zoneCols n
  cellH := zoneHeight n
  gap := 24
  cols := zoneCols n

section Zones

variable {texts} {slide : Slide}

variable (slide) in
theorem svg_zones_eq : (SvgRenderer.zones slide).map Zone.toRect =
    (List.range slide.assetRefs.length).map (svgGrid slide.assetRefs.length slide.width).cell := by
  unfold SvgRenderer.zones SvgRenderer.assetZones
  split_ifs with hn
  · simp [hn]
  · have hpos := Nat.pos_of_ne_zero hn
    apply List.ext_getElem
    · simp
    · intro i hi hi'
      simp only [List.getElem_map, List.getElem_mapIdx, List.getElem_range, Grid.cell, svgGrid,
        zoneRows_eq hpos, SvgRenderer.marginX, SvgRenderer.assetGridTop,
        SvgRenderer.assetGridBottom, room, zoneHeight]
      split_ifs <;> norm_num

theorem psd_layout (hn : 0 < slide.assetRefs.length) : PsdRenderer.layout slide =
    { cols := zoneCols slide.assetRefs.length
      rows := slide.assetRefs.length ⌈/⌉ zoneCols slide.assetRefs.length
      zoneW := room slide.assetRefs.length slide.width / zoneCols slide.assetRefs.length
      zoneH := zoneHeight slide.assetRefs.length } := by
  have hrows := zoneRows_eq hn
  have hroom : slide.width - PsdRenderer.marginX * 2 -
      PsdRenderer.gap * ((zoneCols slide.assetRefs.length : ℤ) - 1) =
      room slide.assetRefs.length slide.width := by
    simp only [PsdRenderer.marginX, PsdRenderer.gap, room]
    ring
  unfold PsdRenderer.layout
  simp only [if_neg hn.ne', hroom, Rat.floor_intCast_div_natCast]
  simp only [hrows, PsdRenderer.assetTop, PsdRenderer.assetBottom, PsdRenderer.gap, zoneHeight]
  by_cases hthree : slide.assetRefs.length ≤ 3 <;> simp [hthree]

theorem imageData_ok {width height : ℤ} {content : PsdRenderer.Content}
    (h : PsdRenderer.imageData width height = .ok content) : 0 ≤ width * height := by
  unfold PsdRenderer.imageData at h
  split_ifs at h with hneg
  omega

theorem imageData_of_nonneg {width height : ℤ} (h : 0 ≤ width * height) :
    PsdRenderer.imageData width height = .ok (.pixels width height) :=
  if_neg (by omega)

/-- A placeholder is drawn when its size is one that pixels can have, as a cell of the grid. -/
theorem placeholder_spec (hn : 0 < slide.assetRefs.length) {i : ℕ} {ref : String}
    {layer : PsdRenderer.Layer} (h : PsdRenderer.placeholder texts slide i ref = .ok layer) :
    layer.isPlaceholder = true ∧
      layer.rect = (psdGrid slide.assetRefs.length slide.width).cell i := by
  simp only [PsdRenderer.placeholder, psd_layout hn] at h
  cases hdata : PsdRenderer.imageData
      (room slide.assetRefs.length slide.width / zoneCols slide.assetRefs.length)
      (zoneHeight slide.assetRefs.length) with
  | error e => simp [hdata, bind, Except.bind] at h
  | ok data =>
    simp only [hdata, bind, Except.bind, pure, Except.pure, Except.ok.injEq] at h
    subst h
    constructor
    · simp [PsdRenderer.Layer.isPlaceholder]
    · simp [PsdRenderer.Layer.rect, Grid.cell, psdGrid, PsdRenderer.marginX,
        PsdRenderer.assetTop, PsdRenderer.gap]

theorem mapM_ok_iff {α β ε : Type} {f : α → Except ε β} {as : List α} {bs : List β} :
    as.mapM f = .ok bs ↔ List.Forall₂ (fun a b => f a = .ok b) as bs := by
  induction as generalizing bs with
  | nil => simp [pure, Except.pure, eq_comm]
  | cons a as ih =>
    rw [List.mapM_cons, List.forall₂_cons_left_iff]
    cases ha : f a with
    | error e => simp [bind, Except.bind]
    | ok b =>
      cases has : as.mapM f with
      | error e =>
        simp only [bind, Except.bind, reduceCtorEq, false_iff, not_exists, not_and]
        rintro b' us - hus -
        simp [ih.mpr hus] at has
      | ok rest =>
        simp only [bind, Except.bind, pure, Except.pure, Except.ok.injEq]
        constructor
        · rintro rfl
          exact ⟨b, rest, rfl, ih.mp has, rfl⟩
        · rintro ⟨b', us, rfl, hus, rfl⟩
          rw [ih.mpr hus] at has
          cases has
          rfl

theorem mapM_ok_of_forall {α β ε : Type} {f : α → Except ε β} {as : List α}
    (h : ∀ a ∈ as, ∃ b, f a = .ok b) : ∃ bs, as.mapM f = .ok bs := by
  induction as with
  | nil => exact ⟨[], rfl⟩
  | cons a as ih =>
    obtain ⟨b, hb⟩ := h a (by simp)
    obtain ⟨bs, hbs⟩ := ih fun a' ha' => h a' (by simp [ha'])
    exact ⟨b :: bs, mapM_ok_iff.mpr (.cons hb (mapM_ok_iff.mp hbs))⟩

theorem placeholders_spec {layers : List PsdRenderer.Layer}
    (h : (slide.assetRefs.zipIdx.mapM fun p => PsdRenderer.placeholder texts slide p.2 p.1) =
      .ok layers) :
    (∀ layer ∈ layers, layer.isPlaceholder = true) ∧
      layers.map PsdRenderer.Layer.rect = (List.range slide.assetRefs.length).map
        (psdGrid slide.assetRefs.length slide.width).cell := by
  obtain ⟨hlength, hget⟩ := List.forall₂_iff_get.mp (mapM_ok_iff.mp h)
  rw [List.length_zipIdx] at hlength
  have hlayer : ∀ i (hi : i < layers.length), layers[i].isPlaceholder = true ∧
      layers[i].rect = (psdGrid slide.assetRefs.length slide.width).cell i := by
    intro i hi
    have hdrawn := hget i (by simpa using hlength ▸ hi) hi
    simp only [List.get_eq_getElem, List.getElem_zipIdx, Nat.zero_add] at hdrawn
    exact placeholder_spec (by omega) hdrawn
  constructor
  · intro layer hmem
    obtain ⟨i, hi, rfl⟩ := List.getElem_of_mem hmem
    exact (hlayer i hi).1
  · apply List.ext_getElem
    · simp [hlength]
    · intro i hi hi'
      simp only [List.getElem_map, List.getElem_range]
      exact (hlayer i (by simpa using hi)).2

/-- Nothing but the placeholders bears their name. -/
theorem zones_of_build {psd : PsdRenderer.Psd}
    (h : PsdRenderer.buildSlidePsd texts slide = .ok psd) :
    psd.zones = (List.range slide.assetRefs.length).map
      (psdGrid slide.assetRefs.length slide.width).cell := by
  unfold PsdRenderer.buildSlidePsd at h
  cases hback : PsdRenderer.imageData slide.width slide.height with
  | error e => simp [hback, bind, Except.bind] at h
  | ok background =>
    cases hlayers : slide.assetRefs.zipIdx.mapM fun p =>
        PsdRenderer.placeholder texts slide p.2 p.1 with
    | error e => simp [hback, hlayers, bind, Except.bind] at h
    | ok layers =>
      obtain ⟨hnames, hrects⟩ := placeholders_spec hlayers
      have hcta : PsdRenderer.imageData 320 56 = .ok (.pixels 320 56) :=
        imageData_of_nonneg (by norm_num)
      have hchildren : psd.children.filter PsdRenderer.Layer.isPlaceholder = layers := by
        simp only [hback, hlayers, bind, Except.bind, pure, Except.pure, PsdRenderer.ctaLayers,
          hcta] at h
        split_ifs at h
        all_goals
          simp only [Except.ok.injEq] at h
          subst h
          simp [List.filter_append, List.filter_eq_self.mpr hnames,
            PsdRenderer.Layer.isPlaceholder]
      rw [PsdRenderer.Psd.zones, hchildren, hrects]

theorem build_exists (hcanvas : 0 ≤ slide.width * slide.height)
    (hsize : slide.assetRefs.length = 0 ∨
      0 ≤ room slide.assetRefs.length slide.width / zoneCols slide.assetRefs.length) :
    ∃ psd, PsdRenderer.buildSlidePsd texts slide = .ok psd := by
  have hplaceholder : ∀ p ∈ slide.assetRefs.zipIdx,
      ∃ layer, PsdRenderer.placeholder texts slide p.2 p.1 = .ok layer := by
    intro p hp
    have hpos : 0 < slide.assetRefs.length := by
      have := List.length_pos_of_mem hp
      simpa using this
    have hdata := imageData_of_nonneg
      (mul_nonneg (hsize.resolve_left hpos.ne') (zoneHeight_pos slide.assetRefs.length).le)
    simp only [PsdRenderer.placeholder, psd_layout hpos, hdata, bind, Except.bind, pure,
      Except.pure]
    exact ⟨_, rfl⟩
  obtain ⟨layers, hlayers⟩ := mapM_ok_of_forall hplaceholder
  have hcta : PsdRenderer.imageData 320 56 = .ok (.pixels 320 56) :=
    imageData_of_nonneg (by norm_num)
  unfold PsdRenderer.buildSlidePsd
  simp only [imageData_of_nonneg hcanvas, hlayers, bind, Except.bind, pure, Except.pure,
    PsdRenderer.ctaLayers, hcta]
  split_ifs <;> exact ⟨_, rfl⟩

end Zones

/-! ## Agreement -/

/-- Both renderers draw the zones of a slide inside its canvas and apart from each other, and those
of the PSD are those of the SVG rounded down. -/
structure ZonesAgree (slide : Slide) : Prop where
  svg : Tidy (slide.width : ℚ) slide.height ((SvgRenderer.zones slide).map Zone.toRect)
  psd : ∃ psd, PsdRenderer.buildSlidePsd texts slide = .ok psd ∧
    Tidy slide.width slide.height psd.zones ∧
    psd.zones = (SvgRenderer.zones slide).map fun zone => zone.toRect.floor

/-- The canvas is as high as the grid and leaves every zone of a row a pixel at least, and sharing
its width between them leaves one pixel over at most. -/
def CanvasFits (n : ℕ) (width height : ℤ) : Prop :=
  n = 0 ∨ (1140 ≤ height ∧
    let cols : ℤ := if n ≤ 3 then n else (n + 1) / 2
    let room := width - 160 - 24 * (cols - 1)
    cols ≤ room ∧ room % cols ≤ 1)

instance (n : ℕ) (width height : ℤ) : Decidable (CanvasFits n width height) := by
  unfold CanvasFits
  infer_instance

theorem canvasFits_iff {n : ℕ} (hn : 0 < n) {width height : ℤ} : CanvasFits n width height ↔
    1140 ≤ height ∧ (zoneCols n : ℤ) ≤ room n width ∧ room n width % zoneCols n ≤ 1 := by
  have hcols : (zoneCols n : ℤ) = if n ≤ 3 then (n : ℤ) else (n + 1) / 2 := by
    rw [zoneCols_eq]
    split_ifs <;> norm_cast
  simp only [CanvasFits, hn.ne', false_or, room, hcols]

section Agreement

variable {texts} {n : ℕ} {width height : ℤ}

/-- The last row ends at the lower edge of the grid. -/
theorem grid_bottom (hn : 0 < n) :
    380 + ((n ⌈/⌉ zoneCols n : ℕ) : ℤ) * (zoneHeight n + 24) - 24 = 1140 := by
  rw [zoneRows_eq hn, zoneHeight]
  split_ifs <;> norm_num

theorem svg_tidy (hn : 0 < n) (hroom : (zoneCols n : ℤ) ≤ room n width) (hheight : 1140 ≤ height) :
    Tidy (width : ℚ) height ((List.range n).map (svgGrid n width).cell) := by
  have hcols := zoneCols_pos hn
  have hcolsq : (0 : ℚ) < zoneCols n := by exact_mod_cast hcols
  have hroomq : (0 : ℚ) < room n width := by exact_mod_cast lt_of_lt_of_le (by omega) hroom
  have hbottom : (380 : ℚ) + ((n ⌈/⌉ zoneCols n : ℕ) : ℚ) * (zoneHeight n + 24) - 24 = 1140 := by
    exact_mod_cast grid_bottom hn
  refine Grid.tidy_cells ?_ ?_ ?_ ?_ ?_ hcols (le_cols_mul_rows hn) ?_ ?_
  · exact div_pos hroomq hcolsq
  · exact Int.cast_pos.mpr (zoneHeight_pos n)
  · norm_num [svgGrid]
  · norm_num [svgGrid]
  · norm_num [svgGrid]
  · simp only [svgGrid, room]
    push_cast
    field_simp
    linarith
  · have hheightq : (1140 : ℚ) ≤ height := by exact_mod_cast hheight
    simp only [svgGrid]
    linarith

theorem psd_tidy (hn : 0 < n) (hroom : (zoneCols n : ℤ) ≤ room n width) (hheight : 1140 ≤ height) :
    Tidy width height ((List.range n).map (psdGrid n width).cell) := by
  have hcols := zoneCols_pos hn
  have hcolsz : (0 : ℤ) < zoneCols n := by exact_mod_cast hcols
  have hzoneW : 1 ≤ room n width / zoneCols n := by
    rwa [Int.le_ediv_iff_mul_le hcolsz, one_mul]
  refine Grid.tidy_cells ?_ (zoneHeight_pos n) ?_ ?_ ?_ hcols (le_cols_mul_rows hn) ?_ ?_
  · exact hzoneW
  · norm_num [psdGrid]
  · norm_num [psdGrid]
  · norm_num [psdGrid]
  · have hmul := Int.mul_ediv_self_le (x := room n width) hcolsz.ne'
    simp only [psdGrid]
    rw [mul_add]
    simp only [room] at hmul ⊢
    linarith
  · have hbottom := grid_bottom hn
    simp only [psdGrid]
    linarith

/-- The zones of the PSD are rounded down zones of the SVG exactly when every step along a row is. -/
theorem floor_zones_iff (hn : 0 < n) :
    (List.range n).map (psdGrid n width).cell =
        (List.range n).map (fun i => ((svgGrid n width).cell i).floor) ↔
      room n width % zoneCols n ≤ 1 := by
  have hcols := zoneCols_pos hn
  have hcell : ∀ i, (psdGrid n width).cell i = ((svgGrid n width).cell i).floor ↔
      ((i % zoneCols n : ℕ) : ℚ) * Int.fract ((room n width : ℚ) / zoneCols n) < 1 := by
    intro i
    have hx := floor_step 80 24 ((room n width : ℚ) / zoneCols n) (i % zoneCols n)
    have hy : ⌊(380 : ℚ) + ((i / zoneCols n : ℕ) : ℚ) * ((zoneHeight n : ℚ) + 24)⌋ =
        380 + ((i / zoneCols n : ℕ) : ℤ) * (zoneHeight n + 24) := by
      rw [← Int.floor_intCast (R := ℚ) (380 + ((i / zoneCols n : ℕ) : ℤ) * (zoneHeight n + 24))]
      push_cast
      rfl
    rw [← hx]
    simp [Grid.cell, Rect.floor, psdGrid, svgGrid, hy, eq_comm, Rat.floor_intCast_div_natCast]
  simp only [List.map_inj_left, hcell, List.mem_range]
  rw [← fract_steps_lt_one hcols]
  constructor
  · intro h k hk
    have := h k (hk.trans_le (zoneCols_le n))
    rwa [Nat.mod_eq_of_lt hk] at this
  · intro h i _
    exact h _ (Nat.mod_lt _ hcols)

end Agreement

theorem svg_zones_floor (slide : Slide) :
    ((SvgRenderer.zones slide).map fun zone => zone.toRect.floor) =
      (List.range slide.assetRefs.length).map
        fun i => ((svgGrid slide.assetRefs.length slide.width).cell i).floor := by
  have h := congrArg (List.map Rect.floor) (svg_zones_eq slide)
  simpa only [List.map_map, Function.comp_def] using h

theorem zonesAgree_iff {slide : Slide} (hcanvas : 0 ≤ slide.width * slide.height) :
    ZonesAgree texts slide ↔ CanvasFits slide.assetRefs.length slide.width slide.height := by
  rcases Nat.eq_zero_or_pos slide.assetRefs.length with hn | hn
  · -- without references there are no zones
    obtain ⟨psd, hpsd⟩ : ∃ psd, PsdRenderer.buildSlidePsd texts slide = .ok psd :=
      build_exists hcanvas (.inl hn)
    have hsvg := svg_zones_eq slide
    have hfloor := svg_zones_floor slide
    have hzones := zones_of_build hpsd
    rw [hn, List.range_zero, List.map_nil] at hsvg hfloor hzones
    refine iff_of_true ⟨?_, psd, hpsd, ?_, ?_⟩ (.inl hn)
    · exact hsvg ▸ tidy_nil _ _
    · exact hzones ▸ tidy_nil _ _
    · rw [hzones, hfloor]
  · rw [canvasFits_iff hn]
    have hcols : (0 : ℤ) < zoneCols slide.assetRefs.length := by exact_mod_cast zoneCols_pos hn
    constructor
    · rintro ⟨-, psd, hpsd, htidy, hround⟩
      rw [zones_of_build hpsd] at htidy hround
      rw [svg_zones_floor, floor_zones_iff hn] at hround
      have hcell : ∀ i < slide.assetRefs.length,
          (psdGrid slide.assetRefs.length slide.width).cell i ∈ (List.range slide.assetRefs.length).map
            (psdGrid slide.assetRefs.length slide.width).cell :=
        fun i hi => List.mem_map_of_mem (List.mem_range.mpr hi)
      refine ⟨?_, ?_, hround⟩
      · -- the last zone ends at the lower edge of the grid
        have hlast := (htidy.inside _ (hcell _ (Nat.sub_lt hn one_pos))).2.2.2
        have hbottom := grid_bottom hn
        have hrows : 1 ≤ slide.assetRefs.length ⌈/⌉ zoneCols slide.assetRefs.length := by
          rw [zoneRows_eq hn]
          split_ifs <;> norm_num
        simp only [Rect.bottom, Grid.cell, psdGrid, last_row hn, Nat.cast_sub hrows] at hlast
        push_cast at hlast
        linarith
      · have hwide := (htidy.sized _ (hcell 0 hn)).1
        simp only [Grid.cell_w, psdGrid] at hwide
        have hone : 1 ≤ room slide.assetRefs.length slide.width /
            zoneCols slide.assetRefs.length := hwide
        rwa [Int.le_ediv_iff_mul_le hcols, one_mul] at hone
    · rintro ⟨hheight, hroom, hrest⟩
      obtain ⟨psd, hpsd⟩ : ∃ psd, PsdRenderer.buildSlidePsd texts slide = .ok psd :=
        build_exists hcanvas (.inr (Int.ediv_nonneg (hcols.le.trans hroom) hcols.le))
      refine ⟨?_, psd, hpsd, ?_, ?_⟩
      · rw [svg_zones_eq]
        exact svg_tidy hn hroom hheight
      · rw [zones_of_build hpsd]
        exact psd_tidy hn hroom hheight
      · rw [zones_of_build hpsd, svg_zones_floor, floor_zones_iff hn]
        exact hrest

theorem canvas_area_nonneg (opts : CanvasOptions) (slide : Slide) :
    0 ≤ (onCanvas texts opts slide).width * (onCanvas texts opts slide).height := by
  have hside : ∀ text fallback, 0 ≤ canvasSide texts text fallback :=
    fun _ _ => le_trans (by norm_num) (le_max_left _ _)
  exact mul_nonneg (hside _ _) (hside _ _)

/-- On the canvas of the options the zones agree exactly when it fits their number. -/
theorem onCanvas_zonesAgree_iff (opts : CanvasOptions) (slide : Slide) :
    ZonesAgree texts (onCanvas texts opts slide) ↔
      CanvasFits slide.assetRefs.length (canvasSide texts opts.width 1080)
        (canvasSide texts opts.height 1350) :=
  zonesAgree_iff texts (canvas_area_nonneg texts opts slide)

/-- Texts, of which the two default options are the numbers. -/
def plainTexts : Texts where
  parseInt := fun text => if text = "1080" then some 1080 else if text = "1350" then some 1350 else none
  numberText := toString
  toLowerCase := id
  toUpperCase := id

def threeAssets : Slide where
  index := 1
  title := "Compre por Azul"
  palette := .Azul
  copy := ""
  cta := none
  assetRefs := ["a.jpg", "b.jpg", "c.jpg"]
  width := 1080
  height := 1350
  total := 5

/-- On the default canvas the third zone of the PSD begins a pixel before that of the SVG. -/
theorem threeAssets_not_zonesAgree :
    ¬ ZonesAgree plainTexts (onCanvas plainTexts ⟨"1080", "1350"⟩ threeAssets) := by
  rw [zonesAgree_iff _ (canvas_area_nonneg _ _ _)]
  decide

end SlideZones
end Batiste
