import Batiste.Components
import Batiste.Dilate
import Batiste.Grouping
import Batiste.Slicer
import Batiste.UnionFind
import Mathlib

/-! The overhang check of a part: the regions of each layer that nothing supports, the clusters they
form across layers, and the verdict. -/
namespace Batiste
namespace Overhang

open Layers

inductive Kind
  | fino
  | ponte
  | ponteLonga
  | balanco
  | ilha
  deriving DecidableEq, Repr

/-- `sevRank` -/
def Kind.sevRank : Kind → ℤ
  | .fino => -1
  | .ponte => 0
  | .ponteLonga => 1
  | .balanco => 2
  | .ilha => 3

structure Feature where
  name : String
  z : Option (ℚ × ℚ)
  box : Option (ℚ × ℚ × ℚ × ℚ)

structure Options where
  layer : ℚ := 1 / 5
  px : ℚ := 1 / 10
  layer_pos : 0 < layer
  px_pos : 0 < px
  maxOverhangDeg : ℚ := 45
  tol : ℚ := 1 / 20
  bridgeMax : ℚ := 8
  minArea : ℚ := 1
  noisePx : ℕ := 8
  minWidth : ℚ := 1 / 4
  strictBridge : Bool := false
  features : List Feature := []

/-- The functions of numbers that have no rational values: the tangent of degrees, and the length of
a step. -/
structure Trig where
  tan : ℚ → ℚ
  hypot : ℤ → ℤ → ℚ

/-- A region with its places, which the source keeps beside the record. -/
structure Region where
  idx : List ℕ
  area : ℚ
  cx : ℚ
  cy : ℚ
  span : ℚ
  depth : ℚ
  widthEff : ℚ
  kind : Kind
  z : ℚ
  layerIdx : ℕ

/-! ## The kind of a region -/

section Classify

variable {W H : ℕ} (idx : List ℕ) (S M : BitGrid W H)

def inGrid (W H : ℕ) (r c : ℤ) : Bool := 0 ≤ r ∧ 0 ≤ c ∧ r < H ∧ c < W

def place (W : ℕ) (r c : ℤ) : ℕ := (r * W + c).toNat

def inReg (W H : ℕ) (r c : ℤ) : Bool := inGrid W H r c && idx.contains (place W r c)

/-- Material of the layer that the layer below supports. -/
def held (r c : ℤ) : Bool := inGrid W H r c && S.bit (place W r c) && M.bit (place W r c)

/-- Whether a place is at the edge of its region, and whether it touches held material there. -/
def contact (p : ℕ) : Bool × Bool :=
  let outside := (window 1 W H p).filter fun q => !idx.contains q
  (!outside.isEmpty, outside.any fun q => S.bit q && M.bit q)

def DIRS : List (ℤ × ℤ) := [(1, 0), (0, 1), (1, 1), (1, -1)]

/-- The places of a run in a direction, and where it ends. -/
def run (W H : ℕ) (dx dy : ℤ) : ℕ → ℤ → ℤ → ℕ × ℤ × ℤ
  | 0, rr, cc => (0, rr, cc)
  | fuel + 1, rr, cc =>
    if inReg idx W H rr cc then
      let (n, rr', cc') := run W H dx dy fuel (rr + dy) (cc + dx)
      (n + 1, rr', cc')
    else (0, rr, cc)

/-- The places in runs with support at both ends, and the longest such run. -/
def bridged (step : ℚ) (d : ℤ × ℤ) : ℕ × ℚ :=
  idx.foldl (fun acc p =>
    let r : ℤ := (p / W : ℕ)
    let c : ℤ := (p % W : ℕ)
    if inReg idx W H (r - d.2) (c - d.1) then acc
    else
      let (n, rr, cc) := run idx W H d.1 d.2 (W + H + 1) r c
      if held S M rr cc && held S M (r - d.2) (c - d.1) then
        (acc.1 + n, max acc.2 (n * step))
      else acc) (0, 0)

/-- The share and the span of the best direction. -/
def bestBridge (trig : Trig) (px : ℚ) : ℚ × ℚ :=
  DIRS.foldl (fun best d =>
    let (n, spanB) := bridged idx S M (trig.hypot d.1 d.2 * px) d
    let frac : ℚ := n / idx.length
    if frac > best.1 + 1 / 1000000000 ∨ |frac - best.1| < 1 / 1000000000 ∧ spanB < best.2 then
      (frac, spanB)
    else best) (0, 0)

def classify (trig : Trig) (g : Grid) (o : Options) (z : ℚ) (layerIdx : ℕ) : Region :=
  let sx : ℚ := ((idx.map fun p => p % W).sum : ℕ)
  let sy : ℚ := ((idx.map fun p => p / W).sum : ℕ)
  let contacts := idx.map (contact idx S M)
  let edge : ℚ := contacts.countP fun t => t.1
  let touchS := contacts.countP fun t => t.1 && t.2
  let area : ℚ := idx.length * (o.px * o.px)
  let widthEff := 2 * area / max (edge * o.px) o.px
  let base : Region := {
    idx
    area
    cx := g.cx (sx / idx.length)
    cy := g.cy (sy / idx.length)
    span := 0
    depth := 0
    widthEff
    kind := .ilha
    z
    layerIdx }
  if touchS = 0 then base
  else if widthEff < o.minWidth then
    { base with span := widthEff, depth := widthEff, kind := .fino }
  else
    let best := bestBridge idx S M trig o.px
    if best.1 ≥ 9 / 10 then
      { base with
        span := best.2
        depth := best.2 / 2
        kind := if best.2 ≤ o.bridgeMax then .ponte else .ponteLonga }
    else { base with span := widthEff, depth := widthEff, kind := .balanco }

end Classify

/-! ## The regions of the layers -/

/-- The layer grown by the radius; a negative radius leaves nothing. -/
def support {W H : ℕ} (m : BitGrid W H) (R : ℚ) : BitGrid W H :=
  if h : 0 ≤ R then dilate m ⟨R, h⟩ else .blank

def unsupported {W H : ℕ} (M S : BitGrid W H) : BitGrid W H :=
  BitGrid.blank.paint ((List.range (W * H)).filter fun p => M.bit p && !S.bit p)

/-- `(adv + o.tol) / o.px` -/
def Options.radius (trig : Trig) (o : Options) : ℚ :=
  (o.layer * trig.tan o.maxOverhangDeg + o.tol) / o.px

def layerRegions (trig : Trig) (o : Options) (sl : Slicer) (i : ℕ) : List Region :=
  if i = 0 then []
  else
    let M := sl.slice i
    let S := support (sl.slice (i - 1 : ℕ)) (o.radius trig)
    let regions := (components (unsupported M S)).getD []
    (regions.filter fun idx => o.noisePx ≤ idx.length).map fun idx =>
      classify idx S M trig sl.grid o (sl.zOf i) i

/-! ## Clusters across layers -/

structure Clustering where
  uf : ℕ → ℕ
  clusters : List (List Region)
  prevLab : ℕ → Option ℕ
  lab : ℕ → Option ℕ

def Clustering.start : Clustering := ⟨id, [], fun _ => none, fun _ => none⟩

/-- `touching.add(find(l))` -/
def touch (n : ℕ) (acc : List ℕ × (ℕ → ℕ)) (l : ℕ) : List ℕ × (ℕ → ℕ) :=
  let found := UnionFind.find n acc.2 l
  (if found.1 ∈ acc.1 then acc.1 else acc.1 ++ [found.1], found.2)

/-- The clusters of the last layer at the places of a list. -/
def touching (n : ℕ) (prevLab : ℕ → Option ℕ) (qs : List ℕ) (uf : ℕ → ℕ) : List ℕ × (ℕ → ℕ) :=
  (qs.filterMap prevLab).foldl (touch n) ([], uf)

/-- `for (const a of arr) uf[find(a)] = find(cid)` -/
def mergeInto (n cid : ℕ) (arr : List ℕ) (uf : ℕ → ℕ) : ℕ → ℕ :=
  arr.foldl (fun uf a =>
    let ra := UnionFind.find n uf a
    let rc := UnionFind.find n ra.2 cid
    Function.update rc.2 ra.1 rc.1) uf

/-- The cluster a region goes to: a new one, or the touching ones merged. -/
def Clustering.target (s : Clustering) (uf : ℕ → ℕ) : List ℕ → ℕ × Clustering
  | [] => (s.clusters.length, { s with uf, clusters := s.clusters ++ [[]] })
  | a :: arr => (a, { s with uf := mergeInto s.clusters.length a (a :: arr) uf })

/-- The region goes to the representative of its cluster and marks its places with it. -/
def Clustering.place (s : Clustering) (cid : ℕ) (reg : Region) : Clustering :=
  let found := UnionFind.find s.clusters.length s.uf cid
  { s with
    uf := found.2
    clusters := s.clusters.modify found.1 (· ++ [reg])
    lab := fun p => if p ∈ reg.idx then some found.1 else s.lab p }

def Clustering.add (W H : ℕ) (s : Clustering) (reg : Region) : Clustering :=
  let arr := touching s.clusters.length s.prevLab (reg.idx.flatMap (window 3 W H)) s.uf
  let chosen := s.target arr.2 arr.1
  chosen.2.place chosen.1 reg

def Clustering.layer (W H : ℕ) (s : Clustering) (regs : List Region) : Clustering :=
  let s := regs.foldl (Clustering.add W H) { s with lab := fun _ => none }
  { s with prevLab := s.lab }

def clusterLayers (W H : ℕ) (layers : List (List Region)) : Clustering :=
  layers.foldl (Clustering.layer W H) .start

/-- Each cluster with its representative. -/
def rooted (n : ℕ) : (ℕ → ℕ) → ℕ → List (List Region) → List (ℕ × List Region)
  | _, _, [] => []
  | uf, id, regs :: clusters =>
    let found := UnionFind.find n uf id
    (found.1, regs) :: rooted n found.2 (id + 1) clusters

def groups (W H : ℕ) (layers : List (List Region)) : List (List Region) :=
  let s := clusterLayers W H layers
  (Grouping.groupBy Prod.fst (rooted s.clusters.length s.uf 0 s.clusters)).map fun g =>
    g.2.flatMap Prod.snd

/-! ## The verdict -/

/-- `+x.toFixed(d)` -/
def toFixed (d : ℕ) (x : ℚ) : ℚ :=
  if x < 0 then -(⌊-x * 10 ^ d + 1 / 2⌋ / 10 ^ d) else ⌊x * 10 ^ d + 1 / 2⌋ / 10 ^ d

structure Finding where
  kind : Kind
  zMin : ℚ
  zMax : ℚ
  layers : ℕ
  x : ℚ
  y : ℚ
  z : ℚ
  areaMm2 : ℚ
  totalMm2 : ℚ
  spanMm : ℚ
  depthMm : ℚ
  layerIdx : ℕ
  feature : String
  fails : Bool

def nameFeature (zMin zMax x y : ℚ) (feats : List Feature) : String :=
  let outOfZ (ft : Feature) : Bool := ft.z.any fun z => zMax < z.1 ∨ zMin > z.2
  let outOfBox (ft : Feature) : Bool := ft.box.any fun box =>
    x < box.1 ∨ x > box.2.2.1 ∨ y < box.2.1 ∨ y > box.2.2.2
  ((feats.find? fun ft => !outOfZ ft && !outOfBox ft).map Feature.name).getD ""

/-- The kind of the worst region. -/
def worst (regs : List Region) : Kind :=
  regs.foldl (fun kind r => if r.kind.sevRank > kind.sevRank then r.kind else kind) .fino

/-- The largest area and its region; the first region where no area is positive. -/
def largest (r : Region) (regs : List Region) : ℚ × Region :=
  (r :: regs).foldl (fun acc r => if r.area > acc.1 then (r.area, r) else acc) (0, r)

def blocking (o : Options) : Kind → Bool
  | .balanco | .ilha => true
  | .ponteLonga => o.strictBridge
  | _ => false

def summary (o : Options) (r : Region) (regs : List Region) : Finding :=
  let kind := worst (r :: regs)
  let (maxA, big) := largest r regs
  let total := ((r :: regs).map Region.area).sum
  let span := (r :: regs).foldl (fun m r => max m r.span) 0
  let maxDepth := (r :: regs).foldl (fun m r => max m r.depth) 0
  let zlo := regs.foldl (fun m r => min m r.z) r.z
  let zhi := regs.foldl (fun m r => max m r.z) r.z
  let zMin := toFixed 2 (zlo - o.layer / 2)
  let zMax := toFixed 2 (zhi + o.layer / 2)
  let x := toFixed 2 big.cx
  let y := toFixed 2 big.cy
  { kind
    zMin
    zMax
    layers := (r :: regs).length
    x
    y
    z := toFixed 2 big.z
    areaMm2 := toFixed 2 maxA
    totalMm2 := toFixed 2 total
    spanMm := toFixed 1 span
    depthMm := toFixed 2 maxDepth
    layerIdx := big.layerIdx
    feature := nameFeature zMin zMax x y o.features
    fails := blocking o kind && maxA ≥ o.minArea }

def summaryOf (o : Options) : List Region → Option Finding
  | [] => none
  | r :: regs => some (summary o r regs)

structure Report where
  layers : ℕ
  clusters : List Finding
  failing : ℕ
  pass : Bool

def reportOf (o : Options) (nLayers : ℕ) (groups : List (List Region)) : Report :=
  let found := (groups.filterMap (summaryOf o)).insertionSort fun a b => a.zMin ≤ b.zMin
  let fails := found.filter Finding.fails
  { layers := nLayers
    clusters := found
    failing := fails.length
    pass := fails.length == 0 }

def partLayers (trig : Trig) (o : Options) (sl : Slicer) : List (List Region) :=
  (List.range sl.nLayers).map (layerRegions trig o sl)

/-- A part without triangles has no layers. -/
def analyzeTris (trig : Trig) (o : Options) (tris : List Triangle) : Report :=
  match makeSlicer tris ⟨o.layer, o.px, o.layer_pos, o.px_pos, none, none, none⟩ with
  | none => reportOf o 0 []
  | some sl => reportOf o sl.nLayers (groups sl.grid.W sl.grid.H (partLayers trig o sl))

end Overhang
end Batiste
