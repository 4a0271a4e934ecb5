import Batiste.Tiling
import Batiste.JsNumber
import Batiste.JsString

/-! The structural chunker of `cast-chunker.ts`. -/
namespace Batiste
namespace CastChunker

open Tiling

inductive SymbolType
  | function
  | method
  | class_
  | call
  deriving DecidableEq, Repr

/-- The fields of a symbol that the chunker reads. -/
structure CodeSymbol where
  name : String
  type : SymbolType
  startLine : ℤ
  endLine : ℤ
  deriving DecidableEq, Repr

inductive ChunkKind
  | symbol
  | split
  | gap
  deriving DecidableEq, Repr

structure Chunk where
  filePath : String
  startLine : ℤ
  endLine : ℤ
  text : String
  symbols : List String
  kind : ChunkKind
  deriving DecidableEq, Repr

structure CastOptions where
  maxNonWsChars : Option JsNumber := none
  maxLines : Option JsNumber := none

def DEFAULT_MAX_NON_WS : JsNumber := .finite 1200

def DEFAULT_MAX_LINES : JsNumber := .finite 400

def isStructural : SymbolType → Bool
  | .function | .method | .class_ => true
  | .call => false

/-- A line range, counted from 1. -/
abbrev Region := Stretch

/-- What is handed to `emit`. -/
abbrev Piece := Stretch × ChunkKind

abbrev Line := List Char

/-! ## Sizes -/

/-- The lines of a region. -/
def slice (lines : List Line) (first last : ℤ) : List Line :=
  (lines.drop (first - 1).toNat).take (last - first + 1).toNat

def nonWsSize (lines : List Line) (first last : ℤ) : ℕ :=
  ((slice lines first last).map fun line => line.countP fun c => !JsString.isSpace c).sum

def sliceText (lines : List Line) (first last : ℤ) : String :=
  String.ofList (['\n'].intercalate (slice lines first last))

/-- What one call of `chunkSource` packs: the lines and the two limits. -/
structure Packing where
  lines : List Line
  maxNonWs : JsNumber
  maxLines : JsNumber

def emit (first last : ℤ) (kind : ChunkKind) : List Piece :=
  if last < first then [] else [(⟨first, last⟩, kind)]

namespace Packing

variable (p : Packing)

/-! ## `hardSplit` -/

/-- The inner loop of `hardSplit`: how far a piece from `start` is extended. -/
def grow (start last stop : ℤ) : ℤ :=
  if stop < last ∧ p.maxLines.natLt (stop - start + 1).toNat ∧
      p.maxNonWs.natLe (nonWsSize p.lines start (stop + 1)) then
    grow start last (stop + 1)
  else stop
termination_by (last - stop).toNat

theorem le_grow (start last stop : ℤ) : stop ≤ p.grow start last stop := by
  fun_induction grow with
  | case1 stop _ ih => omega
  | case2 => exact le_rfl

theorem grow_le (start : ℤ) {last stop : ℤ} (h : stop ≤ last) : p.grow start last stop ≤ last := by
  fun_induction grow with
  | case1 stop hgrow ih => exact ih (by omega)
  | case2 => exact h

def hardSplit (start last : ℤ) (kind : ChunkKind) : List Piece :=
  if start ≤ last then
    emit start (p.grow start last start) kind ++
      hardSplit (p.grow start last start + 1) last kind
  else []
termination_by (last + 1 - start).toNat
decreasing_by
  have := p.le_grow start last start
  omega

/-! ## `packRegion` -/

/-- One region of a cover; a gap has no symbol. -/
structure Block where
  region : Region
  sym : Option CodeSymbol
  deriving DecidableEq, Repr

/-- The symbols of a region that no other one there contains. -/
def roots (region : Region) (symbolsInRegion : List CodeSymbol) : List CodeSymbol :=
  symbolsInRegion.filter fun s =>
    decide (region.first ≤ s.startLine) && decide (s.endLine ≤ region.last) &&
      !symbolsInRegion.any fun q =>
        decide (q ≠ s) && decide (q.startLine ≤ s.startLine) && decide (s.endLine ≤ q.endLine) &&
          !(decide (q.startLine = s.startLine) && decide (q.endLine = s.endLine))

def gapBlock (first last : ℤ) : Block := ⟨⟨first, last⟩, none⟩

/-- The cover of a region from the cursor on. -/
def blocks (last : ℤ) : ℤ → List CodeSymbol → List Block
  | cursor, [] => if cursor ≤ last then [gapBlock cursor last] else []
  | cursor, sym :: rest =>
    (if cursor < sym.startLine then [gapBlock cursor (sym.startLine - 1)] else []) ++
      ⟨⟨sym.startLine, sym.endLine⟩, some sym⟩ :: blocks last (sym.endLine + 1) rest

def oversized (b : Block) : Bool :=
  p.maxNonWs.ltNat (nonWsSize p.lines b.region.first b.region.last) ||
    p.maxLines.ltNat (b.region.last - b.region.first + 1).toNat

/-- With the block the buffer would be too large. -/
def overflows (bufStart : Option ℤ) (b : Block) : Bool :=
  match bufStart with
  | some start => p.maxNonWs.ltNat (nonWsSize p.lines start b.region.last)
  | none => false

def flush (bufStart : Option ℤ) (bufEnd : ℤ) : List Piece :=
  match bufStart with
  | some start => emit start bufEnd .symbol
  | none => []

/-- The greedy loop over the blocks; `expand` is what becomes of an oversized one. -/
def packBlocks (expand : Block → List Piece) : Option ℤ → ℤ → List Block → List Piece
  | bufStart, bufEnd, [] => flush bufStart bufEnd
  | bufStart, bufEnd, b :: bs =>
    if p.oversized b then flush bufStart bufEnd ++ expand b ++ packBlocks expand none bufEnd bs
    else if p.overflows bufStart b then
      flush bufStart bufEnd ++ packBlocks expand (some b.region.first) b.region.last bs
    else packBlocks expand (some (bufStart.getD b.region.first)) b.region.last bs

def children (region : Region) (sym : CodeSymbol) (symbolsInRegion : List CodeSymbol) :
    List CodeSymbol :=
  symbolsInRegion.filter fun c =>
    decide (c ≠ sym) && decide (region.first ≤ c.startLine) && decide (c.endLine ≤ region.last)

theorem length_children_lt {region : Region} {sym : CodeSymbol} {symbols : List CodeSymbol}
    (h : sym ∈ symbols) : (children region sym symbols).length < symbols.length := by
  refine List.length_filter_lt_length_iff_exists.mpr ⟨sym, h, ?_⟩
  simp

/-- The test that a block's symbol is one of the region's always succeeds: it carries the
termination argument. -/
def packRegion (region : Region) (symbolsInRegion : List CodeSymbol) : List Piece :=
  if roots region symbolsInRegion = [] then p.hardSplit region.first region.last .gap
  else
    p.packBlocks (fun b =>
      match b.sym with
      | some sym =>
        if _h : sym ∈ symbolsInRegion then
          if children b.region sym symbolsInRegion = [] then
            p.hardSplit b.region.first b.region.last .split
          else packRegion b.region (children b.region sym symbolsInRegion)
        else []
      | none => p.hardSplit b.region.first b.region.last .gap)
      none 0 (blocks region.last region.first (roots region symbolsInRegion))
termination_by symbolsInRegion.length
decreasing_by exact length_children_lt _h

end Packing

/-! ## `chunkSource` -/

def key (s : CodeSymbol) : ℤ × ℤ × String := (s.startLine, s.endLine, s.name)

def dedupe : List (ℤ × ℤ × String) → List CodeSymbol → List CodeSymbol
  | _, [] => []
  | seen, s :: rest =>
    if key s ∈ seen then dedupe seen rest else s :: dedupe (key s :: seen) rest

/-- The comparison of the sort: by first line, the longer one first. -/
def notAfter (a b : CodeSymbol) : Prop :=
  a.startLine < b.startLine ∨ a.startLine = b.startLine ∧ b.endLine ≤ a.endLine

instance : DecidableRel notAfter := fun a b => by
  unfold notAfter
  exact inferInstance

/-- The well-formed structural symbols, each once, in the order of the pass. -/
def structuralSymbols (symbols : List CodeSymbol) : List CodeSymbol :=
  (dedupe [] (symbols.filter fun s =>
    isStructural s.type && decide (s.startLine ≤ s.endLine) && decide (1 ≤ s.startLine))).insertionSort
      notAfter

def packing (source : String) (options : CastOptions) : Packing :=
  { lines := source.toList.splitOn '\n'
    maxNonWs := options.maxNonWsChars.getD DEFAULT_MAX_NON_WS
    maxLines := options.maxLines.getD DEFAULT_MAX_LINES }

def toChunk (filePath : String) (lines : List Line) (symbols : List CodeSymbol) (piece : Piece) :
    Chunk :=
  { filePath
    startLine := piece.1.first
    endLine := piece.1.last
    text := sliceText lines piece.1.first piece.1.last
    symbols := (symbols.filter fun s =>
      decide (piece.1.first ≤ s.startLine) && decide (s.endLine ≤ piece.1.last)).map CodeSymbol.name
    kind := piece.2 }

def chunkSource (source filePath : String) (parsed : List CodeSymbol) (options : CastOptions) :
    List Chunk :=
  let p := packing source options
  let symbols := structuralSymbols parsed
  if p.lines.length = 0 then []
  else (p.packRegion ⟨1, p.lines.length⟩ symbols).map (toChunk filePath p.lines symbols)

end CastChunker
end Batiste
