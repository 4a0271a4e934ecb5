import Batiste.CastChunker

/-! When the chunks of a source tile its lines.
A chunk that is flushed between two symbols that share a line puts that line into both. -/
namespace Batiste
namespace CastChunker

open Tiling

def stretches (pieces : List Piece) : List Stretch := pieces.map Prod.fst

@[simp] theorem stretches_nil : stretches [] = [] := rfl

@[simp] theorem stretches_append (ps qs : List Piece) :
    stretches (ps ++ qs) = stretches ps ++ stretches qs := List.map_append

theorem stretches_emit {first last : ℤ} (h : first ≤ last) (kind : ChunkKind) :
    stretches (emit first last kind) = [⟨first, last⟩] := by
  rw [emit, if_neg (by omega)]
  rfl

theorem tiles_emit {first last : ℤ} (h : first ≤ last) (kind : ChunkKind) :
    Tiles first (last + 1) (stretches (emit first last kind)) := by
  rw [stretches_emit h]
  exact ⟨rfl, h, rfl⟩

namespace Packing

variable (p : Packing)

theorem hardSplit_tiles {start last : ℤ} (h : start ≤ last + 1) (kind : ChunkKind) :
    Tiles start (last + 1) (stretches (p.hardSplit start last kind)) := by
  fun_induction hardSplit with
  | case1 start hle ih =>
    have hge := p.le_grow start last start
    have hend := p.grow_le start hle
    rw [stretches_append]
    exact (tiles_emit hge kind).append (ih (by omega))
  | case2 start hlt =>
    show start = last + 1
    omega

/-! ## The cover -/

/-- Blocks from a position on, without a gap; a block may share lines with the one before it, but
does not end before it. -/
def Chained (d : ℤ) : ℤ → List Block → Prop
  | c, [] => c = d
  | c, b :: bs => b.region.first ≤ c ∧ b.region.first ≤ b.region.last ∧ c ≤ b.region.last + 1 ∧
      Chained d (b.region.last + 1) bs

theorem blocks_chained {last cursor : ℤ} {syms : List CodeSymbol}
    (hcursor : cursor ≤ last + 1) (hbound : ∀ s ∈ syms, s.endLine ≤ last)
    (hwell : ∀ s ∈ syms, s.startLine ≤ s.endLine) (hfrom : ∀ s ∈ syms, cursor ≤ s.endLine + 1)
    (hends : syms.Pairwise fun a b => a.endLine ≤ b.endLine) :
    Chained (last + 1) cursor (blocks last cursor syms) := by
  induction syms generalizing cursor with
  | nil =>
    rw [blocks]
    split
    case isTrue h => exact ⟨le_rfl, h, by simp [gapBlock]; omega, rfl⟩
    case isFalse h =>
      show cursor = last + 1
      omega
  | cons sym rest ih =>
    simp only [List.forall_mem_cons] at hbound hwell hfrom
    rw [List.pairwise_cons] at hends
    have hrest := @ih (sym.endLine + 1) (by omega) hbound.2 hwell.2
      (fun s hs => by have := hends.1 s hs; omega) hends.2
    rw [blocks]
    split
    case isTrue h =>
      refine ⟨le_rfl, ?_, ?_, ?_, hwell.1, ?_, hrest⟩
      all_goals simp only [gapBlock]; omega
    case isFalse h => exact ⟨by simp only; omega, hwell.1, hfrom.1, hrest⟩

/-- No root ends before an earlier one: the earlier one would contain it. -/
theorem roots_ends {region : Region} {symbols : List CodeSymbol}
    (hsorted : symbols.Pairwise fun a b => a.startLine ≤ b.startLine) :
    (roots region symbols).Pairwise fun a b => a.endLine ≤ b.endLine := by
  have hroots : (roots region symbols).Pairwise fun a b => a.startLine ≤ b.startLine :=
    hsorted.sublist List.filter_sublist
  refine List.Pairwise.imp_of_mem ?_ hroots
  intro a b ha hb hstart
  by_contra hend
  rw [not_le] at hend
  have hmem : a ∈ symbols := List.mem_of_mem_filter ha
  have hroot := List.of_mem_filter hb
  simp only [Bool.and_eq_true, Bool.not_eq_true', List.any_eq_false, decide_eq_true_eq] at hroot
  refine hroot.2 a hmem ?_
  have hne : a ≠ b := by
    rintro rfl
    omega
  simp only [hne, ne_eq, not_false_eq_true, hstart, hend.le, and_self, true_and,
    Bool.and_eq_false_iff, decide_eq_false_iff_not]
  omega

/-! ## The condition -/

/-- Where the loop flushes, the next block begins behind the lines it has covered. -/
def flushesApart (inner : Block → Bool) : Option ℤ → ℤ → List Block → Bool
  | _, _, [] => true
  | bufStart, cursor, b :: bs =>
    if p.oversized b then
      decide (cursor ≤ b.region.first) && inner b &&
        flushesApart inner none (b.region.last + 1) bs
    else if p.overflows bufStart b then
      decide (cursor ≤ b.region.first) &&
        flushesApart inner (some b.region.first) (b.region.last + 1) bs
    else
      (bufStart.isSome || decide (cursor ≤ b.region.first)) &&
        flushesApart inner (some (bufStart.getD b.region.first)) (b.region.last + 1) bs

/-- In the region, and in every oversized symbol that is split along its children, symbols that
share a line stay in one buffer. -/
def keepsSharedLines (region : Region) (symbolsInRegion : List CodeSymbol) : Bool :=
  if roots region symbolsInRegion = [] then true
  else
    p.flushesApart (fun b =>
      match b.sym with
      | some sym =>
        if _h : sym ∈ symbolsInRegion then
          if children b.region sym symbolsInRegion = [] then true
          else keepsSharedLines b.region (children b.region sym symbolsInRegion)
        else true
      | none => true)
      none region.first (blocks region.last region.first (roots region symbolsInRegion))
termination_by symbolsInRegion.length
decreasing_by exact length_children_lt _h

/-! ## Packing -/

/-- What is emitted for one block leaves no gap in it, and tiles it exactly when a test passes. -/
structure Expands (region : Region) (pieces : List Piece) (test : Bool) : Prop where
  steps : Steps region.first (region.last + 1) (stretches pieces)
  tiles_iff : Tiles region.first (region.last + 1) (stretches pieces) ↔ test = true

theorem Expands.of_tiles {region : Region} {pieces : List Piece}
    (h : Tiles region.first (region.last + 1) (stretches pieces)) : Expands region pieces true :=
  ⟨h.steps, by simp [h]⟩

/-- Where the next piece begins: at the buffer, or behind what was emitted. -/
def position (bufStart : Option ℤ) (cursor : ℤ) : ℤ := bufStart.getD cursor

theorem flush_tiles {bufStart : Option ℤ} {bufEnd : ℤ} (h : ∀ s ∈ bufStart, s ≤ bufEnd)
    {cursor : ℤ} (hcursor : bufStart.isSome → bufEnd + 1 = cursor) :
    Tiles (position bufStart cursor) cursor (stretches (flush bufStart bufEnd)) := by
  cases bufStart with
  | none => exact rfl
  | some start =>
    rw [← hcursor rfl]
    exact tiles_emit (h start rfl) .symbol

theorem Chained.le {d cursor : ℤ} {bs : List Block} (h : Chained d cursor bs) : cursor ≤ d := by
  induction bs generalizing cursor with
  | nil => exact le_of_eq h
  | cons b bs ih => exact h.2.2.1.trans (ih h.2.2.2)

theorem Chained.well {d cursor : ℤ} {bs : List Block} (h : Chained d cursor bs) {b : Block}
    (hb : b ∈ bs) : b.region.first ≤ b.region.last := by
  induction bs generalizing cursor with
  | nil => exact absurd hb List.not_mem_nil
  | cons b' bs ih =>
    rcases List.mem_cons.mp hb with rfl | hb
    · exact h.2.1
    · exact ih h.2.2.2 hb

/-- A block is a gap or one of the symbols. -/
theorem mem_blocks {last cursor : ℤ} {syms : List CodeSymbol} {b : Block}
    (h : b ∈ blocks last cursor syms) :
    b.sym = none ∨ ∃ s ∈ syms, b = ⟨⟨s.startLine, s.endLine⟩, some s⟩ := by
  induction syms generalizing cursor with
  | nil =>
    rw [blocks] at h
    split at h
    · rw [List.mem_singleton.mp h]
      exact Or.inl rfl
    · exact absurd h List.not_mem_nil
  | cons sym rest ih =>
    rw [blocks, List.mem_append, List.mem_cons] at h
    rcases h with h | rfl | h
    · split at h
      · rw [List.mem_singleton.mp h]
        exact Or.inl rfl
      · exact absurd h List.not_mem_nil
    · exact Or.inr ⟨sym, List.mem_cons_self, rfl⟩
    · refine (ih h).imp_right ?_
      rintro ⟨s, hs, rfl⟩
      exact ⟨s, List.mem_cons_of_mem _ hs, rfl⟩

/-- A part that may begin before the position it is emitted at. -/
theorem tiles_part_iff {c c' d : ℤ} {ps : List Stretch} (h : Steps c d ps) (hc : c ≤ c')
    (hd : c < d) : (Steps c' d ps) ∧ (Tiles c' d ps ↔ c' ≤ c ∧ Tiles c d ps) := by
  have hne : ps ≠ [] := by
    rintro rfl
    rw [steps_nil] at h
    omega
  refine ⟨h.weaken hne hc, ?_⟩
  rw [tiles_from_iff h hne hc]
  constructor
  · exact fun h => ⟨h.1.ge, h.2⟩
  · exact fun h => ⟨le_antisymm hc h.1, h.2⟩

/-- The greedy loop leaves no gap, and it tiles exactly when it flushes between blocks that share
no line and the expanded blocks are tiled. -/
theorem packBlocks_expands {expand : Block → List Piece} {inner : Block → Bool} {d : ℤ}
    {bs : List Block} (bufStart : Option ℤ) (bufEnd : ℤ) {cursor : ℤ} (hchain : Chained d cursor bs)
    (hbuf : ∀ s ∈ bufStart, s ≤ bufEnd) (hcursor : bufStart.isSome → bufEnd + 1 = cursor)
    (hexpand : ∀ b ∈ bs, p.oversized b = true → Expands b.region (expand b) (inner b)) :
    Steps (position bufStart cursor) d (stretches (p.packBlocks expand bufStart bufEnd bs)) ∧
      (Tiles (position bufStart cursor) d (stretches (p.packBlocks expand bufStart bufEnd bs)) ↔
        p.flushesApart inner bufStart cursor bs = true) := by
  induction bs generalizing bufStart bufEnd cursor with
  | nil =>
    obtain rfl : cursor = d := hchain
    have htiles := flush_tiles hbuf hcursor
    exact ⟨htiles.steps, by simpa [packBlocks, flushesApart] using htiles⟩
  | cons b bs ih =>
    obtain ⟨hfirst, hwell, hend, hrest⟩ := hchain
    rw [List.forall_mem_cons] at hexpand
    have hflush := flush_tiles hbuf hcursor
    have hle := hrest.le
    -- what follows once the block has been put into the buffer
    have hkept := fun start (hstart : start ≤ b.region.last) =>
      ih (some start) _ hrest (by simpa using hstart) (fun _ => rfl) hexpand.2
    rw [packBlocks, flushesApart]
    split
    case isTrue hover =>
      have hb := hexpand.1 hover
      obtain ⟨hsteps, htiles⟩ := tiles_part_iff hb.steps hfirst (by omega)
      obtain ⟨htail, hiff⟩ := ih none bufEnd hrest (by simp) (by simp)
        hexpand.2
      rw [stretches_append, stretches_append, List.append_assoc]
      refine ⟨hflush.steps.append (hsteps.append htail), ?_⟩
      rw [tiles_append_iff hflush.steps, tiles_append_iff hsteps, htiles, hb.tiles_iff]
      simp only [hflush, true_and, Bool.and_eq_true, decide_eq_true_eq]
      exact and_congr_right fun _ => hiff
    case isFalse hfits =>
      split
      case isTrue hflushed =>
        obtain ⟨htail, hiff⟩ := hkept b.region.first hwell
        obtain ⟨hsteps, htiles⟩ := tiles_part_iff htail hfirst (by show b.region.first < d; omega)
        rw [stretches_append]
        refine ⟨hflush.steps.append hsteps, ?_⟩
        rw [tiles_append_iff hflush.steps, htiles, hiff]
        simp only [hflush, true_and, Bool.and_eq_true, decide_eq_true_eq]
        rfl
      case isFalse hmerged =>
        cases bufStart with
        | none =>
          obtain ⟨htail, hiff⟩ := hkept b.region.first hwell
          obtain ⟨hsteps, htiles⟩ := tiles_part_iff htail hfirst (by show b.region.first < d; omega)
          refine ⟨hsteps, ?_⟩
          show Tiles cursor d _ ↔ _
          rw [Option.getD_none, htiles, hiff]
          simp only [Option.isSome_none, Bool.false_or, Bool.and_eq_true, decide_eq_true_eq]
          rfl
        | some start =>
          have hstart : start ≤ bufEnd := hbuf start rfl
          have hbufEnd := hcursor rfl
          obtain ⟨htail, hiff⟩ := hkept start (by omega)
          refine ⟨htail, ?_⟩
          rw [Option.getD_some, Option.isSome_some, Bool.true_or, Bool.true_and]
          exact hiff

theorem root_inside {region : Region} {symbols : List CodeSymbol} {s : CodeSymbol}
    (hs : s ∈ roots region symbols) : region.first ≤ s.startLine ∧ s.endLine ≤ region.last := by
  have hroot := List.of_mem_filter hs
  simp only [Bool.and_eq_true, decide_eq_true_eq] at hroot
  exact hroot.1

theorem roots_chained {region : Region} {symbols : List CodeSymbol}
    (hregion : region.first ≤ region.last)
    (hsorted : symbols.Pairwise fun a b => a.startLine ≤ b.startLine)
    (hwell : ∀ s ∈ symbols, s.startLine ≤ s.endLine) :
    Chained (region.last + 1) region.first
      (blocks region.last region.first (roots region symbols)) := by
  have hwell' := fun s (hs : s ∈ roots region symbols) => hwell s (List.mem_of_mem_filter hs)
  refine blocks_chained (by omega) (fun s hs => (root_inside hs).2) hwell' (fun s hs => ?_)
    (roots_ends hsorted)
  have hinside := root_inside hs
  have hle := hwell' s hs
  omega

/-- `packRegion` leaves no gap in its region, and it tiles it exactly when symbols that share a
line stay together. -/
theorem packRegion_expands (region : Region) {symbols : List CodeSymbol}
    (hregion : region.first ≤ region.last)
    (hsorted : symbols.Pairwise fun a b => a.startLine ≤ b.startLine)
    (hwell : ∀ s ∈ symbols, s.startLine ≤ s.endLine) :
    Expands region (p.packRegion region symbols) (p.keepsSharedLines region symbols) := by
  fun_induction p.packRegion region symbols with
  | case1 region symbols hroots =>
    rw [keepsSharedLines, if_pos hroots]
    exact .of_tiles (p.hardSplit_tiles (by omega) .gap)
  | case2 region symbols hroots ih =>
    rw [keepsSharedLines, if_neg hroots]
    have hmem : ∀ s ∈ roots region symbols, s ∈ symbols := fun s hs => List.mem_of_mem_filter hs
    have hchain := roots_chained hregion hsorted hwell
    have hexpand : ∀ b ∈ blocks region.last region.first (roots region symbols),
        Expands b.region
          (match b.sym with
            | some sym =>
              if _h : sym ∈ symbols then
                if children b.region sym symbols = [] then
                  p.hardSplit b.region.first b.region.last .split
                else p.packRegion b.region (children b.region sym symbols)
              else []
            | none => p.hardSplit b.region.first b.region.last .gap)
          (match b.sym with
            | some sym =>
              if _h : sym ∈ symbols then
                if children b.region sym symbols = [] then true
                else p.keepsSharedLines b.region (children b.region sym symbols)
              else true
            | none => true) := by
      intro b hb
      have hle := hchain.well hb
      rcases mem_blocks hb with hgap | ⟨s, hs, rfl⟩
      · simp only [hgap]
        exact .of_tiles (p.hardSplit_tiles (by omega) .gap)
      · simp only [hmem s hs, dif_pos]
        split
        case isTrue => exact .of_tiles (p.hardSplit_tiles (Int.le_add_one hle) .split)
        case isFalse hchildren =>
          exact ih ⟨⟨s.startLine, s.endLine⟩, some s⟩ s (hmem s hs) hle
            (hsorted.sublist List.filter_sublist)
            (fun c hc => hwell c (List.mem_of_mem_filter hc))
    have hpack := p.packBlocks_expands none 0 hchain (by simp) (by simp)
      fun b hb _ => hexpand b hb
    exact ⟨hpack.1, hpack.2⟩

end Packing

/-! ## The chunks of a source -/

theorem dedupe_sublist (seen : List (ℤ × ℤ × String)) (symbols : List CodeSymbol) :
    (dedupe seen symbols).Sublist symbols := by
  fun_induction dedupe with
  | case1 => exact .slnil
  | case2 seen s rest _ ih => exact ih.cons s
  | case3 seen s rest _ ih => exact ih.cons_cons s

theorem structuralSymbols_sorted (symbols : List CodeSymbol) :
    (structuralSymbols symbols).Pairwise fun a b => a.startLine ≤ b.startLine := by
  have htotal : Std.Total notAfter := ⟨fun a b => by unfold notAfter; omega⟩
  have htrans : IsTrans CodeSymbol notAfter := ⟨fun a b c hab hbc => by unfold notAfter at *; omega⟩
  refine (List.pairwise_insertionSort notAfter _).imp ?_
  intro a b hab
  unfold notAfter at hab
  omega

theorem structuralSymbols_well {symbols : List CodeSymbol} {s : CodeSymbol}
    (h : s ∈ structuralSymbols symbols) : s.startLine ≤ s.endLine := by
  rw [structuralSymbols, List.mem_insertionSort] at h
  have hfilter := List.of_mem_filter ((dedupe_sublist _ _).subset h)
  simp only [Bool.and_eq_true, decide_eq_true_eq] at hfilter
  exact hfilter.1.2

def Chunk.lineNumbers (c : Chunk) : List ℤ := Stretch.members ⟨c.startLine, c.endLine⟩

def lineCount (source : String) : ℕ := (source.toList.splitOn '\n').length

theorem lineCount_pos (source : String) : 0 < lineCount source :=
  List.length_pos_of_ne_nil (List.splitOn_ne_nil '\n' source.toList)

theorem chunkSource_eq (source filePath : String) (parsed : List CodeSymbol)
    (options : CastOptions) : chunkSource source filePath parsed options =
      ((packing source options).packRegion ⟨1, lineCount source⟩ (structuralSymbols parsed)).map
        (toChunk filePath (source.toList.splitOn '\n') (structuralSymbols parsed)) :=
  if_neg (lineCount_pos source).ne'

/-- Each line of the source is in one chunk, in order, and the texts of the chunks joined by line
breaks are the source. -/
def Tiled (source : String) (chunks : List Chunk) : Prop :=
  chunks.flatMap Chunk.lineNumbers = Stretch.members ⟨1, lineCount source⟩ ∧
    "\n".intercalate (chunks.map Chunk.text) = source

instance (source : String) (chunks : List Chunk) : Decidable (Tiled source chunks) := by
  unfold Tiled
  exact inferInstance

/-- Joining joined parts is joining all their lines. -/
theorem intercalate_flatMap {α β : Type*} {sep : List α} {f : β → List (List α)} {ps : List β}
    (h : ∀ p ∈ ps, f p ≠ []) :
    sep.intercalate (ps.map fun p => sep.intercalate (f p)) = sep.intercalate (ps.flatMap f) := by
  induction ps with
  | nil => rfl
  | cons p ps ih =>
    rw [List.forall_mem_cons] at h
    by_cases hrest : ps = []
    · subst hrest
      simp
    · obtain ⟨q, hq⟩ := List.exists_mem_of_ne_nil ps hrest
      have hne : ps.flatMap f ≠ [] := by
        obtain ⟨a, ha⟩ := List.exists_mem_of_ne_nil (f q) (h.2 q hq)
        exact List.ne_nil_of_mem (List.mem_flatMap.mpr ⟨q, hq, ha⟩)
      have hmap : ps.map (fun p => sep.intercalate (f p)) ≠ [] := by simpa using hrest
      rw [List.map_cons, List.intercalate_cons_of_ne_nil hmap, ih h.2, List.flatMap_cons,
        JsString.intercalate_append h.1 hne, List.append_assoc]

/-- The texts of tiling stretches, joined again. -/
theorem join_of_tiles (source : String) {ps : List Stretch}
    (h : Tiles 1 (lineCount source + 1) ps) :
    "\n".intercalate (ps.map fun p => sliceText (source.toList.splitOn '\n') p.first p.last) =
      source := by
  have hslices := flatMap_slices (source.toList.splitOn '\n') le_rfl h
  have hne : ∀ p ∈ ps, slice (source.toList.splitOn '\n') p.first p.last ≠ [] := by
    intro p hp
    have hbounds := h.bounds hp
    rw [lineCount] at hbounds
    refine List.ne_nil_of_length_pos ?_
    rw [slice, List.length_take, List.length_drop]
    omega
  apply String.toList_inj.mp
  rw [String.toList_intercalate, List.map_map]
  simp only [Function.comp_def, sliceText, String.toList_ofList]
  show ['\n'].intercalate _ = _
  rw [intercalate_flatMap hne]
  simp only [slice]
  rw [hslices]
  exact List.intercalate_splitOn '\n'

/-- The chunks of a source tile it exactly when symbols that share a line are never flushed
apart. -/
theorem chunkSource_tiled_iff (source filePath : String) (parsed : List CodeSymbol)
    (options : CastOptions) :
    Tiled source (chunkSource source filePath parsed options) ↔
      (packing source options).keepsSharedLines ⟨1, lineCount source⟩
        (structuralSymbols parsed) = true := by
  have hlines : (packing source options).lines = source.toList.splitOn '\n' := rfl
  have hpos := lineCount_pos source
  have hexpands := (packing source options).packRegion_expands
    ⟨1, lineCount source⟩ (by show (1 : ℤ) ≤ lineCount source; omega)
    (structuralSymbols_sorted parsed) (fun s hs => structuralSymbols_well hs)
  have hchunks := chunkSource_eq source filePath parsed options
  set pieces := (packing source options).packRegion ⟨1, lineCount source⟩ (structuralSymbols parsed)
  have hnumbers : (chunkSource source filePath parsed options).flatMap Chunk.lineNumbers =
      covered (stretches pieces) := by
    rw [hchunks, List.flatMap_map, covered, stretches, List.flatMap_map]
    rfl
  have hcovered := covered_eq_iff hexpands.steps (by show (1 : ℤ) ≤ lineCount source + 1; omega)
  rw [← hexpands.tiles_iff, ← hcovered, Tiled, hnumbers]
  constructor
  · rintro ⟨hlines, -⟩
    simpa using hlines
  · intro heq
    refine ⟨by simpa using heq, ?_⟩
    have hjoin := join_of_tiles source (hcovered.mp heq)
    rw [stretches, List.map_map] at hjoin
    rw [hchunks, List.map_map]
    exact hjoin

/-- Two functions that share the second of three lines, and a budget the pair exceeds. -/
theorem shared_line_in_both : ¬ ∀ (source filePath : String) (parsed : List CodeSymbol)
    (options : CastOptions), Tiled source (chunkSource source filePath parsed options) := by
  intro h
  have hboth := h "a\nb\nc" "a.ts" [⟨"f", .function, 1, 2⟩, ⟨"g", .function, 2, 3⟩]
    { maxNonWsChars := some (.finite 2) }
  exact absurd hboth (by decide +kernel)

end CastChunker
end Batiste
