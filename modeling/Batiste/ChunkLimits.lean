import Batiste.ChunkTiling

/-! Which symbols a chunk keeps whole, and when the chunks stay within the two limits.
The loop that merges blocks compares only the characters of the buffer with their limit. -/
namespace Batiste
namespace CastChunker

open Tiling

/-- The first stretch lies inside the second. -/
def Inside (s t : Stretch) : Prop := t.first ≤ s.first ∧ s.last ≤ t.last

theorem Inside.refl (s : Stretch) : Inside s s := ⟨le_rfl, le_rfl⟩

theorem Inside.trans {s t u : Stretch} (hst : Inside s t) (htu : Inside t u) : Inside s u :=
  ⟨htu.1.trans hst.1, hst.2.trans htu.2⟩

def CodeSymbol.range (s : CodeSymbol) : Stretch := ⟨s.startLine, s.endLine⟩

namespace Packing

variable (p : Packing)

/-! ## Roots -/

theorem mem_roots {region : Region} {symbols : List CodeSymbol} {s : CodeSymbol} :
    s ∈ roots region symbols ↔ s ∈ symbols ∧ Inside s.range region ∧
      ∀ q ∈ symbols, Inside s.range q.range → q.range = s.range := by
  unfold roots Inside CodeSymbol.range
  simp only [List.mem_filter, Bool.and_eq_true, decide_eq_true_eq, Bool.not_eq_true',
    List.any_eq_false, Bool.and_eq_false_iff, decide_eq_false_iff_not, Stretch.mk.injEq]
  refine and_congr_right fun _ => and_congr_right fun _ => forall₂_congr fun q _ => ?_
  constructor
  · intro h hin
    by_contra hne
    refine h ⟨⟨⟨?_, hin.1⟩, hin.2⟩, ?_⟩
    · rintro rfl
      exact hne ⟨rfl, rfl⟩
    · simpa only [not_and_or] using hne
  · rintro h ⟨⟨⟨-, hstart⟩, hend⟩, hne⟩
    have heq := h ⟨hstart, hend⟩
    rcases hne with hne | hne
    · exact hne heq.1
    · exact hne heq.2

/-- Every symbol of a region lies inside one of its roots: inside one that no other contains. -/
theorem exists_root {region : Region} {symbols : List CodeSymbol}
    (hregion : ∀ s ∈ symbols, Inside s.range region) {s : CodeSymbol} (hs : s ∈ symbols) :
    ∃ r ∈ roots region symbols, Inside s.range r.range := by
  induction hn : ((s.startLine - region.first) + (region.last - s.endLine)).toNat using
    Nat.strong_induction_on generalizing s with
  | _ n ih =>
    by_cases hroot : s ∈ roots region symbols
    · exact ⟨s, hroot, .refl _⟩
    · rw [mem_roots] at hroot
      push Not at hroot
      obtain ⟨q, hq, hin, hne⟩ := hroot hs (hregion s hs)
      have hsin := hregion s hs
      have hqin := hregion q hq
      unfold Inside CodeSymbol.range at hin hsin hqin
      have hless : q.startLine ≠ s.startLine ∨ q.endLine ≠ s.endLine := by
        by_contra heq
        push Not at heq
        exact hne (by rw [CodeSymbol.range, CodeSymbol.range, heq.1, heq.2])
      simp only at hin hsin hqin
      obtain ⟨r, hr, hqr⟩ := ih _ (by omega) hq rfl
      exact ⟨r, hr, Inside.trans (t := q.range) hin hqr⟩

/-! ## What the greedy loop keeps together -/

/-- The blocks begin in order. -/
def Ordered (bs : List Block) : Prop := bs.Pairwise fun a b => a.region.first ≤ b.region.first

theorem le_first_of_mem_blocks {last lower cursor : ℤ} {syms : List CodeSymbol}
    (hcursor : lower ≤ cursor) (hsyms : ∀ s ∈ syms, lower ≤ s.startLine)
    (hwell : ∀ s ∈ syms, s.startLine ≤ s.endLine) {b : Block}
    (h : b ∈ blocks last cursor syms) : lower ≤ b.region.first := by
  induction syms generalizing cursor with
  | nil =>
    rw [blocks] at h
    split at h
    · rwa [List.mem_singleton.mp h]
    · exact absurd h List.not_mem_nil
  | cons sym rest ih =>
    rw [List.forall_mem_cons] at hsyms hwell
    rw [blocks, List.mem_append, List.mem_cons] at h
    rcases h with h | rfl | h
    · split at h
      · rwa [List.mem_singleton.mp h]
      · exact absurd h List.not_mem_nil
    · exact hsyms.1
    · exact ih (by omega) hsyms.2 hwell.2 h

theorem blocks_ordered {last cursor : ℤ} {syms : List CodeSymbol}
    (hsorted : syms.Pairwise fun a b => a.startLine ≤ b.startLine)
    (hwell : ∀ s ∈ syms, s.startLine ≤ s.endLine) : Ordered (blocks last cursor syms) := by
  induction syms generalizing cursor with
  | nil =>
    rw [blocks]
    split
    · exact List.pairwise_singleton _ _
    · exact List.Pairwise.nil
  | cons sym rest ih =>
    rw [List.pairwise_cons] at hsorted
    rw [List.forall_mem_cons] at hwell
    have hrest : Ordered (⟨⟨sym.startLine, sym.endLine⟩, some sym⟩ ::
        blocks last (sym.endLine + 1) rest) := by
      refine List.pairwise_cons.mpr ⟨fun b hb => ?_, ih hsorted.2 hwell.2⟩
      have hwell' := hwell.1
      exact le_first_of_mem_blocks (by omega) hsorted.1 hwell.2 hb
    rw [blocks]
    split
    case isTrue hgap =>
      refine List.pairwise_cons.mpr ⟨fun b hb => ?_, hrest⟩
      rcases List.mem_cons.mp hb with rfl | hb
      · exact hgap.le
      · have hwell' := hwell.1
        refine le_first_of_mem_blocks (by simp only [gapBlock]; omega) (fun s hs => ?_) hwell.2 hb
        exact hgap.le.trans (hsorted.1 s hs)
    case isFalse => exact hrest

/-- A symbol of the list has its block. -/
theorem block_mem_blocks {last cursor : ℤ} {syms : List CodeSymbol} {s : CodeSymbol}
    (h : s ∈ syms) : ⟨s.range, some s⟩ ∈ blocks last cursor syms := by
  induction syms generalizing cursor with
  | nil => exact absurd h List.not_mem_nil
  | cons sym rest ih =>
    rw [blocks, List.mem_append, List.mem_cons]
    rcases List.mem_cons.mp h with rfl | h
    · exact .inr (.inl rfl)
    · exact .inr (.inr (ih h))

/-- What is in the buffer is inside a piece once it is flushed. -/
theorem buffer_kept (expand : Block → List Piece) {d start bufEnd : ℤ} {bs : List Block}
    (hchain : Chained d (bufEnd + 1) bs) (hle : start ≤ bufEnd) :
    ∃ piece ∈ p.packBlocks expand (some start) bufEnd bs, Inside ⟨start, bufEnd⟩ piece.1 := by
  have hemit : emit start bufEnd .symbol = [(⟨start, bufEnd⟩, .symbol)] := by
    rw [emit, if_neg (by omega)]
  induction bs generalizing bufEnd with
  | nil =>
    rw [packBlocks, flush, hemit]
    exact ⟨_, List.mem_singleton_self _, .refl _⟩
  | cons b bs ih =>
    obtain ⟨hfirst, hwell, hend, hrest⟩ := hchain
    rw [packBlocks]
    split
    case isTrue =>
      rw [flush, hemit]
      exact ⟨_, List.mem_append_left _ (List.mem_append_left _ (List.mem_singleton_self _)), .refl _⟩
    case isFalse =>
      split
      case isTrue =>
        rw [flush, hemit]
        exact ⟨_, List.mem_append_left _ (List.mem_singleton_self _), .refl _⟩
      case isFalse =>
        have hlast : start ≤ b.region.last := by omega
        obtain ⟨piece, hpiece, hin⟩ := ih hrest hlast (by rw [emit, if_neg (by omega)])
        have hbuffer : Inside ⟨start, bufEnd⟩ ⟨start, b.region.last⟩ :=
          ⟨le_rfl, by simp only; omega⟩
        exact ⟨piece, hpiece, hbuffer.trans hin⟩

/-- The pieces hold a block whole, or all that it is expanded to when it is oversized. -/
def Kept (expand : Block → List Piece) (b : Block) (pieces : List Piece) : Prop :=
  (p.oversized b = true ∧ ∀ piece ∈ expand b, piece ∈ pieces) ∨
    ∃ piece ∈ pieces, Inside b.region piece.1

variable {p}

theorem Kept.append {expand : Block → List Piece} {b : Block} {pieces : List Piece}
    (h : p.Kept expand b pieces) (before : List Piece) : p.Kept expand b (before ++ pieces) := by
  rcases h with ⟨hover, hall⟩ | ⟨piece, hpiece, hin⟩
  · exact .inl ⟨hover, fun piece hpiece => List.mem_append_right _ (hall piece hpiece)⟩
  · exact .inr ⟨piece, List.mem_append_right _ hpiece, hin⟩

variable (p)

theorem block_kept {expand : Block → List Piece} {d cursor : ℤ} {bs : List Block}
    {bufStart : Option ℤ} {bufEnd : ℤ} (hchain : Chained d cursor bs) (hordered : Ordered bs)
    (hbuf : ∀ start ∈ bufStart, ∀ b ∈ bs, start ≤ b.region.first) {b : Block} (hb : b ∈ bs) :
    p.Kept expand b (p.packBlocks expand bufStart bufEnd bs) := by
  induction bs generalizing bufStart bufEnd cursor with
  | nil => exact absurd hb List.not_mem_nil
  | cons head bs ih =>
    obtain ⟨-, hwell, -, hrest⟩ := hchain
    rw [Ordered, List.pairwise_cons] at hordered
    obtain ⟨hhead, hordered⟩ := hordered
    rw [packBlocks]
    split
    case isTrue hover =>
      rcases List.mem_cons.mp hb with rfl | hb
      · refine .inl ⟨hover, fun piece hpiece => ?_⟩
        exact List.mem_append_left _ (List.mem_append_right _ hpiece)
      · exact (ih hrest hordered (fun _ hnone => absurd hnone (by simp)) hb).append _
    case isFalse =>
      -- the block goes into the buffer, which begins no later than it
      have hput : ∀ start ≤ head.region.first,
          p.Kept expand b (p.packBlocks expand (some start) head.region.last bs) := by
        intro start hstart
        rcases List.mem_cons.mp hb with rfl | hb
        · obtain ⟨piece, hpiece, hin⟩ :=
            p.buffer_kept expand hrest (hstart.trans hwell)
          have hbuffer : Inside b.region ⟨start, b.region.last⟩ := ⟨hstart, le_rfl⟩
          exact .inr ⟨piece, hpiece, hbuffer.trans hin⟩
        · refine ih hrest hordered ?_ hb
          intro first hfirst b' hb'
          obtain rfl := Option.some.inj hfirst
          exact hstart.trans (hhead b' hb')
      split
      case isTrue => exact (hput _ le_rfl).append _
      case isFalse =>
        refine hput _ ?_
        cases bufStart with
        | none => exact le_rfl
        | some start => exact hbuf start rfl head List.mem_cons_self

/-! ## Whole symbols -/

theorem roots_ordered (region : Region) {symbols : List CodeSymbol}
    (hsorted : symbols.Pairwise fun a b => a.startLine ≤ b.startLine)
    (hwell : ∀ s ∈ symbols, s.startLine ≤ s.endLine) :
    Ordered (blocks region.last region.first (roots region symbols)) :=
  blocks_ordered (hsorted.sublist List.filter_sublist)
    fun s hs => hwell s (mem_roots.mp hs).1

/-- Each symbol of a region that is not oversized lies inside one piece. -/
theorem packRegion_keeps (region : Region) {symbols : List CodeSymbol}
    (hregion : region.first ≤ region.last)
    (hsorted : symbols.Pairwise fun a b => a.startLine ≤ b.startLine)
    (hwell : ∀ s ∈ symbols, s.startLine ≤ s.endLine)
    (hinside : ∀ s ∈ symbols, Inside s.range region) {s : CodeSymbol} (hs : s ∈ symbols)
    (hfits : p.oversized ⟨s.range, some s⟩ = false) :
    ∃ piece ∈ p.packRegion region symbols, Inside s.range piece.1 := by
  fun_induction p.packRegion region symbols with
  | case1 region symbols hroots =>
    obtain ⟨r, hr, -⟩ := exists_root hinside hs
    rw [hroots] at hr
    exact absurd hr List.not_mem_nil
  | case2 region symbols hroots ih =>
    obtain ⟨r, hr, hsr⟩ := exists_root hinside hs
    have hrmem := (mem_roots.mp hr).1
    have hchain := roots_chained hregion hsorted hwell
    have hordered := roots_ordered region hsorted hwell
    have hbuf : ∀ start ∈ (none : Option ℤ),
        ∀ b ∈ blocks region.last region.first (roots region symbols), start ≤ b.region.first :=
      fun _ hnone => absurd hnone (by simp)
    rcases p.block_kept hchain hordered hbuf (block_mem_blocks hr) with
      ⟨hover, hall⟩ | ⟨piece, hpiece, hrpiece⟩
    · -- the root is oversized and the symbol is not, so that the symbol is one of its children
      have hne : s ≠ r := by
        rintro rfl
        rw [hover] at hfits
        exact absurd hfits (by simp)
      have hchild : s ∈ children r.range r symbols := by
        have hin' : r.range.first ≤ s.startLine ∧ s.endLine ≤ r.range.last := hsr
        simpa [children, hne, hs] using hin'
      have hchildren : children r.range r symbols ≠ [] := List.ne_nil_of_mem hchild
      obtain ⟨piece, hpiece, hspiece⟩ := ih ⟨r.range, some r⟩ r hrmem (hwell r hrmem)
        (hsorted.sublist List.filter_sublist)
        (fun c hc => hwell c (List.mem_of_mem_filter hc))
        (fun c hc => by
          have hc := List.of_mem_filter hc
          simp only [Bool.and_eq_true, decide_eq_true_eq] at hc
          exact ⟨hc.1.2, hc.2⟩)
        hchild
      refine ⟨piece, hall piece ?_, hspiece⟩
      simp only [hrmem, dif_pos, if_neg hchildren]
      exact hpiece
    · exact ⟨piece, hpiece, hsr.trans hrpiece⟩

end Packing

theorem exists_mem_dedupe (seen : List (ℤ × ℤ × String)) {symbols : List CodeSymbol}
    {s : CodeSymbol} (h : s ∈ symbols) :
    key s ∈ seen ∨ ∃ t ∈ dedupe seen symbols, key t = key s := by
  fun_induction dedupe with
  | case1 => exact absurd h List.not_mem_nil
  | case2 seen q rest hseen ih =>
    rcases List.mem_cons.mp h with rfl | h
    · exact .inl hseen
    · exact ih h
  | case3 seen q rest hseen ih =>
    rcases List.mem_cons.mp h with rfl | h
    · exact .inr ⟨s, List.mem_cons_self, rfl⟩
    · rcases ih h with hkey | ⟨t, ht, hkey⟩
      · rcases List.mem_cons.mp hkey with hkey | hkey
        · exact .inr ⟨q, List.mem_cons_self, hkey.symm⟩
        · exact .inl hkey
      · exact .inr ⟨t, List.mem_cons_of_mem _ ht, hkey⟩

/-- A well-formed structural symbol has its range among the symbols of the pass. -/
theorem exists_mem_structuralSymbols {parsed : List CodeSymbol} {s : CodeSymbol} (hs : s ∈ parsed)
    (hstructural : isStructural s.type = true) (hrange : 1 ≤ s.startLine ∧ s.startLine ≤ s.endLine) :
    ∃ t ∈ structuralSymbols parsed, t.range = s.range := by
  have hmem : s ∈ parsed.filter fun s =>
      isStructural s.type && decide (s.startLine ≤ s.endLine) && decide (1 ≤ s.startLine) :=
    List.mem_filter.mpr ⟨hs, by simp [hstructural, hrange.1, hrange.2]⟩
  rcases exists_mem_dedupe [] hmem with hnil | ⟨t, ht, hkey⟩
  · exact absurd hnil List.not_mem_nil
  · refine ⟨t, (List.mem_insertionSort _).mpr ht, ?_⟩
    simp only [key, Prod.mk.injEq] at hkey
    rw [CodeSymbol.range, CodeSymbol.range, hkey.1, hkey.2.1]

theorem structuralSymbols_from {symbols : List CodeSymbol} {s : CodeSymbol}
    (h : s ∈ structuralSymbols symbols) : 1 ≤ s.startLine := by
  rw [structuralSymbols, List.mem_insertionSort] at h
  have hfilter := List.of_mem_filter ((dedupe_sublist _ _).subset h)
  simp only [Bool.and_eq_true, decide_eq_true_eq] at hfilter
  exact hfilter.2

/-! ## The characters of a text -/

/-- The characters that count for a budget. -/
def nonWsChars (text : String) : ℕ := text.toList.countP fun c => !JsString.isSpace c

theorem countP_intercalate {α : Type*} (keep : α → Bool) {sep : List α}
    (hsep : ∀ a ∈ sep, keep a = false) (xs : List (List α)) :
    (sep.intercalate xs).countP keep = (xs.map (List.countP keep)).sum := by
  induction xs with
  | nil => rfl
  | cons x xs ih =>
    by_cases hrest : xs = []
    · subst hrest
      simp
    · have hsep' : sep.countP keep = 0 := by
        rw [List.countP_eq_zero]
        intro a ha
        simp [hsep a ha]
      rw [List.intercalate_cons_of_ne_nil hrest, List.countP_append, List.countP_append, ih, hsep']
      simp

theorem nonWsChars_sliceText (lines : List Line) (first last : ℤ) :
    nonWsChars (sliceText lines first last) = nonWsSize lines first last := by
  rw [nonWsChars, sliceText, String.toList_ofList]
  refine countP_intercalate _ ?_ _
  intro a ha
  rw [List.mem_singleton.mp ha]
  decide

/-! ## The chunks of a source -/

/-- A structural symbol whose text exceeds neither limit is whole in one chunk, wherever the other
symbols are: no two of them have to be nested or disjoint. A parse of the source has no symbol that
ends behind its last line. -/
theorem symbol_in_one_chunk (source filePath : String) (parsed : List CodeSymbol)
    (options : CastOptions) (hparse : ∀ s ∈ structuralSymbols parsed, s.endLine ≤ lineCount source)
    (s : CodeSymbol) (hs : s ∈ parsed) (hstructural : isStructural s.type = true)
    (hrange : 1 ≤ s.startLine ∧ s.startLine ≤ s.endLine)
    (hchars : (packing source options).maxNonWs.ltNat
      (nonWsChars (sliceText (source.toList.splitOn '\n') s.startLine s.endLine)) = false)
    (hlines : (packing source options).maxLines.ltNat (s.endLine - s.startLine + 1).toNat = false) :
    ∃ c ∈ chunkSource source filePath parsed options,
      c.startLine ≤ s.startLine ∧ s.endLine ≤ c.endLine := by
  obtain ⟨t, ht, hts⟩ := exists_mem_structuralSymbols hs hstructural hrange
  have hfits : (packing source options).oversized ⟨t.range, some t⟩ = false := by
    rw [nonWsChars_sliceText] at hchars
    rw [hts]
    exact Bool.or_eq_false_iff.mpr ⟨hchars, hlines⟩
  have hpos := lineCount_pos source
  obtain ⟨piece, hpiece, hin⟩ := (packing source options).packRegion_keeps ⟨1, lineCount source⟩
    (by show (1 : ℤ) ≤ lineCount source; omega) (structuralSymbols_sorted parsed)
    (fun s hs => structuralSymbols_well hs)
    (fun s hs => ⟨structuralSymbols_from hs, hparse s hs⟩) ht hfits
  rw [hts] at hin
  rw [chunkSource_eq]
  exact ⟨_, List.mem_map_of_mem hpiece, hin.1, hin.2⟩

/-- The second method of a class that is too large for one chunk. -/
theorem method_in_one_chunk : ∃ c ∈ chunkSource "a\nb\nc\nd" "a.ts"
    [⟨"A", .class_, 1, 4⟩, ⟨"f", .method, 2, 2⟩, ⟨"g", .method, 3, 4⟩]
    { maxNonWsChars := some (.finite 2) }, c.startLine ≤ 3 ∧ 4 ≤ c.endLine :=
  symbol_in_one_chunk "a\nb\nc\nd" "a.ts"
    [⟨"A", .class_, 1, 4⟩, ⟨"f", .method, 2, 2⟩, ⟨"g", .method, 3, 4⟩]
    { maxNonWsChars := some (.finite 2) } (by decide +kernel) ⟨"g", .method, 3, 4⟩ (by simp) rfl
    (by decide) (by decide +kernel) (by decide +kernel)

/-! ## The limits -/

namespace Packing

variable (p : Packing)

/-- The lines of the stretch exceed the limit; nothing exceeds a limit that is not a number. -/
def tooLong (s : Stretch) : Bool := p.maxLines.ltNat (s.last - s.first + 1).toNat

def tooLarge (s : Stretch) : Bool := p.maxNonWs.ltNat (nonWsSize p.lines s.first s.last)

/-- A piece within both limits; the characters of a single line are not limited. -/
def Within (s : Stretch) : Prop :=
  p.tooLong s = false ∧ (s.first = s.last ∨ p.tooLarge s = false)

/-- No line that `hardSplit` adds to a piece makes it too long. -/
def growsWithin (start last stop : ℤ) : Bool :=
  if stop < last ∧ p.maxLines.natLt (stop - start + 1).toNat ∧
      p.maxNonWs.natLe (nonWsSize p.lines start (stop + 1)) then
    !p.tooLong ⟨start, stop + 1⟩ && growsWithin start last (stop + 1)
  else true
termination_by (last - stop).toNat

def splitsWithin (start last : ℤ) : Bool :=
  if start ≤ last then
    p.growsWithin start last start && splitsWithin (p.grow start last start + 1) last
  else true
termination_by (last + 1 - start).toNat
decreasing_by
  have := p.le_grow start last start
  omega

/-- With the block the buffer would be too long, which the loop does not look at. -/
def overruns (bufStart : Option ℤ) (b : Block) : Bool :=
  match bufStart with
  | some start => p.tooLong ⟨start, b.region.last⟩
  | none => false

/-- No block that is added to a buffer makes it too long; `inner` is the test of an oversized
block. -/
def mergesWithin (inner : Block → Bool) : Option ℤ → List Block → Bool
  | _, [] => true
  | bufStart, b :: bs =>
    if p.oversized b then inner b && mergesWithin inner none bs
    else if p.overflows bufStart b then mergesWithin inner (some b.region.first) bs
    else
      !p.overruns bufStart b && mergesWithin inner (some (bufStart.getD b.region.first)) bs

/-- In the region, and in every oversized symbol that is split along its children, nothing that is
added to a buffer or to a piece makes it too long. -/
def packsWithin (region : Region) (symbolsInRegion : List CodeSymbol) : Bool :=
  if roots region symbolsInRegion = [] then p.splitsWithin region.first region.last
  else
    p.mergesWithin (fun b =>
      match b.sym with
      | some sym =>
        if _h : sym ∈ symbolsInRegion then
          if children b.region sym symbolsInRegion = [] then
            p.splitsWithin b.region.first b.region.last
          else packsWithin b.region (children b.region sym symbolsInRegion)
        else true
      | none => p.splitsWithin b.region.first b.region.last)
      none (blocks region.last region.first (roots region symbolsInRegion))
termination_by symbolsInRegion.length
decreasing_by exact length_children_lt _h

/-! ### `hardSplit` -/

theorem tooLong_mono {s t : Stretch} (h : Inside s t) (hs : p.tooLong s = true) :
    p.tooLong t = true := by
  have hle : (s.last - s.first + 1).toNat ≤ (t.last - t.first + 1).toNat := by
    have hfirst := h.1
    have hlast := h.2
    omega
  unfold tooLong at hs ⊢
  exact JsNumber.ltNat_mono hle hs

theorem tooLong_single (h : p.maxLines.ltNat 1 = false) (line : ℤ) :
    p.tooLong ⟨line, line⟩ = false := by
  rw [tooLong, show ((⟨line, line⟩ : Stretch).last - (⟨line, line⟩ : Stretch).first + 1).toNat = 1 by
    simp only; omega]
  exact h

theorem grow_short_iff {start last stop : ℤ} (h : p.tooLong ⟨start, stop⟩ = false) :
    p.tooLong ⟨start, p.grow start last stop⟩ = false ↔ p.growsWithin start last stop = true := by
  fun_induction grow with
  | case1 stop hguard ih =>
    rw [growsWithin, if_pos hguard]
    cases hlong : p.tooLong ⟨start, stop + 1⟩ with
    | true =>
      have hin : Inside ⟨start, stop + 1⟩ ⟨start, p.grow start last (stop + 1)⟩ :=
        ⟨le_rfl, p.le_grow start last (stop + 1)⟩
      simp [p.tooLong_mono hin hlong]
    | false => simpa using ih hlong
  | case2 stop hguard =>
    rw [growsWithin, if_neg hguard]
    simp [h]

/-- Only a limit that is not a whole number lets `hardSplit` make a piece too long. -/
theorem growsWithin_of_whole {limit : ℤ} (h : p.maxLines = .finite limit) {start last stop : ℤ}
    (hle : start ≤ stop) : p.growsWithin start last stop = true := by
  fun_induction p.growsWithin start last stop with
  | case1 stop hguard ih =>
    have hlt : ((stop - start + 1).toNat : ℚ) < limit := by
      simpa [h, JsNumber.natLt] using hguard.2.1
    have hlt' : ((stop - start + 1).toNat : ℤ) < limit := by exact_mod_cast hlt
    have hshort : ¬ (limit : ℚ) < ((stop + 1 - start + 1).toNat : ℚ) := by
      rw [not_lt]
      exact_mod_cast (by omega : ((stop + 1 - start + 1).toNat : ℤ) ≤ limit)
    rw [Bool.and_eq_true]
    exact ⟨by simpa [tooLong, h, JsNumber.ltNat] using hshort, ih (by omega)⟩
  | case2 => rfl

theorem splitsWithin_of_whole {limit : ℤ} (h : p.maxLines = .finite limit) (start last : ℤ) :
    p.splitsWithin start last = true := by
  fun_induction p.splitsWithin start last with
  | case1 start hle ih =>
    rw [Bool.and_eq_true]
    exact ⟨p.growsWithin_of_whole h le_rfl, ih⟩
  | case2 => rfl

theorem grow_small (last : ℤ) {start stop : ℤ}
    (h : start = stop ∨ p.tooLarge ⟨start, stop⟩ = false) :
    start = p.grow start last stop ∨ p.tooLarge ⟨start, p.grow start last stop⟩ = false := by
  fun_induction grow with
  | case1 stop hguard ih => exact ih (.inr (JsNumber.ltNat_of_natLe hguard.2.2))
  | case2 stop hguard => exact h

theorem hardSplit_within_iff (h : p.maxLines.ltNat 1 = false) (start last : ℤ) (kind : ChunkKind) :
    (∀ piece ∈ p.hardSplit start last kind, p.Within piece.1) ↔
      p.splitsWithin start last = true := by
  fun_induction hardSplit with
  | case1 start hle ih =>
    have hemit : emit start (p.grow start last start) kind =
        [(⟨start, p.grow start last start⟩, kind)] := by
      have hge := p.le_grow start last start
      rw [emit, if_neg (by omega)]
    have hsmall := p.grow_small last (.inl (rfl : start = start))
    rw [splitsWithin, if_pos hle, List.forall_mem_append, ih, hemit, List.forall_mem_singleton,
      Bool.and_eq_true, Within, ← p.grow_short_iff (p.tooLong_single h start)]
    exact and_congr_left fun _ => and_iff_left hsmall
  | case2 start hlt =>
    rw [splitsWithin, if_neg hlt]
    simp

/-! ### The greedy loop -/

/-- Once a buffer is too long, it stays so, and one of the pieces is. -/
theorem exists_tooLong (expand : Block → List Piece) {d start bufEnd : ℤ} {bs : List Block}
    (hchain : Chained d (bufEnd + 1) bs) (hle : start ≤ bufEnd)
    (hlong : p.tooLong ⟨start, bufEnd⟩ = true) :
    ¬ ∀ piece ∈ p.packBlocks expand (some start) bufEnd bs, p.Within piece.1 := by
  obtain ⟨piece, hpiece, hin⟩ := p.buffer_kept expand hchain hle
  intro hall
  have hshort := (hall piece hpiece).1
  rw [p.tooLong_mono hin hlong] at hshort
  exact absurd hshort (by simp)

/-- What is in the buffer is within the limits, as far as the loop has come. -/
def BufferWithin (bufStart : Option ℤ) (bufEnd : ℤ) : Prop :=
  ∀ start ∈ bufStart, start ≤ bufEnd ∧ p.Within ⟨start, bufEnd⟩

theorem flush_within {bufStart : Option ℤ} {bufEnd : ℤ} (h : p.BufferWithin bufStart bufEnd) :
    ∀ piece ∈ flush bufStart bufEnd, p.Within piece.1 := by
  cases bufStart with
  | none => simp [flush]
  | some start =>
    obtain ⟨hle, hwithin⟩ := h start rfl
    rw [flush, emit, if_neg (by omega)]
    simpa using hwithin

theorem packBlocks_within_iff {expand : Block → List Piece} {inner : Block → Bool} {d cursor : ℤ}
    {bs : List Block} {bufStart : Option ℤ} {bufEnd : ℤ} (hchain : Chained d cursor bs)
    (hordered : Ordered bs) (hbuf : p.BufferWithin bufStart bufEnd)
    (hfrom : ∀ start ∈ bufStart, ∀ b ∈ bs, start ≤ b.region.first)
    (hexpand : ∀ b ∈ bs, p.oversized b = true →
      ((∀ piece ∈ expand b, p.Within piece.1) ↔ inner b = true)) :
    (∀ piece ∈ p.packBlocks expand bufStart bufEnd bs, p.Within piece.1) ↔
      p.mergesWithin inner bufStart bs = true := by
  induction bs generalizing bufStart bufEnd cursor with
  | nil =>
    rw [packBlocks, mergesWithin]
    simpa using p.flush_within hbuf
  | cons b bs ih =>
    obtain ⟨-, hwell, -, hrest⟩ := hchain
    rw [Ordered, List.pairwise_cons] at hordered
    obtain ⟨hhead, hordered⟩ := hordered
    rw [List.forall_mem_cons] at hexpand
    have hflush := p.flush_within hbuf
    rw [packBlocks, mergesWithin]
    split
    case isTrue hover =>
      rw [List.forall_mem_append, List.forall_mem_append, Bool.and_eq_true, hexpand.1 hover,
        ih hrest hordered (fun _ hnone => absurd hnone (by simp))
          (fun _ hnone => absurd hnone (by simp)) hexpand.2]
      exact and_congr_left fun _ => and_iff_right hflush
    case isFalse hfits =>
      -- the loop goes on with the block in the buffer
      have hput : ∀ start ≤ b.region.first, p.Within ⟨start, b.region.last⟩ →
          ((∀ piece ∈ p.packBlocks expand (some start) b.region.last bs, p.Within piece.1) ↔
            p.mergesWithin inner (some start) bs = true) := by
        intro start hstart hwithin
        refine ih hrest hordered ?_ ?_ hexpand.2
        · intro first hfirst
          obtain rfl := Option.some.inj hfirst
          exact ⟨hstart.trans hwell, hwithin⟩
        · intro first hfirst b' hb'
          obtain rfl := Option.some.inj hfirst
          exact hstart.trans (hhead b' hb')
      have hblock : p.Within b.region := by
        rw [oversized, Bool.or_eq_true, not_or, Bool.not_eq_true, Bool.not_eq_true] at hfits
        exact ⟨hfits.2, .inr hfits.1⟩
      split
      case isTrue =>
        rw [List.forall_mem_append, hput _ le_rfl hblock]
        exact and_iff_right hflush
      case isFalse hmerged =>
        cases bufStart with
        | none => simpa [overruns] using hput _ le_rfl hblock
        | some start =>
          have hstart : start ≤ b.region.first := hfrom start rfl b List.mem_cons_self
          rw [Option.getD_some]
          cases hlong : p.tooLong ⟨start, b.region.last⟩ with
          | true =>
            have hsome := p.exists_tooLong expand hrest (hstart.trans hwell) hlong
            simpa [overruns, hlong] using hsome
          | false =>
            have hsmall : p.tooLarge ⟨start, b.region.last⟩ = false :=
              Bool.eq_false_of_not_eq_true hmerged
            simpa [overruns, hlong] using hput start hstart ⟨hlong, .inr hsmall⟩

theorem packRegion_within_iff (h : p.maxLines.ltNat 1 = false) (region : Region)
    {symbols : List CodeSymbol} (hregion : region.first ≤ region.last)
    (hsorted : symbols.Pairwise fun a b => a.startLine ≤ b.startLine)
    (hwell : ∀ s ∈ symbols, s.startLine ≤ s.endLine) :
    (∀ piece ∈ p.packRegion region symbols, p.Within piece.1) ↔
      p.packsWithin region symbols = true := by
  fun_induction p.packRegion region symbols with
  | case1 region symbols hroots =>
    rw [packsWithin, if_pos hroots]
    exact p.hardSplit_within_iff h region.first region.last .gap
  | case2 region symbols hroots ih =>
    rw [packsWithin, if_neg hroots]
    have hchain := roots_chained hregion hsorted hwell
    refine p.packBlocks_within_iff hchain (roots_ordered region hsorted hwell)
      (fun _ hnone => absurd hnone (by simp)) (fun _ hnone => absurd hnone (by simp))
      fun b hb _ => ?_
    have hle := hchain.well hb
    rcases mem_blocks hb with hgap | ⟨s, hs, rfl⟩
    · simp only [hgap]
      exact p.hardSplit_within_iff h _ _ .gap
    · have hmem := (mem_roots.mp hs).1
      simp only [hmem, dif_pos]
      split
      case isTrue => exact p.hardSplit_within_iff h _ _ .split
      case isFalse =>
        exact ih ⟨⟨s.startLine, s.endLine⟩, some s⟩ s hmem hle
          (hsorted.sublist List.filter_sublist) fun c hc => hwell c (List.mem_of_mem_filter hc)

/-- A region has a piece, and each piece has at least one line. -/
theorem single_within {region : Region} {symbols : List CodeSymbol}
    (hregion : region.first ≤ region.last)
    (hsorted : symbols.Pairwise fun a b => a.startLine ≤ b.startLine)
    (hwell : ∀ s ∈ symbols, s.startLine ≤ s.endLine)
    (h : ∀ piece ∈ p.packRegion region symbols, p.Within piece.1) :
    p.maxLines.ltNat 1 = false := by
  have hsteps := (p.packRegion_expands region hregion hsorted hwell).steps
  cases hpieces : p.packRegion region symbols with
  | nil =>
    rw [hpieces, stretches_nil, steps_nil] at hsteps
    omega
  | cons piece rest =>
    rw [hpieces] at hsteps h
    have hle : piece.1.first ≤ piece.1.last := hsteps.2.1
    have hshort := (h piece List.mem_cons_self).1
    rw [Bool.eq_false_iff] at hshort ⊢
    exact fun hone => hshort (JsNumber.ltNat_mono (by omega) hone)

end Packing

/-- A chunk within both limits of the options. -/
def WithinLimits (options : CastOptions) (c : Chunk) : Prop :=
  (options.maxLines.getD DEFAULT_MAX_LINES).ltNat c.lineNumbers.length = false ∧
    (c.startLine = c.endLine ∨
      (options.maxNonWsChars.getD DEFAULT_MAX_NON_WS).ltNat (nonWsChars c.text) = false)

theorem withinLimits_toChunk (source filePath : String) (symbols : List CodeSymbol)
    (options : CastOptions) (piece : Piece) :
    WithinLimits options (toChunk filePath (source.toList.splitOn '\n') symbols piece) ↔
      (packing source options).Within piece.1 := by
  have hlength : (piece.1.last + 1 - piece.1.first).toNat =
      (piece.1.last - piece.1.first + 1).toNat := by omega
  simp only [WithinLimits, toChunk, Chunk.lineNumbers, Stretch.length_members, hlength,
    nonWsChars_sliceText]
  rfl

/-- The chunks stay within both limits exactly when a line is within them and nothing that is added
to a buffer or to a piece makes it too long. -/
theorem chunkSource_within_iff (source filePath : String) (parsed : List CodeSymbol)
    (options : CastOptions) :
    (∀ c ∈ chunkSource source filePath parsed options, WithinLimits options c) ↔
      (options.maxLines.getD DEFAULT_MAX_LINES).ltNat 1 = false ∧
        (packing source options).packsWithin ⟨1, lineCount source⟩ (structuralSymbols parsed) =
          true := by
  have hpos : (1 : ℤ) ≤ lineCount source := by
    have := lineCount_pos source
    omega
  have hchunks : (∀ c ∈ chunkSource source filePath parsed options, WithinLimits options c) ↔
      ∀ piece ∈ (packing source options).packRegion ⟨1, lineCount source⟩
        (structuralSymbols parsed), (packing source options).Within piece.1 := by
    rw [chunkSource_eq, List.forall_mem_map]
    exact forall₂_congr fun piece _ => withinLimits_toChunk source filePath _ options piece
  have hiff := fun h => (packing source options).packRegion_within_iff h ⟨1, lineCount source⟩
    hpos (structuralSymbols_sorted parsed) (fun s hs => structuralSymbols_well hs)
  rw [hchunks]
  constructor
  · intro hall
    have hone := (packing source options).single_within hpos (structuralSymbols_sorted parsed)
      (fun s hs => structuralSymbols_well hs) hall
    exact ⟨hone, (hiff hone).mp hall⟩
  · rintro ⟨hone, hpacks⟩
    exact (hiff hone).mpr hpacks

instance (options : CastOptions) (c : Chunk) : Decidable (WithinLimits options c) := by
  unfold WithinLimits
  exact inferInstance

/-- Three functions of two lines each, a limit of four lines, and a budget of characters that lets
all three into one chunk. -/
theorem merged_too_long : ¬ ∀ (source filePath : String) (parsed : List CodeSymbol)
    (options : CastOptions),
    ∀ c ∈ chunkSource source filePath parsed options, WithinLimits options c := by
  intro h
  have hall := h "a\nb\nc\nd\ne\nf" "a.ts"
    [⟨"f", .function, 1, 2⟩, ⟨"g", .function, 3, 4⟩, ⟨"h", .function, 5, 6⟩]
    { maxLines := some (.finite 4) }
  exact absurd hall (by decide +kernel)

end CastChunker
end Batiste
