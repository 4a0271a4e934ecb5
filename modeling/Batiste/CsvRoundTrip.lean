import Batiste.CsvEtl

/-! What `parseContent` makes of a table that was serialised with every field quoted. -/
namespace Batiste
namespace CsvEtl

/-! ## Fields -/

section Fields

variable {delimiter : Text}

theorem parseFields_toggle {inQuotes : Bool} (current : Text) {rest : Text}
    (h : inQuotes = true → rest.head? ≠ some quote) :
    parseFields delimiter inQuotes current (quote :: rest) =
      parseFields delimiter (!inQuotes) current rest := by
  cases rest with
  | nil => simp [parseFields]
  | cons v rest =>
    rw [parseFields, if_pos rfl, if_neg]
    rintro ⟨hquotes, rfl⟩
    exact h hquotes rfl

theorem parseFields_escaped (current rest : Text) :
    parseFields delimiter true current (quote :: quote :: rest) =
      parseFields delimiter true (current ++ [quote]) rest := by
  rw [parseFields, if_pos rfl, if_pos ⟨rfl, rfl⟩]

theorem parseFields_plain {u : UInt16} (hu : u ≠ quote) (current rest : Text) :
    parseFields delimiter true current (u :: rest) =
      parseFields delimiter true (current ++ [u]) rest := by
  cases rest <;> simp [parseFields, hu]

theorem parseFields_delimiter {d : UInt16} (hd : d ≠ quote) (current rest : Text) :
    parseFields [d] false current (d :: rest) = current :: parseFields [d] false [] rest := by
  cases rest <;> simp [parseFields, hd]

def escape (field : Text) : Text :=
  field.flatMap fun u => if u = quote then [quote, quote] else [u]

/-- Inside quotes an escaped field is read back up to its closing quote. -/
theorem parseFields_escape (field current : Text) {rest : Text} (h : rest.head? ≠ some quote) :
    parseFields delimiter true current (escape field ++ quote :: rest) =
      parseFields delimiter false (current ++ field) rest := by
  induction field generalizing current with
  | nil =>
    rw [List.append_nil]
    exact parseFields_toggle current fun _ => h
  | cons u field ih =>
    rw [escape, List.flatMap_cons, ← escape, List.append_assoc]
    split
    case isTrue hu =>
      show parseFields delimiter true current (quote :: quote :: (escape field ++ quote :: rest)) = _
      rw [parseFields_escaped, ih, hu, List.append_assoc, List.singleton_append]
    case isFalse hu =>
      rw [List.singleton_append, parseFields_plain hu, ih, List.append_assoc,
        List.singleton_append]

theorem parseFields_quoted (field rest : Text) (h : rest.head? ≠ some quote) :
    parseFields delimiter false [] (quoted field ++ rest) =
      parseFields delimiter false field rest := by
  have hquoted : quoted field ++ rest = quote :: (escape field ++ quote :: rest) := by
    simp [quoted, escape]
  rw [hquoted, parseFields_toggle [] (by simp)]
  exact parseFields_escape field [] h

end Fields

theorem comma_ne_quote : unit ',' ≠ quote := by decide

/-- A record is read back field by field, whatever the fields contain. -/
theorem parseRow_serialiseRecord {fields : List Text} (h : fields ≠ []) :
    parseRow (serialiseRecord fields) (ascii ",") = fields := by
  induction fields with
  | nil => exact absurd rfl h
  | cons field fields ih =>
    by_cases hrest : fields = []
    · subst hrest
      have hone : parseFields (ascii ",") false [] (quoted field ++ []) = _ :=
        parseFields_quoted field [] (by simp)
      rw [List.append_nil] at hone
      simpa [serialiseRecord, parseRow, parseFields] using hone
    · have hmap : fields.map quoted ≠ [] := by simpa using hrest
      have hsplit : serialiseRecord (field :: fields) =
          quoted field ++ unit ',' :: serialiseRecord fields := by
        rw [serialiseRecord, List.map_cons, List.intercalate_cons_of_ne_nil hmap]
        simp [serialiseRecord]
      have hcomma : (unit ',' :: serialiseRecord fields).head? ≠ some quote := by
        simpa using comma_ne_quote
      rw [hsplit, parseRow, parseFields_quoted field _ hcomma]
      show parseFields [unit ','] false field _ = _
      rw [parseFields_delimiter comma_ne_quote]
      exact congrArg (field :: ·) (ih hrest)

/-! ## Rows -/

/-- Without a row limit the loop reads every line that is not blank. -/
theorem readRows_eq {options : CsvParseOptions} (hmax : options.maxRows = none)
    (hskip : options.skipEmpty = true) (headers : List Text) (rows : List CsvRow)
    (lines : List Text) :
    readRows options headers rows lines =
      rows ++ (lines.filter fun line => trim line ≠ []).map fun line =>
        fill [] headers (parseRow line options.delimiter) := by
  induction lines generalizing rows with
  | nil => simp [readRows]
  | cons line lines ih =>
    rw [readRows, hmax, hskip]
    by_cases hblank : trim line = []
    · simp [full, hblank, ih]
    · simp [full, hblank, ih]

theorem fill_keys {row : CsvRow} {headers fields : List Text} {key : Text}
    (h : key ∈ (fill row headers fields).map Prod.fst) :
    key ∈ row.map Prod.fst ∨ key ≠ protoKey := by
  induction headers generalizing row fields with
  | nil => exact Or.inl h
  | cons header headers ih =>
    rcases ih h with hrow | hkey
    · rw [assign] at hrow
      split at hrow
      · exact Or.inl hrow
      · rename_i hproto
        split at hrow
        · have hfst : (row.map fun entry =>
              if entry.1 = header then (header, fields.head?.getD []) else entry).map Prod.fst =
              row.map Prod.fst := by
            rw [List.map_map]
            apply List.map_congr_left
            intro entry _
            simp only [Function.comp_apply]
            split
            · exact Eq.symm ‹_›
            · rfl
          rw [hfst] at hrow
          exact Or.inl hrow
        · rw [List.map_append, List.mem_append] at hrow
          refine hrow.imp_right fun hmem => ?_
          rw [List.map_singleton, List.mem_singleton] at hmem
          rw [hmem]
          exact hproto
    · exact Or.inr hkey

/-- Distinct headers that are all assignable get the fields one by one. -/
theorem fill_eq_zip {row : CsvRow} {headers fields : List Text} (hproto : protoKey ∉ headers)
    (hnodup : headers.Nodup) (hnew : ∀ header ∈ headers, header ∉ row.map Prod.fst)
    (hlength : fields.length = headers.length) :
    fill row headers fields = row ++ headers.zip fields := by
  induction headers generalizing row fields with
  | nil => simp [fill]
  | cons header headers ih =>
    cases fields with
    | nil => exact absurd hlength (by simp)
    | cons field fields =>
      rw [List.mem_cons, not_or] at hproto
      rw [List.nodup_cons] at hnodup
      rw [List.forall_mem_cons] at hnew
      have hassign : assign row header field = row ++ [(header, field)] := by
        rw [assign, if_neg (Ne.symm hproto.1), if_neg (by simpa using hnew.1)]
      have hrest : ∀ other ∈ headers, other ∉ (row ++ [(header, field)]).map Prod.fst := by
        intro other hother
        rw [List.map_append, List.mem_append, List.map_singleton, List.mem_singleton, not_or]
        refine ⟨hnew.2 other hother, ?_⟩
        rintro rfl
        exact hnodup.1 hother
      show fill (assign row header field) headers fields = _
      rw [hassign, ih hproto.2 hnodup.2 hrest (by simpa using hlength)]
      simp

/-! ## Lines -/

def normalise (content : Text) : Text := replaceCr (replaceCrLf content)

theorem replaceCrLf_append {xs ys : Text} (h : xs.getLast? = some cr → ys.head? ≠ some lf) :
    replaceCrLf (xs ++ ys) = replaceCrLf xs ++ replaceCrLf ys := by
  fun_induction replaceCrLf xs with
  | case1 => rfl
  | case2 u =>
    cases ys with
    | nil => rfl
    | cons v ys =>
      rw [List.singleton_append, replaceCrLf, if_neg, List.singleton_append]
      rintro ⟨rfl, rfl⟩
      exact h rfl rfl
  | case3 u v rest hbreak ih =>
    rw [List.cons_append, List.cons_append, replaceCrLf, if_pos hbreak, List.cons_append, ih]
    intro hlast
    cases rest with
    | nil => exact absurd hlast (by simp)
    | cons w rest => exact h (by simpa using hlast)
  | case4 u v rest hbreak ih =>
    rw [List.cons_append, List.cons_append, replaceCrLf, if_neg hbreak, List.cons_append]
    rw [List.cons_append] at ih
    rw [ih fun hlast => h (by simpa using hlast)]

theorem normalise_append {xs ys : Text} (h : xs.getLast? = some cr → ys.head? ≠ some lf) :
    normalise (xs ++ ys) = normalise xs ++ normalise ys := by
  rw [normalise, replaceCrLf_append h, replaceCr, List.map_append]
  rfl

theorem normalise_break (rest : Text) : normalise (cr :: lf :: rest) = lf :: normalise rest := by
  rw [normalise, replaceCrLf, if_pos ⟨rfl, rfl⟩, replaceCr, List.map_cons, if_neg (by decide)]
  rfl

/-- Every line break becomes a line feed. -/
theorem lf_mem_normalise {xs : Text} (h : cr ∈ xs ∨ lf ∈ xs) : lf ∈ normalise xs := by
  have hmem : cr ∈ replaceCrLf xs ∨ lf ∈ replaceCrLf xs := by
    fun_induction replaceCrLf xs with
    | case1 => exact h
    | case2 => exact h
    | case3 => exact Or.inr List.mem_cons_self
    | case4 v w rest _ ih =>
      rw [List.mem_cons, List.mem_cons (a := lf)] at h
      rw [List.mem_cons, List.mem_cons (a := lf)]
      grind
  rcases hmem with hmem | hmem
  · exact List.mem_map.mpr ⟨cr, hmem, if_pos rfl⟩
  · exact List.mem_map.mpr ⟨lf, hmem, if_neg (by decide)⟩

theorem normalise_eq_self {xs : Text} (hcr : cr ∉ xs) : normalise xs = xs := by
  have hself : replaceCrLf xs = xs := by
    fun_induction replaceCrLf xs with
    | case1 => rfl
    | case2 => rfl
    | case3 v w rest hbreak _ => exact absurd (by simp [hbreak.1]) hcr
    | case4 v w rest _ ih => rw [ih fun hrest => hcr (List.mem_cons_of_mem _ hrest)]
  rw [normalise, hself, replaceCr]
  refine (List.map_congr_left fun u hu => ?_).trans (List.map_id xs)
  refine if_neg ?_
  rintro rfl
  exact hcr hu

theorem splitLines_break {xs : Text} (h : xs.getLast? ≠ some cr) (ys : Text) :
    splitLines (xs ++ cr :: lf :: ys) = splitLines xs ++ splitLines ys := by
  show (normalise (xs ++ cr :: lf :: ys)).splitOn lf = _
  rw [normalise_append fun hlast => absurd hlast h, normalise_break,
    List.splitOn_append_cons_self]
  rfl

theorem splitLines_of_no_break {xs : Text} (hcr : cr ∉ xs) (hlf : lf ∉ xs) :
    splitLines xs = [xs] := by
  show (normalise xs).splitOn lf = [xs]
  rw [normalise_eq_self hcr]
  exact List.splitOn_eq_singleton hlf

def nonblank (lines : List Text) : List Text := lines.filter fun line => trim line ≠ []

theorem quote_ne_cr : quote ≠ cr := by decide

theorem quote_ne_lf : quote ≠ lf := by decide

theorem trim_ne_nil_of_quote (line : Text) (h : quote ∈ line) : trim line ≠ [] := by
  rw [trim, Ne, List.rdropWhile_eq_nil_iff]
  intro hspace
  have hquote : quote ∈ line.dropWhile isSpace := by
    induction line with
    | nil => exact h
    | cons u line ih =>
      by_cases hu : isSpace u = true
      · rw [List.dropWhile_cons_of_pos hu] at hspace ⊢
        rcases List.mem_cons.mp h with rfl | hrest
        · exact absurd hu (by decide)
        · exact ih hrest hspace
      · rwa [List.dropWhile_cons_of_neg hu]
  exact absurd (hspace quote hquote) (by decide)

/-- A quote is on some line, and that line is not blank. -/
theorem nonblank_of_quote (xs : Text) (h : quote ∈ xs) :
    1 ≤ (nonblank (xs.splitOn lf)).length := by
  have hline : ∃ line ∈ xs.splitOn lf, quote ∈ line := by
    by_contra hline
    have hnone : ∀ line ∈ xs.splitOn lf, quote ∉ line :=
      fun line hmem hquote => hline ⟨line, hmem, hquote⟩
    clear hline
    have hjoin : [lf].intercalate (xs.splitOn lf) = xs := List.intercalate_splitOn lf
    rw [← hjoin] at h
    revert h
    generalize xs.splitOn lf = lines at hnone
    induction lines with
    | nil => simp
    | cons line lines ih =>
      rw [List.forall_mem_cons] at hnone
      by_cases hlines : lines = []
      · simpa [hlines] using hnone.1
      · intro h
        rw [List.intercalate_cons_of_ne_nil hlines] at h
        exact ih hnone.2 (by simpa [hnone.1, quote_ne_lf] using h)
  obtain ⟨line, hmem, hquote⟩ := hline
  exact List.length_pos_of_mem
    (List.mem_filter.mpr ⟨hmem, by simpa using trim_ne_nil_of_quote _ hquote⟩)

/-- A text in quotes that a line break cuts leaves two lines that are not blank. -/
theorem nonblank_of_break (mid : Text) (h : cr ∈ mid ∨ lf ∈ mid) :
    2 ≤ (nonblank (splitLines (quote :: mid ++ [quote]))).length := by
  have hnormal : normalise (quote :: mid ++ [quote]) = quote :: normalise mid ++ [quote] := by
    rw [normalise_append (fun _ => by decide), ← List.singleton_append,
      normalise_append (fun hlast => absurd hlast (by decide))]
    rfl
  obtain ⟨before, after, hsplit⟩ := List.append_of_mem (lf_mem_normalise h)
  have hlines : splitLines (quote :: mid ++ [quote]) =
      (quote :: before).splitOn lf ++ (after ++ [quote]).splitOn lf := by
    show (normalise (quote :: mid ++ [quote])).splitOn lf = _
    rw [hnormal, hsplit, ← List.splitOn_append_cons_self]
    simp
  have hbefore := nonblank_of_quote (quote :: before) List.mem_cons_self
  have hafter := nonblank_of_quote (after ++ [quote]) (by simp)
  rw [hlines, nonblank, List.filter_append, List.length_append]
  exact Nat.add_le_add hbefore hafter

/-! ## Records -/

theorem serialiseRecord_cons (field : Text) {fields : List Text} (h : fields ≠ []) :
    serialiseRecord (field :: fields) = quoted field ++ unit ',' :: serialiseRecord fields := by
  have hmap : fields.map quoted ≠ [] := by simpa using h
  rw [serialiseRecord, List.map_cons, List.intercalate_cons_of_ne_nil hmap]
  simp [serialiseRecord]

/-- A record begins and ends with a quote. -/
theorem serialiseRecord_shape {fields : List Text} (h : fields ≠ []) :
    ∃ mid, serialiseRecord fields = quote :: mid ++ [quote] := by
  induction fields with
  | nil => exact absurd rfl h
  | cons field fields ih =>
    by_cases hrest : fields = []
    · exact ⟨escape field, by simp [hrest, serialiseRecord, quoted, escape]⟩
    · obtain ⟨mid, hmid⟩ := ih hrest
      refine ⟨escape field ++ quote :: unit ',' :: quote :: mid, ?_⟩
      rw [serialiseRecord_cons field hrest, hmid]
      simp [quoted, escape]

theorem mem_quoted {u : UInt16} (hquote : u ≠ quote) {field : Text} :
    u ∈ quoted field ↔ u ∈ field := by
  simp only [quoted, List.mem_cons, List.mem_append, List.mem_flatMap, hquote, false_or,
    List.not_mem_nil, or_false]
  constructor
  · rintro ⟨v, hv, hu⟩
    split at hu
    · simp [hquote] at hu
    · rwa [List.mem_singleton.mp hu]
  · intro hu
    exact ⟨u, hu, by simp [hquote]⟩

theorem mem_serialiseRecord {u : UInt16} (hquote : u ≠ quote) (hcomma : u ≠ unit ',')
    {fields : List Text} : u ∈ serialiseRecord fields ↔ ∃ field ∈ fields, u ∈ field := by
  induction fields with
  | nil => simp [serialiseRecord]
  | cons field fields ih =>
    by_cases hrest : fields = []
    · simp [hrest, serialiseRecord, mem_quoted hquote]
    · rw [serialiseRecord_cons field hrest, List.mem_append, List.mem_cons, mem_quoted hquote, ih]
      simp [hcomma]

/-! ## Tables -/

def Table.records (table : Table) : List (List Text) := table.headers :: table.rows

/-- No header and no field has a line break in it. -/
def Table.unbroken (table : Table) : Prop :=
  ∀ fields ∈ table.records, ∀ field ∈ fields, cr ∉ field ∧ lf ∉ field

instance (table : Table) : Decidable table.unbroken := by
  unfold Table.unbroken
  exact inferInstance

theorem Table.record_ne_nil (table : Table) : ∀ fields ∈ table.records, fields ≠ [] := by
  intro fields hmem
  rcases List.mem_cons.mp hmem with rfl | hrow
  · exact table.headers_ne_nil
  · rw [← List.length_pos_iff, table.width fields hrow]
    exact List.length_pos_iff.mpr table.headers_ne_nil

/-- The lines of a serialised list of records are those of the records, one after the other. -/
theorem splitLines_records {records : List (List Text)} (hne : records ≠ [])
    (h : ∀ fields ∈ records, fields ≠ []) (ending : Bool) :
    splitLines ([cr, lf].intercalate (records.map serialiseRecord) ++
        if ending then [cr, lf] else []) =
      (records.flatMap fun fields => splitLines (serialiseRecord fields)) ++
        if ending then [[]] else [] := by
  have hlast : ∀ fields ∈ records, (serialiseRecord fields).getLast? ≠ some cr := by
    intro fields hmem
    obtain ⟨mid, hmid⟩ := serialiseRecord_shape (h fields hmem)
    rw [hmid, List.getLast?_concat]
    decide
  induction records with
  | nil => exact absurd rfl hne
  | cons fields records ih =>
    rw [List.forall_mem_cons] at h hlast
    by_cases hrest : records = []
    · cases ending with
      | false => simp [hrest]
      | true =>
        rw [hrest, if_pos rfl, if_pos rfl, List.map_singleton, List.intercalate_singleton,
          List.flatMap_singleton]
        exact splitLines_break hlast.1 []
    · have hmap : records.map serialiseRecord ≠ [] := by simpa using hrest
      rw [List.map_cons, List.intercalate_cons_of_ne_nil hmap, List.flatMap_cons,
        List.append_assoc (splitLines _), ← ih hrest h.2 hlast.2, ← splitLines_break hlast.1]
      simp

/-- Parts of at least one element each that are no more than the parts have one element each. -/
theorem length_le_one_of_flatMap {α β : Type*} {f : α → List β} {xs : List α}
    (h : ∀ a ∈ xs, 1 ≤ (f a).length) (hlength : (xs.flatMap f).length ≤ xs.length) :
    ∀ a ∈ xs, (f a).length ≤ 1 := by
  have hge : ∀ ys : List α, (∀ a ∈ ys, 1 ≤ (f a).length) → ys.length ≤ (ys.flatMap f).length := by
    intro ys hys
    induction ys with
    | nil => exact le_rfl
    | cons a ys ih =>
      rw [List.forall_mem_cons] at hys
      have hrest := ih hys.2
      rw [List.flatMap_cons, List.length_append, List.length_cons]
      omega
  induction xs with
  | nil => exact fun a ha => absurd ha List.not_mem_nil
  | cons a xs ih =>
    rw [List.forall_mem_cons] at h ⊢
    rw [List.flatMap_cons, List.length_append, List.length_cons] at hlength
    have hrest := hge xs h.2
    exact ⟨by omega, ih h.2 (by omega)⟩

/-- The first line of a record is not blank. -/
theorem splitLines_record {fields : List Text} (h : fields ≠ []) :
    ∃ first rest, splitLines (serialiseRecord fields) = first :: rest ∧ trim first ≠ [] := by
  obtain ⟨mid, hmid⟩ := serialiseRecord_shape h
  have hlines : splitLines (serialiseRecord fields) =
      ((normalise (mid ++ [quote])).splitOn lf).modifyHead (quote :: ·) := by
    show (normalise (serialiseRecord fields)).splitOn lf = _
    rw [hmid, List.cons_append, ← List.singleton_append,
      normalise_append (fun hlast => absurd hlast (by decide))]
    show (quote :: normalise (mid ++ [quote])).splitOn lf = _
    rw [List.splitOn_cons_eq_if_modifyHead, if_neg (by decide)]
  obtain ⟨line, lines, hcons⟩ :=
    List.exists_cons_of_ne_nil (List.splitOn_ne_nil lf (normalise (mid ++ [quote])))
  refine ⟨quote :: line, lines, ?_, trim_ne_nil_of_quote _ List.mem_cons_self⟩
  rw [hlines, hcons, List.modifyHead_cons]

/-- What comes out: the lines that are not blank, read as records, without the first. -/
theorem parseContent_serialise (table : Table) (ending : Bool) :
    ∃ first rest, splitLines (serialise table ending) = first :: rest ∧ trim first ≠ [] ∧
      parseContent (serialise table ending) {} =
        (nonblank rest).map fun line =>
          fill [] (parseRow first (ascii ",")) (parseRow line (ascii ",")) := by
  have hlines := splitLines_records (List.cons_ne_nil _ _) table.record_ne_nil ending
  obtain ⟨first, rest, hfirst, hblank⟩ := splitLines_record table.headers_ne_nil
  rw [List.flatMap_cons, hfirst] at hlines
  refine ⟨first, _, hlines, hblank, ?_⟩
  rw [parseContent]
  simp only [serialise]
  rw [hlines]
  show readRows {} _ [] _ = _
  rw [readRows_eq rfl rfl]
  rfl

/-- The nonblank lines of a table, one record after the other. -/
theorem nonblank_serialise (table : Table) (ending : Bool) :
    nonblank (splitLines (serialise table ending)) =
      table.records.flatMap fun fields => nonblank (splitLines (serialiseRecord fields)) := by
  have hlines := splitLines_records (List.cons_ne_nil _ _) table.record_ne_nil ending
  have hend : nonblank (if ending then [[]] else []) = [] := by
    cases ending <;> rfl
  rw [serialise, hlines, nonblank, List.filter_append, ← nonblank, ← nonblank, hend,
    List.append_nil, nonblank, List.filter_flatMap]
  rfl

/-- As many rows as the table has are read only if no text of it has a line break. -/
theorem unbroken_of_length (table : Table) (ending : Bool)
    (h : (nonblank (splitLines (serialise table ending))).length ≤ table.records.length) :
    table.unbroken := by
  rw [nonblank_serialise] at h
  have hone : ∀ fields ∈ table.records,
      1 ≤ (nonblank (splitLines (serialiseRecord fields))).length := by
    intro fields hmem
    obtain ⟨first, rest, hfirst, hblank⟩ := splitLines_record (table.record_ne_nil fields hmem)
    rw [hfirst, nonblank, List.filter_cons_of_pos (by simpa using hblank)]
    exact Nat.le_add_left 1 _
  have hle := length_le_one_of_flatMap hone h
  intro fields hmem field hfield
  by_contra hbreak
  have hrecord : cr ∈ serialiseRecord fields ∨ lf ∈ serialiseRecord fields := by
    rw [mem_serialiseRecord (Ne.symm quote_ne_cr) (by decide),
      mem_serialiseRecord (Ne.symm quote_ne_lf) (by decide)]
    by_cases hcr : cr ∈ field
    · exact Or.inl ⟨field, hfield, hcr⟩
    · exact Or.inr ⟨field, hfield, by grind⟩
  obtain ⟨mid, hmid⟩ := serialiseRecord_shape (table.record_ne_nil fields hmem)
  have htwo := nonblank_of_break mid (by
    rw [hmid] at hrecord
    simpa [Ne.symm quote_ne_cr, Ne.symm quote_ne_lf] using hrecord)
  have hatmost := hle fields hmem
  rw [hmid] at hatmost
  omega

/-- Without line breaks the lines are the records. -/
theorem nonblank_of_unbroken {table : Table} (h : table.unbroken) (ending : Bool) :
    nonblank (splitLines (serialise table ending)) = table.records.map serialiseRecord := by
  rw [nonblank_serialise, ← List.flatMap_singleton' (table.records.map serialiseRecord),
    List.flatMap_map]
  apply List.flatMap_congr
  intro fields hmem
  have hfree : ∀ u : UInt16, u ≠ quote → u ≠ unit ',' → (∀ field ∈ fields, u ∉ field) →
      u ∉ serialiseRecord fields := by
    intro u hquote hcomma hnone hu
    obtain ⟨field, hfield, hin⟩ := (mem_serialiseRecord hquote hcomma).mp hu
    exact hnone field hfield hin
  have hcr := hfree cr (Ne.symm quote_ne_cr) (by decide) fun field hfield => (h _ hmem _ hfield).1
  have hlf := hfree lf (Ne.symm quote_ne_lf) (by decide) fun field hfield => (h _ hmem _ hfield).2
  obtain ⟨mid, hmid⟩ := serialiseRecord_shape (table.record_ne_nil fields hmem)
  rw [splitLines_of_no_break hcr hlf, nonblank, List.filter_cons_of_pos, List.filter_nil]
  rw [hmid]
  simpa using trim_ne_nil_of_quote (quote :: mid ++ [quote]) (by simp)

/-- Parsing gives a serialised table back exactly when no header or field has a line break in it
and no column that has a value is named `__proto__`. -/
theorem parseContent_serialise_iff (table : Table) (ending : Bool) :
    parseContent (serialise table ending) {} = table.toRows ↔
      table.unbroken ∧ (protoKey ∉ table.headers ∨ table.rows = []) := by
  obtain ⟨first, rest, hlines, hblank, hparse⟩ := parseContent_serialise table ending
  have hnonblank : nonblank (splitLines (serialise table ending)) = first :: nonblank rest := by
    rw [hlines, nonblank, List.filter_cons_of_pos (by simpa using hblank)]
    rfl
  -- what is parsed once the lines are the records
  have hread : table.unbroken → parseContent (serialise table ending) {} =
      table.rows.map fun row => fill [] table.headers row := by
    intro hunbroken
    have hrecords := nonblank_of_unbroken hunbroken ending
    rw [hnonblank, Table.records, List.map_cons, List.cons.injEq] at hrecords
    rw [hparse, hrecords.2, List.map_map, hrecords.1,
      parseRow_serialiseRecord table.headers_ne_nil]
    apply List.map_congr_left
    intro row hrow
    have hne := table.record_ne_nil row (List.mem_cons_of_mem _ hrow)
    rw [Function.comp_apply, parseRow_serialiseRecord hne]
  constructor
  · intro heq
    have hlength : (nonblank rest).length = table.rows.length := by
      have := congrArg List.length heq
      simpa [hparse, Table.toRows] using this
    have hunbroken : table.unbroken := by
      refine unbroken_of_length table ending ?_
      rw [hnonblank, Table.records, List.length_cons, List.length_cons, hlength]
    refine ⟨hunbroken, or_iff_not_imp_right.mpr fun hrows hproto => ?_⟩
    rw [hread hunbroken, Table.toRows, List.map_inj_left] at heq
    obtain ⟨row, hrow⟩ := List.exists_mem_of_ne_nil _ hrows
    have hkeys : (table.headers.zip row).map Prod.fst = table.headers :=
      List.map_fst_zip (table.width row hrow).ge
    have hkey : protoKey ∈ (fill [] table.headers row).map Prod.fst := by
      rw [heq row hrow, hkeys]
      exact hproto
    rcases fill_keys hkey with hnil | hne
    · exact absurd hnil List.not_mem_nil
    · exact hne rfl
  · rintro ⟨hunbroken, hproto⟩
    rw [hread hunbroken, Table.toRows]
    apply List.map_congr_left
    intro row hrow
    rcases hproto with hproto | hnil
    · exact fill_eq_zip hproto table.distinct (by simp) (table.width row hrow)
    · rw [hnil] at hrow
      exact absurd hrow List.not_mem_nil

/-- One column and one field that holds a line feed between two letters. -/
def brokenTable : Table where
  headers := [ascii "h"]
  rows := [[ascii "a\nb"]]
  headers_ne_nil := by decide
  distinct := by decide
  named := by decide
  width := by decide

theorem line_break_splits_record : ¬ ∀ (table : Table) (ending : Bool),
    parseContent (serialise table ending) {} = table.toRows := by
  intro h
  exact absurd (h brokenTable false) (by decide +kernel)

end CsvEtl
end Batiste
