import Batiste.RecursiveScout

/-! Relative imports of Python: what `PythonStrategy` reports of them, and what `RecursiveScout`
makes of it. -/
namespace Batiste
namespace PythonImports

open NodePath LexicalPath TreeSitterAdapter RecursiveScout

inductive ChildType
  | dotted_name
  | relative_import
  | import_
  | wildcard_import
  | aliased_import
  | other
  deriving DecidableEq, Repr

/-- A child of an import statement in the syntax tree, with the texts of its fields. -/
structure Child where
  type : ChildType
  text : String
  name : Option String := none
  alias_ : Option String := none
  deriving DecidableEq, Repr

/-- What the loop over the children has found so far. -/
structure Found where
  modulePath : String := ""
  importedSymbols : List String := []
  isNamespace : Bool := false
  foundImportKeyword : Bool := false
  deriving DecidableEq, Repr

def Found.visit (found : Found) (child : Child) : Found :=
  match child.type with
  | .import_ => { found with foundImportKeyword := true }
  | .dotted_name =>
    if found.foundImportKeyword then
      { found with importedSymbols := found.importedSymbols ++ [child.text] }
    else { found with modulePath := child.text }
  | .relative_import =>
    if found.foundImportKeyword then found else { found with modulePath := child.text }
  | .wildcard_import =>
    { found with importedSymbols := found.importedSymbols ++ ["*"], isNamespace := true }
  | .aliased_import =>
    match child.name with
    | some name =>
      { found with importedSymbols := found.importedSymbols ++ [child.alias_.getD name] }
    | none => found
  | .other => found

/-- An `import_from_statement` of `extractImports`. -/
def extractImportFrom (children : List Child) (line : ℕ) : Option ImportStatement :=
  let found := children.foldl Found.visit {}
  if found.modulePath = "" then none
  else some
    { modulePath := found.modulePath
      importedSymbols := if found.importedSymbols = [] then ["*"] else found.importedSymbols
      isDefault := false
      isNamespace := found.isNamespace
      line }

/-- `level` dots and a dotted name; `module_` is its last part. -/
structure RelativeImport where
  level : ℕ
  package : List (List Char)
  module_ : List Char
  leading : 0 < level
  names : ∀ name ∈ package ++ [module_], name ≠ [] ∧ '.' ∉ name ∧ '/' ∉ name

namespace RelativeImport

variable (r : RelativeImport)

def text : List Char :=
  List.replicate r.level '.' ++ ['.'].intercalate (r.package ++ [r.module_])

/-- `from <text> import <names>` -/
def children (imported : List Child) : List Child :=
  [⟨.other, "from", none, none⟩, ⟨.relative_import, String.ofList r.text, none, none⟩,
    ⟨.import_, "import", none, none⟩] ++ imported

/-- The file of the module: under the directory `level - 1` levels above the importing file. -/
def moduleFile (cwd fromFile : String) : String :=
  resolve cwd ([dirname fromFile] ++ List.replicate (r.level - 1) ".." ++
    r.package.map String.ofList ++ [String.ofList (r.module_ ++ ['.', 'p', 'y'])])

end RelativeImport

/-! ## What is reported -/

theorem visit_modulePath {found : Found} (h : found.foundImportKeyword = true) (child : Child) :
    (found.visit child).modulePath = found.modulePath ∧
      (found.visit child).foundImportKeyword = true := by
  rw [Found.visit]
  cases child.type with
  | import_ => exact ⟨rfl, rfl⟩
  | dotted_name => simp [h]
  | relative_import => simp [h]
  | wildcard_import => exact ⟨rfl, h⟩
  | aliased_import =>
    cases child.name with
    | none => exact ⟨rfl, h⟩
    | some name => exact ⟨rfl, h⟩
  | other => exact ⟨rfl, h⟩

theorem foldl_modulePath {found : Found} (h : found.foundImportKeyword = true)
    (imported : List Child) : (imported.foldl Found.visit found).modulePath = found.modulePath := by
  induction imported generalizing found with
  | nil => rfl
  | cons child imported ih =>
    obtain ⟨hpath, hfound⟩ := visit_modulePath h child
    exact (ih hfound).trans hpath

theorem reported_text {r : RelativeImport} {imported : List Child} {line : ℕ}
    {statement : ImportStatement}
    (h : extractImportFrom (r.children imported) line = some statement) :
    statement.modulePath = String.ofList r.text := by
  have hpath : ((r.children imported).foldl Found.visit {}).modulePath = String.ofList r.text :=
    foldl_modulePath rfl imported
  simp only [extractImportFrom] at h
  split at h
  · cases h
  · rw [← Option.some.inj h]
    exact hpath

/-! ## The text and the file -/

namespace RelativeImport

variable {r : RelativeImport}

theorem module_ok : r.module_ ≠ [] ∧ '.' ∉ r.module_ ∧ '/' ∉ r.module_ :=
  r.names r.module_ (List.mem_append_right _ (List.mem_singleton_self _))

theorem text_head : r.text.head? = some '.' := by
  obtain ⟨n, hn⟩ := Nat.exists_eq_succ_of_ne_zero r.leading.ne'
  rw [text, hn, List.replicate_succ]
  rfl

/-- The last dot stands before the module. -/
theorem text_ends : ∃ front, r.text = front ++ '.' :: r.module_ := by
  by_cases hpackage : r.package = []
  · obtain ⟨n, hn⟩ := Nat.exists_eq_succ_of_ne_zero r.leading.ne'
    refine ⟨List.replicate n '.', ?_⟩
    rw [text, hn, hpackage, List.nil_append, List.intercalate_singleton, List.replicate_succ',
      List.append_assoc]
    rfl
  · refine ⟨List.replicate r.level '.' ++ ['.'].intercalate r.package, ?_⟩
    rw [text, JsString.intercalate_append hpackage (List.cons_ne_nil _ _),
      List.intercalate_singleton, List.append_assoc]
    rfl

theorem mem_intercalate {names : List (List Char)} {c : Char}
    (h : c ∈ ['.'].intercalate names) : c = '.' ∨ ∃ name ∈ names, c ∈ name := by
  induction names with
  | nil => cases h
  | cons name names ih =>
    by_cases hnil : names = []
    · rw [hnil, List.intercalate_singleton] at h
      exact .inr ⟨name, List.mem_cons_self, h⟩
    · rw [List.intercalate_cons_of_ne_nil hnil, List.mem_append, List.mem_append,
        List.mem_singleton] at h
      rcases h with (hname | hdot) | hrest
      · exact .inr ⟨name, List.mem_cons_self, hname⟩
      · exact .inl hdot
      · exact (ih hrest).imp id fun hex => by
          obtain ⟨other, hmem, hc⟩ := hex
          exact ⟨other, List.mem_cons_of_mem name hmem, hc⟩

theorem slash_notMem_text : '/' ∉ r.text := by
  intro h
  rcases List.mem_append.mp h with hdots | hnames
  · exact absurd (List.eq_of_mem_replicate hdots) (by decide)
  · rcases mem_intercalate hnames with hdot | ⟨name, hname, hc⟩
    · exact absurd hdot (by decide)
    · exact (r.names name hname).2.2 hc

/-- The text is no dot segment. -/
theorem text_last : ∃ c, r.text.getLast? = some c ∧ c ≠ '.' := by
  obtain ⟨front, hfront⟩ := r.text_ends
  obtain ⟨hne, hdot, -⟩ := r.module_ok
  refine ⟨r.module_.getLast hne, ?_, fun h => hdot (h ▸ List.getLast_mem hne)⟩
  rw [hfront, List.getLast?_append_of_ne_nil _ (List.cons_ne_nil _ _),
    List.getLast?_cons_of_ne_nil hne, List.getLast?_eq_getLast_of_ne_nil hne]

theorem enter_text (here : List Segment) : enter true here r.text = r.text :: here := by
  obtain ⟨c, hlast, hc⟩ := r.text_last
  refine enter_name ?_ ?_ ?_ _ _
  · rintro h
    rw [h] at hlast
    cases hlast
  · rintro h
    rw [h] at hlast
    exact hc (Option.some.inj hlast).symm
  · rintro h
    rw [h] at hlast
    exact hc (Option.some.inj hlast).symm

/-- The directory of the importing file. -/
def directory (cwd fromFile : String) : List Segment :=
  normalise (below cwd.toList (dirname fromFile).toList)

theorem slash_notMem_directory {cwd fromFile : String} {s : Segment}
    (h : s ∈ directory cwd fromFile) : '/' ∉ s :=
  slash_notMem_normalise h

/-- The text of the import is one segment. -/
theorem resolve_text {cwd fromFile : String} (hcwd : isAbsolute cwd.toList = true) :
    resolve cwd [dirname fromFile, String.ofList r.text] =
      String.ofList (ofSegments (r.text :: directory cwd fromFile)) := by
  have hnormal := normalise_below (isAbsolute_below (a := (dirname fromFile).toList) hcwd)
    (isAbsolute_of_slash_notMem r.slash_notMem_text)
  rw [List.splitOn_eq_singleton r.slash_notMem_text] at hnormal
  have hwalk := hnormal.trans (r.enter_text (directory cwd fromFile))
  rw [resolve, List.foldl_cons, List.foldl_cons, List.foldl_nil, String.toList_ofList, hwalk]
  rfl

theorem walk_names {names : List (List Char)} (h : ∀ name ∈ names, name ≠ [] ∧ '.' ∉ name)
    (here : List Segment) : walk true here names = names.reverse ++ here := by
  induction names generalizing here with
  | nil => rfl
  | cons name names ih =>
    obtain ⟨hne, hdot⟩ := h name List.mem_cons_self
    have henter : enter true here name = name :: here :=
      enter_name hne (fun heq => hdot (heq ▸ List.mem_cons_self))
        (fun heq => hdot (heq ▸ List.mem_cons_self)) _ _
    rw [walk, List.foldl_cons, henter, List.reverse_cons, List.append_assoc]
    exact ih (fun other hother => h other (List.mem_cons_of_mem name hother)) _

theorem enter_moduleFile (here : List Segment) :
    enter true here (r.module_ ++ ['.', 'p', 'y']) = (r.module_ ++ ['.', 'p', 'y']) :: here := by
  have hlong : 3 ≤ (r.module_ ++ ['.', 'p', 'y']).length := by simp
  refine enter_name ?_ ?_ ?_ _ _
  · intro h
    rw [h] at hlong
    cases hlong
  · intro h
    rw [h] at hlong
    exact absurd hlong (by decide)
  · intro h
    rw [h] at hlong
    exact absurd hlong (by decide)

/-- The segments of the module's file. -/
def moduleSegments (r : RelativeImport) (here : List Segment) : List Segment :=
  (r.module_ ++ ['.', 'p', 'y']) :: (r.package.reverse ++ here.drop (r.level - 1))

theorem moduleFile_eq {cwd fromFile : String} (hcwd : isAbsolute cwd.toList = true) :
    r.moduleFile cwd fromFile =
      String.ofList (ofSegments (r.moduleSegments (directory cwd fromFile))) := by
  have hdir := isAbsolute_below (a := (dirname fromFile).toList) hcwd
  have hparts : ∀ part ∈ List.replicate (r.level - 1) parent ++ r.package ++
      [r.module_ ++ ['.', 'p', 'y']], '/' ∉ part := by
    intro part hpart
    rcases List.mem_append.mp hpart with hpart | hpart
    · rcases List.mem_append.mp hpart with hpart | hpart
      · rw [List.eq_of_mem_replicate hpart]
        decide
      · exact (r.names part (List.mem_append_left _ hpart)).2.2
    · rw [List.mem_singleton.mp hpart, List.mem_append]
      exact not_or.mpr ⟨r.module_ok.2.2, by decide⟩
  have hfold : ([dirname fromFile] ++ List.replicate (r.level - 1) ".." ++
      r.package.map String.ofList ++ [String.ofList (r.module_ ++ ['.', 'p', 'y'])]).foldl
        (fun path part => below path part.toList) cwd.toList =
      (List.replicate (r.level - 1) parent ++ r.package ++ [r.module_ ++ ['.', 'p', 'y']]).foldl
        below (below cwd.toList (dirname fromFile).toList) := by
    have hdots : "..".toList = parent := rfl
    rw [← List.foldl_map (f := String.toList) (g := below)]
    simp only [List.map_append, List.map_cons, List.map_nil, List.map_map, List.map_replicate,
      String.toList_ofList, hdots, List.cons_append, List.nil_append, List.foldl_cons,
      Function.comp_def, List.map_id']
  have hnames : ∀ name ∈ r.package, name ≠ [] ∧ '.' ∉ name := fun name hname =>
    ⟨(r.names name (List.mem_append_left _ hname)).1,
      (r.names name (List.mem_append_left _ hname)).2.1⟩
  have hwalk : normalise ((List.replicate (r.level - 1) parent ++ r.package ++
      [r.module_ ++ ['.', 'p', 'y']]).foldl below (below cwd.toList (dirname fromFile).toList)) =
        r.moduleSegments (directory cwd fromFile) := by
    rw [normalise_parts hdir hparts, walk_append, walk_append,
      walk_parents (parent_notMem_normalise hdir), walk_names hnames]
    exact r.enter_moduleFile _
  rw [moduleFile, resolve, hfold, hwalk]
  rfl

end RelativeImport

/-! ## What the resolver tries -/

variable {r : RelativeImport}

/-- An extension: a dot, then letters of which the first is no `i`. -/
def Extension (ext : List Char) : Prop :=
  ext.head? = some '.' ∧ '.' ∉ ext.tail ∧ '/' ∉ ext.tail ∧ ext.tail.head? ≠ some 'i'

theorem extension_of_mem {options : ScoutOptions}
    (hext : options.extensions = [".ts", ".tsx", ".js", ".jsx", ".py"]) {ext : String}
    (h : ext ∈ options.extensions) : Extension ext.toList := by
  rw [hext] at h
  have hall : ∀ ext ∈ [".ts", ".tsx", ".js", ".jsx", ".py"], ext.toList.head? = some '.' ∧
      '.' ∉ ext.toList.tail ∧ '/' ∉ ext.toList.tail ∧ ext.toList.tail.head? ≠ some 'i' := by
    decide
  exact hall ext h

theorem Extension.eq {ext : List Char} (h : Extension ext) : ext = '.' :: ext.tail := by
  cases ext with
  | nil => cases h.1
  | cons c cs => rw [Option.some.inj h.1, List.tail_cons]

theorem Extension.slash {ext : List Char} (h : Extension ext) : '/' ∉ ext := by
  rw [h.eq, List.mem_cons]
  exact not_or.mpr ⟨by decide, h.2.2.1⟩

theorem suffix_of_separator {sep : Char} {xs ys zs : List Char} (h : zs <:+ xs ++ sep :: ys)
    (hsep : sep ∉ zs) : zs <:+ ys := by
  rcases List.suffix_or_suffix_of_suffix h (List.suffix_append xs (sep :: ys)) with hz | hz
  · rcases List.suffix_cons_iff.mp hz with rfl | hz
    · exact absurd List.mem_cons_self hsep
    · exact hz
  · exact absurd (hz.subset List.mem_cons_self) hsep

/-- What is left of the text once an extension is taken off it. -/
def Stripped (r : RelativeImport) (seg : List Char) : Prop :=
  seg = r.text ∨ ∃ ext, Extension ext ∧ r.text = seg ++ ext

theorem withoutExt_text {options : ScoutOptions}
    (hext : options.extensions = [".ts", ".tsx", ".js", ".jsx", ".py"]) (here : List Segment) :
    ∃ seg, Stripped r seg ∧ withoutExt options (String.ofList (ofSegments (r.text :: here))) =
      String.ofList (above here ++ '/' :: seg) := by
  rw [withoutExt, String.toList_ofList, ofSegments_cons]
  split
  · next ext hfind =>
    have hmem := List.mem_of_find?_eq_some hfind
    have hextension := extension_of_mem hext hmem
    have hends : ext.toList.isSuffixOf (above here ++ '/' :: r.text) = true :=
      List.find?_some (p := fun ext : String => ext.toList.isSuffixOf _) hfind
    obtain ⟨seg, hseg⟩ := suffix_of_separator (List.isSuffixOf_iff_suffix.mp hends) hextension.slash
    refine ⟨seg, .inr ⟨ext.toList, hextension, hseg.symm⟩, ?_⟩
    have hpos : ext.toList.length ≠ 0 := by
      rw [hextension.eq]
      exact Nat.succ_ne_zero _
    have hsplit : above here ++ '/' :: r.text = (above here ++ '/' :: seg) ++ ext.toList := by
      rw [← hseg, List.append_assoc, List.cons_append]
    rw [if_neg hpos, hsplit, List.length_append, Nat.add_sub_cancel, List.take_left']
    rfl
  · exact ⟨r.text, .inl rfl, rfl⟩

theorem Stripped.slash {seg : List Char} (h : Stripped r seg) : '/' ∉ seg := by
  rcases h with rfl | ⟨ext, -, htext⟩
  · exact r.slash_notMem_text
  · exact fun hmem => r.slash_notMem_text (htext ▸ List.mem_append_left ext hmem)

/-- With an extension the rest of the text begins with a dot. -/
theorem Stripped.head {seg ext : List Char} (h : Stripped r seg) (hext : Extension ext) :
    (seg ++ ext).head? = some '.' := by
  have htext := r.text_head
  cases seg with
  | nil => exact hext.1
  | cons c cs =>
    rcases h with hseg | ⟨other, -, hseg⟩
    · rw [← hseg] at htext
      exact htext
    · rw [hseg] at htext
      exact htext

theorem moduleFile_head {ys : List Char} (h : r.module_ ++ ['.', 'p', 'y'] = ys) :
    ys.head? ≠ some '.' := by
  obtain ⟨hne, hdot, -⟩ := r.module_ok
  rw [← h, List.head?_append_of_ne_nil _ hne, List.head?_eq_some_head hne]
  exact fun heq => hdot (Option.some.inj heq ▸ List.head_mem hne)

/-- The segments of the module's file hold no slash. -/
theorem moduleSegments_slash {here : List Segment} (hhere : ∀ s ∈ here, '/' ∉ s) :
    ∀ s ∈ r.moduleSegments here, '/' ∉ s := by
  intro s hs
  rcases List.mem_cons.mp hs with rfl | hs
  · rw [List.mem_append]
    exact not_or.mpr ⟨r.module_ok.2.2, by decide⟩
  · rcases List.mem_append.mp hs with hs | hs
    · exact (r.names s (List.mem_append_left _ (List.mem_reverse.mp hs))).2.2
    · exact hhere s (List.mem_of_mem_drop hs)

/-- A file beside the importing one whose name begins with a dot is not the module's. -/
theorem moduleSegments_ne_dotted {here : List Segment} (hhere : ∀ s ∈ here, '/' ∉ s)
    {seg : List Char} (hseg : '/' ∉ seg) (hhead : seg.head? = some '.') :
    ofSegments (r.moduleSegments here) ≠ ofSegments (seg :: here) := by
  intro h
  have hsegs : ∀ s ∈ seg :: here, '/' ∉ s := fun s hs =>
    (List.mem_cons.mp hs).elim (fun heq => heq ▸ hseg) (hhere s)
  have heq := ofSegments_inj (List.cons_ne_nil _ _) (List.cons_ne_nil _ _)
    (moduleSegments_slash hhere) hsegs h
  exact moduleFile_head (List.cons.inj heq).1 hhead

theorem isAbsolute_above_append (here : List Segment) (seg : List Char) :
    isAbsolute (above here ++ '/' :: seg) = true := by
  rw [above]
  split_ifs <;> rfl

/-- Neither is an index file of the directory that the text names. -/
theorem moduleSegments_ne_index {here : List Segment}
    (hslash : ∀ s ∈ here, '/' ∉ s) (hproper : ∀ s ∈ here, s ≠ [] ∧ s ≠ ['.'] ∧ s ≠ parent)
    {seg ext : List Char} (hseg : Stripped r seg) (hext : Extension ext) :
    ofSegments (r.moduleSegments here) ≠
      ofSegments (("index".toList ++ ext) :: normalise (above here ++ '/' :: seg)) := by
  intro h
  have hindex : '/' ∉ "index".toList ++ ext := by
    rw [List.mem_append]
    exact not_or.mpr ⟨by decide, hext.slash⟩
  have hsegs : ∀ s ∈ ("index".toList ++ ext) :: normalise (above here ++ '/' :: seg), '/' ∉ s :=
    fun s hs => (List.mem_cons.mp hs).elim (fun heq => heq ▸ hindex) slash_notMem_normalise
  have heq := ofSegments_inj (List.cons_ne_nil _ _) (List.cons_ne_nil _ _)
    (moduleSegments_slash hslash) hsegs h
  obtain ⟨hfile, hrest⟩ := List.cons.inj heq
  rcases hseg with rfl | ⟨other, hother, htext⟩
  · rw [normalise, isAbsolute_above_append, List.splitOn_append_cons_of_beq (above here) r.text
      (beq_self_eq_true '/'), walk_append, walk_above hslash hproper,
      List.splitOn_eq_singleton r.slash_notMem_text] at hrest
    have hdeep : r.package.reverse ++ here.drop (r.level - 1) = r.text :: here :=
      hrest.trans (r.enter_text here)
    cases hpackage : r.package.reverse with
    | nil =>
      rw [hpackage, List.nil_append] at hdeep
      have hlen := congrArg List.length hdeep
      rw [List.length_drop, List.length_cons] at hlen
      omega
    | cons name names =>
      rw [hpackage] at hdeep
      have hname : name ∈ r.package := List.mem_reverse.mp (hpackage ▸ List.mem_cons_self)
      have hdot := (r.names name (List.mem_append_left _ hname)).2.1
      rw [(List.cons.inj hdeep).1] at hdot
      exact hdot (List.mem_of_mem_head? r.text_head)
  · -- the text ends with the extension, which is then the module, and no module is `index`
    obtain ⟨front, hfront⟩ := r.text_ends
    rw [hother.eq, hfront] at htext
    have hmodule := (last_separator_inj r.module_ok.2.1 hother.2.1 htext).2
    have hfirst : r.module_.head? = some 'i' := by
      rw [← List.head?_append_of_ne_nil r.module_ r.module_ok.1, hfile]
      rfl
    exact hother.2.2.2 (hmodule ▸ hfirst)

/-! ## The resolver -/

section Resolver

variable {host : Host} {fs : FileSystem} {options : ScoutOptions} {fromFile : String}

theorem resolve_index (cwd : String) (here : List Segment) (seg : List Char) {ext : String}
    (h : Extension ext.toList) :
    resolve cwd [String.ofList (above here ++ '/' :: seg), "index" ++ ext] =
      String.ofList (ofSegments (("index".toList ++ ext.toList) ::
        normalise (above here ++ '/' :: seg))) := by
  have habs := isAbsolute_above_append here seg
  have hindex : '/' ∉ ("index" ++ ext).toList := by
    rw [String.toList_append, List.mem_append]
    exact not_or.mpr ⟨by decide, h.slash⟩
  have hnormal := normalise_below habs (isAbsolute_of_slash_notMem hindex)
  rw [List.splitOn_eq_singleton hindex, String.toList_append] at hnormal
  have henter : ∀ here, enter true here ("index".toList ++ ext.toList) =
      ("index".toList ++ ext.toList) :: here :=
    enter_name (by simp) (by simp) (by simp [parent]) true
  have hstart : below cwd.toList (above here ++ '/' :: seg) = above here ++ '/' :: seg := if_pos habs
  rw [resolve, List.foldl_cons, List.foldl_cons, List.foldl_nil, String.toList_ofList, hstart,
    String.toList_append, hnormal]
  exact congrArg (fun segments => String.ofList (ofSegments segments)) (henter _)

theorem resolveImport_text :
    resolveImport host fs options (String.ofList r.text) fromFile =
      resolveWithExtensions host fs options
        (resolve host.cwd [dirname fromFile, String.ofList r.text]) := by
  have hhead : (String.ofList r.text).toList.head? = some '.' := by
    rw [String.toList_ofList]
    exact r.text_head
  rw [resolveImport]
  simp only [hhead]
  simp

/-- No file that the resolver tries is the module's. -/
theorem resolveImport_ne_moduleFile (hcwd : isAbsolute host.cwd.toList = true)
    (hext : options.extensions = [".ts", ".tsx", ".js", ".jsx", ".py"]) :
    resolveImport host fs options (String.ofList r.text) fromFile ≠
      some (r.moduleFile host.cwd fromFile) := by
  have hdir := isAbsolute_below (a := (dirname fromFile).toList) hcwd
  have hslash : ∀ s ∈ RelativeImport.directory host.cwd fromFile, '/' ∉ s :=
    fun s hs => slash_notMem_normalise hs
  have hproper : ∀ s ∈ RelativeImport.directory host.cwd fromFile,
      s ≠ [] ∧ s ≠ ['.'] ∧ s ≠ parent := fun s hs => proper_of_mem_normalise hdir hs
  obtain ⟨seg, hseg, hstem⟩ :=
    withoutExt_text (r := r) hext (RelativeImport.directory host.cwd fromFile)
  rw [resolveImport_text, RelativeImport.resolve_text hcwd, RelativeImport.moduleFile_eq hcwd]
  generalize RelativeImport.directory host.cwd fromFile = here at *
  intro h
  simp only [resolveWithExtensions, hstem] at h
  split at h
  · exact moduleSegments_ne_dotted hslash r.slash_notMem_text r.text_head
      (String.ofList_injective (Option.some.inj h)).symm
  · split at h
    · next withExt hfind =>
      obtain ⟨ext, hmem, rfl⟩ := List.mem_map.mp (List.mem_of_find?_eq_some hfind)
      have hextension := extension_of_mem hext hmem
      have hpath := congrArg String.toList (Option.some.inj h)
      rw [String.toList_append, String.toList_ofList, String.toList_ofList, List.append_assoc,
        List.cons_append, ← ofSegments_cons] at hpath
      refine moduleSegments_ne_dotted hslash ?_ (hseg.head hextension) hpath.symm
      rw [List.mem_append]
      exact not_or.mpr ⟨hseg.slash, hextension.slash⟩
    · obtain ⟨ext, hmem, hpath⟩ := List.mem_map.mp (List.mem_of_find?_eq_some h)
      have hextension := extension_of_mem hext hmem
      rw [resolve_index host.cwd here seg hextension] at hpath
      exact moduleSegments_ne_index hslash hproper hseg hextension
        (String.ofList_injective hpath).symm

/-- The import is resolved to its module's file just when there is no such file to resolve it to. -/
theorem relative_import_iff (hcwd : isAbsolute host.cwd.toList = true)
    (hext : options.extensions = [".ts", ".tsx", ".js", ".jsx", ".py"]) {imported : List Child}
    {line : ℕ} {statement : ImportStatement}
    (hstatement : extractImportFrom (r.children imported) line = some statement) :
    (isFile fs (r.moduleFile host.cwd fromFile) = true →
      resolveImport host fs options statement.modulePath fromFile =
        some (r.moduleFile host.cwd fromFile)) ↔
      isFile fs (r.moduleFile host.cwd fromFile) = false := by
  rw [reported_text hstatement]
  constructor
  · intro h
    rw [← Bool.not_eq_true]
    exact fun hfile => resolveImport_ne_moduleFile hcwd hext (h hfile)
  · intro hnone hfile
    rw [hnone] at hfile
    cases hfile

end Resolver

/-! ## A package with a helper -/

def posix : Host := ⟨"/w", id⟩

/-- `from .helper import f` -/
def helper : RelativeImport where
  level := 1
  package := []
  module_ := ['h', 'e', 'l', 'p', 'e', 'r']
  leading := Nat.one_pos
  names := by decide

def helperFile : FileSystem := [("/p/main.py", .file []), ("/p/helper.py", .file [])]

def helperStatement : ImportStatement := ⟨".helper", ["f"], false, false, 1⟩

theorem helper_reported : extractImportFrom (helper.children [⟨.dotted_name, "f", none, none⟩]) 1 =
      some helperStatement ∧
    isFile helperFile (helper.moduleFile posix.cwd "/p/main.py") = true ∧
    resolveImport posix helperFile {} ".helper" "/p/main.py" = none ∧
    isAbsolute posix.cwd.toList = true := by
  decide +kernel

theorem helper_iff : (isFile helperFile (helper.moduleFile posix.cwd "/p/main.py") = true →
      resolveImport posix helperFile {} ".helper" "/p/main.py" =
        some (helper.moduleFile posix.cwd "/p/main.py")) ↔
      isFile helperFile (helper.moduleFile posix.cwd "/p/main.py") = false := by
  have hiff := @relative_import_iff helper posix helperFile {} "/p/main.py"
    helper_reported.2.2.2 rfl _ 1 helperStatement helper_reported.1
  exact hiff

/-- The module beside the importing file is not found. -/
theorem helper_not_resolved : ¬ ∀ (host : Host) (fs : FileSystem) (r : RelativeImport)
    (imported : List Child) (line : ℕ) (statement : ImportStatement) (fromFile : String),
      isAbsolute host.cwd.toList = true →
      extractImportFrom (r.children imported) line = some statement →
      isFile fs (r.moduleFile host.cwd fromFile) = true →
        resolveImport host fs {} statement.modulePath fromFile =
          some (r.moduleFile host.cwd fromFile) := by
  intro hall
  obtain ⟨hreported, hfile, hnone, hcwd⟩ := helper_reported
  have hsome := hall posix helperFile helper _ 1 helperStatement "/p/main.py" hcwd hreported hfile
  rw [show helperStatement.modulePath = ".helper" from rfl, hnone] at hsome
  cases hsome

end PythonImports
end Batiste
