import Batiste.Bundle

/-! The files that a push lists: those of the included roots whose names are texts. -/
namespace Batiste
namespace Bundle

open ByteCodec

/-! ## Segments -/

theorem notMem_segments {s seg : String} (h : seg ∈ segments s) : '/' ∉ seg.toList := by
  obtain ⟨piece, hpiece, rfl⟩ := List.mem_map.mp h
  rw [String.toList_ofList]
  exact JsString.notMem_splitOn hpiece

theorem segments_append (a b : String) : segments (a ++ "/" ++ b) = segments a ++ segments b := by
  have hchars : (a ++ "/" ++ b).toList = a.toList ++ '/' :: b.toList := by simp
  rw [segments, hchars, List.splitOn_append_cons_self, List.map_append, segments, segments]

theorem segments_of_notMem {s : String} (h : '/' ∉ s.toList) : segments s = [s] := by
  rw [segments, List.splitOn_eq_singleton h, List.map_singleton, String.ofList_toList]

theorem segments_injective : Function.Injective segments := by
  intro s t h
  have hpieces : s.toList.splitOn '/' = t.toList.splitOn '/' := by
    have hinj : Function.Injective String.ofList := fun _ _ h => String.ofList_inj.mp h
    exact List.map_injective_iff.mpr hinj h
  have hchars := congrArg (['/'].intercalate ·) hpieces
  simp only [List.intercalate_splitOn] at hchars
  exact String.toList_inj.mp hchars

/-- A path that is followed down from `rel`. -/
def below (rel : String) (segs : List String) : String :=
  segs.foldl (fun path seg => path ++ "/" ++ seg) rel

theorem segments_below {segs : List String} (h : ∀ seg ∈ segs, '/' ∉ seg.toList) (rel : String) :
    segments (below rel segs) = segments rel ++ segs := by
  induction segs generalizing rel with
  | nil => rw [below, List.foldl_nil, List.append_nil]
  | cons seg segs ih =>
    have hseg := segments_of_notMem (h seg List.mem_cons_self)
    rw [below, List.foldl_cons]
    change segments (below (rel ++ "/" ++ seg) segs) = _
    rw [ih (fun other hother => h other (List.mem_cons_of_mem seg hother)), segments_append, hseg,
      List.append_assoc, List.singleton_append]

theorem pathNames_injective : Function.Injective pathNames := fun _ _ h =>
  segments_injective (List.map_injective_iff.mpr utf8_injective h)

/-! ## Nodes -/

theorem Node.lookup_append (node : Node) (p q : List Bytes) :
    node.lookup (p ++ q) = (node.lookup p).bind fun below => below.lookup q := by
  induction p generalizing node with
  | nil => rfl
  | cons name p ih =>
    rw [List.cons_append, Node.lookup, Node.lookup, Option.bind_assoc]
    exact Option.bind_congr fun child _ => ih child

theorem Node.sizeOf_child {node child : Node} {name : Bytes} (h : node.child name = some child) :
    sizeOf child < sizeOf node := by
  cases node with
  | file content => cases h
  | dir entries =>
    obtain ⟨e, he, rfl⟩ := Option.map_eq_some_iff.mp h
    have hmem := List.sizeOf_lt_of_mem (List.mem_of_find?_eq_some he)
    have hsnd : sizeOf e.2 < sizeOf e := by
      cases e
      simp
    have hdir := Node.dir.sizeOf_spec entries
    omega

/-- The names on a path of a directory are those the file system allows. -/
theorem FileTree.validName (tree : FileTree) {p : List Bytes} {node : Node}
    (h : tree.root.lookup p = some node) : ∀ name ∈ p, ValidName name := by
  intro name hname
  obtain ⟨before, after, rfl⟩ := List.append_of_mem hname
  rw [Node.lookup_append] at h
  obtain ⟨parent, hparent, hlookup⟩ := Option.bind_eq_some_iff.mp h
  obtain ⟨child, hchild, -⟩ := Option.bind_eq_some_iff.mp hlookup
  cases parent with
  | file content => cases hchild
  | dir entries =>
    obtain ⟨e, he, -⟩ := Option.map_eq_some_iff.mp hchild
    have hkey : e.1 = name := by simpa using List.find?_some he
    exact hkey ▸ tree.names before entries hparent e (List.mem_of_find?_eq_some he)

theorem notMem_of_validName {seg : String} (h : ValidName (utf8 seg)) : '/' ∉ seg.toList :=
  fun hslash => h.2.1 (mem_utf8 hslash (by decide))

/-! ## The walk -/

variable (runtime : Runtime)

@[simp] theorem decode_utf8 (s : String) : runtime.decode (utf8 s) = s := by
  rw [Runtime.decode, text?_utf8, Option.getD_some]

theorem find?_walkEntries (entries : List (Bytes × Node)) (name : Bytes) :
    (walkEntries runtime entries).find? (fun walk => walk.1 = name) =
      (entries.find? fun e => e.1 = name).map fun e => (e.1, walkNode runtime e.2) := by
  induction entries with
  | nil => rfl
  | cons e entries ih =>
    rw [walkEntries]
    by_cases h : e.1 = name
    · rw [List.find?_cons_of_pos (by simpa using h), List.find?_cons_of_pos (by simpa using h)]
      rfl
    · rw [List.find?_cons_of_neg (by simpa using h), List.find?_cons_of_neg (by simpa using h), ih]

theorem walkNode_dir (entries : List (Bytes × Node)) (rel : String) :
    walkNode runtime (.dir entries) rel = entries.flatMap fun e =>
      ((Node.dir entries).child (utf8 (runtime.decode e.1))).elim [] fun child =>
        walkNode runtime child (rel ++ "/" ++ runtime.decode e.1) := by
  rw [walkNode]
  refine congrArg (List.flatMap · entries) (funext fun e => ?_)
  rw [find?_walkEntries, Node.child]
  cases entries.find? fun e' => e'.1 = utf8 (runtime.decode e.1) <;> rfl

/-- The walk lists the files below a node whose names are all texts. -/
theorem mem_walkNode (node : Node) (rel path : String) :
    path ∈ walkNode runtime node rel ↔ ∃ segs content,
      node.lookup (segs.map utf8) = some (.file content) ∧ path = below rel segs := by
  induction hn : sizeOf node using Nat.strong_induction_on generalizing node rel path with
  | _ n ih =>
  cases node with
  | file content =>
    rw [walkNode, List.mem_singleton]
    constructor
    · rintro rfl
      exact ⟨[], content, rfl, rfl⟩
    · rintro ⟨segs, content', hlookup, rfl⟩
      cases segs with
      | nil => rfl
      | cons seg segs => cases hlookup
  | dir entries =>
    rw [walkNode_dir, List.mem_flatMap]
    constructor
    · rintro ⟨e, -, hpath⟩
      cases hchild : (Node.dir entries).child (utf8 (runtime.decode e.1)) with
      | none =>
        rw [hchild] at hpath
        cases hpath
      | some child =>
        have hsize := Node.sizeOf_child hchild
        rw [hchild] at hpath
        obtain ⟨segs, content, hlookup, rfl⟩ := (ih _ (hn ▸ hsize) child _ path rfl).mp hpath
        refine ⟨runtime.decode e.1 :: segs, content, ?_, rfl⟩
        rw [List.map_cons, Node.lookup, hchild]
        exact hlookup
    · rintro ⟨segs, content, hlookup, rfl⟩
      cases segs with
      | nil => cases hlookup
      | cons seg segs =>
        rw [List.map_cons, Node.lookup] at hlookup
        obtain ⟨child, hchild, hrest⟩ := Option.bind_eq_some_iff.mp hlookup
        have hsize := Node.sizeOf_child hchild
        obtain ⟨e, he, -⟩ := Option.map_eq_some_iff.mp hchild
        have hkey : e.1 = utf8 seg := by simpa using List.find?_some he
        refine ⟨e, List.mem_of_find?_eq_some he, ?_⟩
        rw [hkey, decode_utf8, hchild]
        exact (ih _ (hn ▸ hsize) child _ _ rfl).mpr ⟨segs, content, hrest, rfl⟩

/-- A file of an included root. -/
def underRoots (includes : List String) (p : List Bytes) : Prop :=
  ∃ inc ∈ includes, pathNames inc <+: p

variable {runtime}

theorem mem_walkFiles (tree : FileTree) {inc rel : String} :
    rel ∈ walkFiles runtime tree.root inc ↔ pathNames inc <+: pathNames rel ∧
      ∃ content, tree.root.lookup (pathNames rel) = some (.file content) := by
  rw [walkFiles]
  constructor
  · intro h
    cases hroot : tree.root.lookup (pathNames inc) with
    | none =>
      rw [hroot] at h
      cases h
    | some node =>
      rw [hroot] at h
      obtain ⟨segs, content, hlookup, rfl⟩ := (mem_walkNode runtime node inc rel).mp h
      have hwhole : tree.root.lookup (pathNames inc ++ segs.map utf8) = some (.file content) := by
        rw [Node.lookup_append, hroot]
        exact hlookup
      have hsegs : ∀ seg ∈ segs, '/' ∉ seg.toList := fun seg hseg =>
        notMem_of_validName (tree.validName hwhole _
          (List.mem_append_right _ (List.mem_map_of_mem hseg)))
      have hnames : pathNames (below inc segs) = pathNames inc ++ segs.map utf8 := by
        rw [pathNames, segments_below hsegs, List.map_append, pathNames]
      rw [hnames]
      exact ⟨List.prefix_append _ _, content, hwhole⟩
  · rintro ⟨hbelow, content, hlookup⟩
    have hsegments : segments inc <+: segments rel :=
      (List.prefix_map_iff_of_injective utf8_injective).mp hbelow
    obtain ⟨segs, hsegs⟩ := hsegments
    have hslash : ∀ seg ∈ segs, '/' ∉ seg.toList := fun seg hseg =>
      notMem_segments (hsegs ▸ List.mem_append_right _ hseg)
    have hrel : rel = below inc segs := segments_injective (by rw [segments_below hslash, hsegs])
    have hnames : pathNames rel = pathNames inc ++ segs.map utf8 := by
      rw [pathNames, ← hsegs, List.map_append, pathNames]
    rw [hnames, Node.lookup_append] at hlookup
    obtain ⟨node, hnode, hfile⟩ := Option.bind_eq_some_iff.mp hlookup
    rw [hnode]
    exact (mem_walkNode runtime node inc rel).mpr ⟨segs, content, hfile, hrel⟩

theorem mem_allRelPaths (tree : FileTree) {includes : List String} {rel : String} :
    rel ∈ allRelPaths runtime tree.root includes ↔ underRoots includes (pathNames rel) ∧
      ∃ content, tree.root.lookup (pathNames rel) = some (.file content) := by
  rw [allRelPaths, List.mem_insertionSort, List.mem_flatMap]
  constructor
  · rintro ⟨inc, hinc, hrel⟩
    obtain ⟨hbelow, hfile⟩ := (mem_walkFiles tree).mp hrel
    exact ⟨⟨inc, hinc, hbelow⟩, hfile⟩
  · rintro ⟨⟨inc, hinc, hbelow⟩, hfile⟩
    exact ⟨inc, hinc, (mem_walkFiles tree).mpr ⟨hbelow, hfile⟩⟩

end Bundle
end Batiste
