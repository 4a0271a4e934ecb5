import Batiste.Json
import Batiste.NodePath

/-! The rules that a governance vault is validated against. -/
namespace Batiste
namespace VaultRules

inductive Axis
  | identity
  | policy
  | roles
  | decision
  | memory
  | audit
  deriving DecidableEq, Repr

def AXES : List Axis := [.identity, .policy, .roles, .decision, .memory, .audit]

def Axis.text : Axis → String
  | .identity => "identity"
  | .policy => "policy"
  | .roles => "roles"
  | .decision => "decision"
  | .memory => "memory"
  | .audit => "audit"

/-- `AXIS_FOLDERS` -/
def Axis.folder : Axis → String
  | .identity => "01 Identity"
  | .policy => "02 Policy"
  | .roles => "03 Roles"
  | .decision => "04 Decision"
  | .memory => "05 Memory"
  | .audit => "06 Audit"

structure Note where
  path : String
  relativePath : String
  axis : Option Axis
  frontmatter : Dict Json
  wikilinks : List String
  title : String

structure Vault where
  root : String
  gvsVersion : Option String
  home : Option Note
  notesByAxis : Axis → List Note
  all : List Note
  templates : List String

inductive Severity
  | error
  | warning
  deriving DecidableEq, Repr

structure ValidationIssue where
  rule : String
  severity : Severity
  path : String
  message : String
  deriving DecidableEq, Repr

def REQUIRED_TEMPLATES : List String :=
  ["00-home.md", "01-identity.md", "02-policy.md", "03-roles.md", "04-decision.md", "05-memory.md",
    "06-audit.md"]

/-- `value.replace(/^\[\[|\]\]$/g, '')` -/
def stripBrackets (s : String) : String :=
  let cs := s.toList
  let opened := if ['[', '['].isPrefixOf cs then cs.drop 2 else cs
  String.ofList (if [']', ']'].isSuffixOf opened then opened.dropLast.dropLast else opened)

/-- A wikilink field as text; YAML reads `[[Name]]` as an array in an array. -/
def normalizeWikilink : Option Json → Option String
  | some (.string s) => some (stripBrackets s)
  | some (.array [.array [.string s]]) => some s
  | _ => none

/-- `path.basename(relativePath, '.md')` -/
def stem (relativePath : String) : String :=
  let base := NodePath.basename relativePath
  let md := ['.', 'm', 'd']
  String.ofList (if md.isSuffixOf base ∧ base ≠ md then base.take (base.length - 3) else base)

def Note.textField (n : Note) (key : String) : Option String :=
  match n.frontmatter.get? key with
  | some (.string s) => some s
  | _ => none

def Note.active (n : Note) : Bool := n.textField "status" == some "active"

def Note.archived (n : Note) : Bool := n.textField "status" == some "archived"

/-! ## Links -/

/-- The place of the note that a title or file name stands for; a later note takes a name over. -/
def titleIndex (notes : List Note) : Dict ℕ :=
  notes.zipIdx.foldl (fun index p => (index.set p.1.title p.2).set (stem p.1.relativePath) p.2) []

/-- `broken wikilink: [[link]]` -/
def brokenIssue (n : Note) (link : String) : ValidationIssue where
  rule := "wikilink-resolution"
  severity := .warning
  path := n.relativePath
  message := "broken wikilink: [[" ++ link ++ "]]"

def brokenIssues (v : Vault) (n : Note) : List ValidationIssue :=
  (n.wikilinks.filter fun link => ((titleIndex v.all).get? link).isNone).map (brokenIssue n)

def archivedTitles (notes : List Note) : List String := (notes.filter Note.archived).map Note.title

/-- `supersedesNorm ? [supersedesNorm] : []` -/
def superseded (n : Note) : Option String :=
  (normalizeWikilink (n.frontmatter.get? "supersedes")).filter fun s => s ≠ ""

def statusIssue (n : Note) (link : String) : ValidationIssue where
  rule := "status-consistency"
  severity := .warning
  path := n.relativePath
  message := "active note links archived note [[" ++ link ++ "]] without a supersedes relation"

def statusIssues (v : Vault) (n : Note) : List ValidationIssue :=
  if n.active then
    (n.wikilinks.filter fun link =>
      (archivedTitles v.all).contains link && superseded n != some link).map (statusIssue n)
  else []

/-! ## The other rules -/

def homeIssues (v : Vault) : List ValidationIssue :=
  match v.home with
  | none => [⟨"home-present", .error, "00 Home.md", "00 Home.md is missing"⟩]
  | some home =>
    (if home.relativePath ≠ "00 Home.md" then
      [⟨"home-naming", .warning, home.relativePath,
        "home file should be named \"00 Home.md\" per spec §5 (found \"" ++ home.relativePath ++
          "\")"⟩]
    else []) ++
    if v.gvsVersion.getD "" = "" then
      [⟨"home-gvs-version", .error, home.relativePath,
        "home frontmatter must declare gvs_version per spec §13"⟩]
    else []

def templateIssues (v : Vault) : List ValidationIssue :=
  (REQUIRED_TEMPLATES.filter fun tpl => !v.templates.contains ("_templates/" ++ tpl)).map fun tpl =>
    ⟨"templates-catalog", .error, "_templates/" ++ tpl, "required template is missing: " ++ tpl⟩

def folderAxisOf (relativePath : String) : Option Axis :=
  AXES.find? fun axis => axis.folder == String.ofList (relativePath.toList.takeWhile (· ≠ '/'))

/-- What the schema of an axis finds in a frontmatter, as field paths with messages; whether a
canonical path is there; and the text of a value. -/
structure Checks where
  schema : Axis → Dict Json → List (List String × String)
  canonicalExists : String → Bool
  skipCanonical : Bool
  text : Json → String

/-- `frontmatter['axis']` as a truthy value. -/
def axisField (n : Note) : Option Json :=
  (n.frontmatter.get? "axis").filter fun axis =>
    match axis with
    | .null => false
    | .bool b => b
    | .number x => x ≠ 0
    | .string s => s ≠ ""
    | _ => true

def folderIssues (checks : Checks) (n : Note) : List ValidationIssue :=
  match folderAxisOf n.relativePath, axisField n with
  | some folderAxis, some fmAxis =>
    if fmAxis = .string folderAxis.text then []
    else [⟨"axis-consistency", .error, n.relativePath,
      "frontmatter axis=" ++ checks.text fmAxis ++ " does not match folder " ++ folderAxis.folder⟩]
  | _, _ => []

def schemaIssues (checks : Checks) (n : Note) : List ValidationIssue :=
  match n.axis with
  | some axis => (checks.schema axis n.frontmatter).map fun err =>
    let field := ".".intercalate err.1
    ⟨"frontmatter-completeness", .error, n.relativePath,
      "frontmatter." ++ (if field = "" then "(root)" else field) ++ ": " ++ err.2⟩
  | none => [⟨"axis-consistency", .error, n.relativePath,
    "note lacks a resolvable axis (no folder match and no frontmatter axis)"⟩]

def canonicalIssues (checks : Checks) (n : Note) : List ValidationIssue :=
  match n.textField "canonical" with
  | some canonical =>
    if checks.skipCanonical ∨ canonical = "" ∨ checks.canonicalExists canonical then []
    else [⟨"canonical-path", .warning, n.relativePath,
      "canonical path does not resolve: " ++ canonical⟩]
  | none => []

def noteIssues (checks : Checks) (v : Vault) (n : Note) : List ValidationIssue :=
  if n.path = (v.home.map Note.path).getD "" then []
  else folderIssues checks n ++ schemaIssues checks n ++ canonicalIssues checks n

/-- The refs that have been seen with the note of each; an empty path counts as none. -/
def auditIssues : Dict String → List Note → List ValidationIssue
  | _, [] => []
  | seen, n :: notes =>
    match n.textField "ref" with
    | none => auditIssues seen notes
    | some ref =>
      if ref = "" then auditIssues seen notes
      else if (seen.get? ref).getD "" ≠ "" then
        ⟨"audit-uniqueness", .error, n.relativePath,
          "audit ref \"" ++ ref ++ "\" also appears in " ++ (seen.get? ref).getD ""⟩ ::
            auditIssues seen notes
      else auditIssues (seen.set ref n.relativePath) notes

structure ValidationReport where
  conforming : Bool
  errors : ℕ
  warnings : ℕ
  issues : List ValidationIssue

def issuesOf (checks : Checks) (v : Vault) : List ValidationIssue :=
  homeIssues v ++ templateIssues v ++ v.all.flatMap (noteIssues checks v) ++
    v.all.flatMap (brokenIssues v) ++ auditIssues [] (v.notesByAxis .audit) ++
    v.all.flatMap (statusIssues v)

def validateVault (checks : Checks) (v : Vault) : ValidationReport :=
  let issues := issuesOf checks v
  let errors := issues.countP fun i => i.severity == .error
  { conforming := errors == 0
    errors
    warnings := issues.countP fun i => i.severity == .warning
    issues }

/-! Links of active notes to archived notes: what the status rule reports, against what the links
resolve to. -/

/-- The names that a note is entered under. -/
def Note.NamedBy (n : Note) (link : String) : Prop := n.title = link ∨ stem n.relativePath = link

instance (n : Note) : DecidablePred n.NamedBy := fun _ => instDecidableOr

/-- The note that a link stands for where broken links are looked for. -/
def resolve (v : Vault) (link : String) : Option Note :=
  ((titleIndex v.all).get? link).bind fun i => v.all[i]?

/-- The field of a note names the note that the link stands for, by either of its names. -/
def Supersedes (v : Vault) (n : Note) (link : String) : Prop :=
  ∃ s ∈ superseded n, (titleIndex v.all).get? s = (titleIndex v.all).get? link

instance (v : Vault) (n : Note) : DecidablePred (Supersedes v n) := fun _ =>
  inferInstanceAs (Decidable (∃ s ∈ superseded n, _))

/-- The link goes to an archived note that the linking note does not supersede. -/
def ShouldReport (v : Vault) (n : Note) (link : String) : Prop :=
  n.active ∧ link ∈ n.wikilinks ∧ (∃ m ∈ resolve v link, m.archived) ∧ ¬Supersedes v n link

instance (v : Vault) (n : Note) : DecidablePred (ShouldReport v n) := fun _ =>
  inferInstanceAs (Decidable (_ ∧ _ ∧ _ ∧ _))

/-! ## What a link resolves to -/

theorem get?_enter (ps : List (Note × ℕ)) (index : Dict ℕ) (link : String) :
    (ps.foldl (fun index p => (index.set p.1.title p.2).set (stem p.1.relativePath) p.2) index).get?
      link = ((ps.reverse.find? fun p => p.1.NamedBy link).map Prod.snd).or (index.get? link) := by
  induction ps generalizing index with
  | nil => simp
  | cons p ps ih =>
    rw [List.foldl_cons, ih, Dict.get?_set, Dict.get?_set, List.reverse_cons, List.find?_append]
    cases hlater : ps.reverse.find? fun p => p.1.NamedBy link with
    | some later => simp
    | none =>
      by_cases hstem : stem p.1.relativePath = link
      · simp [Note.NamedBy, hstem]
      · by_cases htitle : p.1.title = link
        · simp [Note.NamedBy, htitle]
        · simp [Note.NamedBy, hstem, htitle, Ne.symm hstem, Ne.symm htitle]

/-- A name stands for the last note that has it as its title or as its file name. -/
theorem titleIndex_get? (notes : List Note) (link : String) :
    (titleIndex notes).get? link =
      (notes.zipIdx.reverse.find? fun p => p.1.NamedBy link).map Prod.snd := by
  rw [titleIndex, get?_enter, Dict.get?_nil, Option.or_none]

theorem resolve_eq (v : Vault) (link : String) :
    resolve v link = v.all.reverse.find? fun m => m.NamedBy link := by
  have hfind : ∀ ps : List (Note × ℕ), (∀ p ∈ ps, v.all[p.2]? = some p.1) →
      ((ps.find? fun p => p.1.NamedBy link).map Prod.snd).bind (fun i => v.all[i]?) =
        (ps.map Prod.fst).find? fun m => m.NamedBy link := by
    intro ps hps
    rw [List.find?_map]
    cases hfound : ps.find? fun p => p.1.NamedBy link with
    | none => simp [hfound]
    | some p => simp [hfound, hps p (List.mem_of_find?_eq_some hfound)]
  rw [resolve, titleIndex_get?, hfind]
  · rw [List.map_reverse, List.zipIdx_map_fst]
  · intro p hp
    exact List.mem_zipIdx_iff_getElem?.mp (List.mem_reverse.mp hp)

theorem resolve_isSome {v : Vault} {m : Note} (hm : m ∈ v.all) {link : String}
    (hnamed : m.NamedBy link) : ∃ target, resolve v link = some target := by
  rw [resolve_eq, ← Option.isSome_iff_exists, List.find?_isSome]
  exact ⟨m, List.mem_reverse.mpr hm, decide_eq_true hnamed⟩

theorem resolve_eq_none (v : Vault) (link : String) :
    resolve v link = none ↔ (titleIndex v.all).get? link = none := by
  constructor
  · intro hnone
    rw [resolve_eq, List.find?_eq_none] at hnone
    rw [titleIndex_get?, Option.map_eq_none_iff, List.find?_eq_none]
    intro p hp
    obtain ⟨hlt, hp⟩ := List.mem_zipIdx' (List.mem_reverse.mp hp)
    exact hnone p.1 (List.mem_reverse.mpr (hp ▸ List.getElem_mem hlt))
  · intro hnone
    rw [resolve, hnone, Option.bind_none]

theorem framed_inj (before after x y : String) :
    before ++ x ++ after = before ++ y ++ after ↔ x = y := by
  constructor
  · intro h
    have hlist := congrArg String.toList h
    simp only [String.toList_append] at hlist
    exact String.ext (List.append_cancel_left (List.append_cancel_right hlist))
  · exact fun h => h ▸ rfl

theorem statusIssue_inj {n : Note} {link link' : String} :
    statusIssue n link = statusIssue n link' ↔ link = link' := by
  simp only [statusIssue, ValidationIssue.mk.injEq, framed_inj, true_and]

/-- A link is reported as broken where it stands for no note. -/
theorem brokenIssue_mem (v : Vault) (n : Note) (link : String) :
    brokenIssue n link ∈ brokenIssues v n ↔ link ∈ n.wikilinks ∧ resolve v link = none := by
  have hinj : ∀ link', brokenIssue n link' = brokenIssue n link ↔ link' = link := by
    intro link'
    simp only [brokenIssue, ValidationIssue.mk.injEq, framed_inj, true_and]
  simp [brokenIssues, hinj, resolve_eq_none]

/-! ## What is reported -/

theorem archivedTitles_mem (notes : List Note) (link : String) :
    link ∈ archivedTitles notes ↔ ∃ m ∈ notes, m.archived ∧ m.title = link := by
  simp [archivedTitles, and_assoc]

/-- A link is reported when it is the title of an archived note and not the text of the field. -/
theorem statusIssue_mem (v : Vault) (n : Note) (link : String) :
    statusIssue n link ∈ statusIssues v n ↔ n.active ∧ link ∈ n.wikilinks ∧
      link ∈ archivedTitles v.all ∧ superseded n ≠ some link := by
  unfold statusIssues
  by_cases hactive : n.active
  · simp [hactive, statusIssue_inj]
  · simp [hactive]

/-- An archived note is linked by a name that no archived note has as its title. -/
def MissedByName (v : Vault) (n : Note) (link : String) : Prop :=
  (∃ m ∈ resolve v link, m.archived) ∧ ¬Supersedes v n link ∧ link ∉ archivedTitles v.all

/-- The title of an archived note is linked, and it stands for another note that is not archived
or it names by one of its names what the field names by the other. -/
def TitleOfAnother (v : Vault) (n : Note) (link : String) : Prop :=
  link ∈ archivedTitles v.all ∧ superseded n ≠ some link ∧
    ((∃ m ∈ resolve v link, ¬m.archived) ∨ Supersedes v n link)

theorem supersedes_of_text {v : Vault} {n : Note} {link : String}
    (h : superseded n = some link) : Supersedes v n link := ⟨link, h, rfl⟩

/-- The rule reports what it should, except for the two kinds of links. -/
theorem status_reported_iff (v : Vault) (n : Note) (link : String) :
    (statusIssue n link ∈ statusIssues v n ↔ ShouldReport v n link) ↔
      (n.active → link ∈ n.wikilinks → ¬MissedByName v n link ∧ ¬TitleOfAnother v n link) := by
  rw [statusIssue_mem]
  constructor
  · intro hagree hactive hlink
    refine ⟨?_, ?_⟩
    · rintro ⟨harchived, hkept, htitle⟩
      exact htitle (hagree.mpr ⟨hactive, hlink, harchived, hkept⟩).2.2.1
    · rintro ⟨htitle, htext, hother⟩
      obtain ⟨-, -, ⟨m, hm, harchived⟩, hkept⟩ := hagree.mp ⟨hactive, hlink, htitle, htext⟩
      rcases hother with ⟨m', hm', hopen⟩ | hsupersedes
      · exact hopen (Option.mem_unique hm hm' ▸ harchived)
      · exact hkept hsupersedes
  · intro hfree
    constructor
    · rintro ⟨hactive, hlink, htitle, htext⟩
      have hother := (hfree hactive hlink).2
      obtain ⟨k, hk, -, hkt⟩ := (archivedTitles_mem _ _).mp htitle
      obtain ⟨m, hm⟩ := resolve_isSome hk (Or.inl hkt)
      refine ⟨hactive, hlink, ⟨m, hm, ?_⟩, fun hsupersedes => hother ⟨htitle, htext, .inr hsupersedes⟩⟩
      by_contra hopen
      exact hother ⟨htitle, htext, .inl ⟨m, hm, hopen⟩⟩
    · rintro ⟨hactive, hlink, harchived, hkept⟩
      refine ⟨hactive, hlink, ?_, fun htext => hkept (supersedes_of_text htext)⟩
      by_contra htitle
      exact (hfree hactive hlink).1 ⟨harchived, hkept, htitle⟩

/-- An archived decision in a file whose name is not its title, and an active one that links it. -/
def renamedVault : Vault where
  root := "/vault"
  gvsVersion := some "1.0"
  home := none
  notesByAxis := fun _ => []
  all := [⟨"/vault/04 Decision/D-001.md", "04 Decision/D-001.md", some .decision,
      [("status", .string "archived")], [], "Old pool"⟩,
    ⟨"/vault/04 Decision/D-002.md", "04 Decision/D-002.md", some .decision,
      [("status", .string "active")], ["D-001"], "New pool"⟩]
  templates := []

/-- The link stands for the archived note and is neither broken nor reported. -/
theorem file_name_link_not_reported : ∃ n ∈ renamedVault.all,
    ¬(statusIssue n "D-001" ∈ statusIssues renamedVault n ↔ ShouldReport renamedVault n "D-001") := by
  refine ⟨⟨"/vault/04 Decision/D-002.md", "04 Decision/D-002.md", some .decision,
    [("status", .string "active")], ["D-001"], "New pool"⟩, by simp [renamedVault], ?_⟩
  rw [statusIssue_mem]
  decide +kernel

/-! ## In the whole report -/

def OtherRules (issues : List ValidationIssue) : Prop :=
  ∀ i ∈ issues, i.rule ≠ "status-consistency"

theorem homeIssues_other (v : Vault) : OtherRules (homeIssues v) := by
  intro i hi
  unfold homeIssues at hi
  split at hi
  · simp_all
  · rcases List.mem_append.mp hi with hi | hi <;> split at hi <;> simp_all

theorem templateIssues_other (v : Vault) : OtherRules (templateIssues v) := by
  intro i hi
  obtain ⟨tpl, -, rfl⟩ := List.mem_map.mp hi
  simp

theorem noteIssues_other (checks : Checks) (v : Vault) (n : Note) :
    OtherRules (noteIssues checks v n) := by
  intro i hi
  unfold noteIssues at hi
  split at hi
  · cases hi
  · rcases List.mem_append.mp hi with hi | hi
    · rcases List.mem_append.mp hi with hi | hi
      · unfold folderIssues at hi
        split at hi
        · split at hi <;> simp_all
        · cases hi
      · unfold schemaIssues at hi
        split at hi
        · obtain ⟨err, -, rfl⟩ := List.mem_map.mp hi
          simp
        · simp_all
    · unfold canonicalIssues at hi
      split at hi
      · split at hi <;> simp_all
      · cases hi

theorem brokenIssues_other (v : Vault) (n : Note) : OtherRules (brokenIssues v n) := by
  intro i hi
  obtain ⟨link, -, rfl⟩ := List.mem_map.mp hi
  simp [brokenIssue]

theorem auditIssues_other (seen : Dict String) (notes : List Note) :
    OtherRules (auditIssues seen notes) := by
  induction notes generalizing seen with
  | nil => exact fun _ hi => by cases hi
  | cons n notes ih =>
    intro i hi
    unfold auditIssues at hi
    split at hi
    · exact ih _ i hi
    · split at hi
      · exact ih _ i hi
      · split at hi
        · rcases List.mem_cons.mp hi with rfl | hi
          · simp
          · exact ih _ i hi
        · exact ih _ i hi

theorem OtherRules.flatMap {notes : List Note} {f : Note → List ValidationIssue}
    (h : ∀ n, OtherRules (f n)) : OtherRules (notes.flatMap f) := by
  intro i hi
  obtain ⟨n, -, hi⟩ := List.mem_flatMap.mp hi
  exact h n i hi

theorem OtherRules.filter_eq {issues : List ValidationIssue} (h : OtherRules issues) :
    (issues.filter fun i => i.rule == "status-consistency") = [] := by
  rw [List.filter_eq_nil_iff]
  intro i hi
  simpa using h i hi

/-- The issues of the rule in a report are those of the notes, in their order. -/
theorem status_of_report (checks : Checks) (v : Vault) :
    ((issuesOf checks v).filter fun i => i.rule == "status-consistency") =
      v.all.flatMap (statusIssues v) := by
  have hstatus : ∀ i ∈ v.all.flatMap (statusIssues v), i.rule == "status-consistency" := by
    intro i hi
    obtain ⟨n, -, hi⟩ := List.mem_flatMap.mp hi
    unfold statusIssues at hi
    split at hi
    · obtain ⟨link, -, rfl⟩ := List.mem_map.mp hi
      simp [statusIssue]
    · cases hi
  simp only [issuesOf, List.filter_append, (homeIssues_other v).filter_eq,
    (templateIssues_other v).filter_eq, (OtherRules.flatMap (noteIssues_other checks v)).filter_eq,
    (OtherRules.flatMap (brokenIssues_other v)).filter_eq, (auditIssues_other _ _).filter_eq,
    List.filter_eq_self.mpr hstatus, List.nil_append]

end VaultRules
end Batiste
