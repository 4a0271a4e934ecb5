import Batiste.Grouping
import Batiste.NodePath

/-! The second check of `hygiene.mjs`: tracked files of one content in several directories.
A file is read only if another one has its size.  The tree does not change while the check runs. -/
namespace Batiste
namespace DuplicateFiles

open Grouping NodePath

/-- What a tracked path names; reading a file may fail. -/
inductive Entry
  | absent
  | other
  | file (bytes : List UInt8) (readable : Bool)

/-- The part of `.hygiene.json` that the check reads. -/
structure Config where
  allowDuplicateBasenames : List String := ["favicon.svg", "og-image.png", ".gitignore"]
  duplicateScopeIgnore : List String := []

structure Finding where
  check : String
  level : String
  msg : String
  deriving DecidableEq

/-! ## The check -/

/-- An entry of `cfg.allowDuplicateBasenames` is a name, or `*` and the end of one. -/
def allowed (cfg : Config) (bn : List Char) : Bool :=
  cfg.allowDuplicateBasenames.any fun a =>
    if ['*'].isPrefixOf a.toList then (a.toList.drop 1).isSuffixOf bn else a.toList == bn

def inScope (cfg : Config) (paths : List String) : Bool :=
  cfg.duplicateScopeIgnore.any fun sc => paths.all fun f => sc.toList.isPrefixOf f.toList

def finding (h : String) (paths : List String) : Finding :=
  ⟨"no-duplicate", "warn", "conteúdo idêntico (multi-source) em " ++ toString paths.length ++
    " pastas: " ++ "  ·  ".intercalate paths ++ "  [" ++ String.ofList (h.toList.take 8) ++ "]"⟩

/-- One round of the loop over `byHash`. -/
def warn (cfg : Config) (group : String × List String) : Option Finding :=
  if group.2.length < 2 then none
  else if (group.2.map dirname).dedup.length < 2 then none
  else if allowed cfg (basename (group.2.headD "")) then none
  else if inScope cfg group.2 then none
  else some (finding group.1 group.2)

section Scan

variable (tree : String → Entry) (sha256 : List UInt8 → String)

/-- `st.size`; what is no regular file is left out as an empty one is. -/
def size (path : String) : ℕ :=
  match tree path with
  | .file bytes _ => bytes.length
  | _ => 0

/-- `readFileSync` -/
def read (path : String) : Option (List UInt8) :=
  match tree path with
  | .file bytes true => some bytes
  | _ => none

def bytes (path : String) : List UInt8 := (read tree path).getD []

def sized (tracked : List String) : List String := tracked.filter fun p => size tree p != 0

def porTamanho (tracked : List String) : List (ℕ × List String) :=
  groupBy (size tree) (sized tree tracked)

/-- The files that are read. -/
def candidatos (tracked : List String) : List String :=
  ((porTamanho tree tracked).filter fun g => decide (2 ≤ g.2.length)).flatMap Prod.snd

def byHash (paths : List String) : List (String × List String) :=
  groupBy (fun p => sha256 (bytes tree p)) (paths.filter fun p => (read tree p).isSome)

def noDuplicate (cfg : Config) (tracked : List String) : List Finding :=
  (byHash tree sha256 (candidatos tree tracked)).filterMap (warn cfg)

/-- The check without the grouping by size: every file is read. -/
def readAll (cfg : Config) (tracked : List String) : List Finding :=
  (byHash tree sha256 (sized tree tracked)).filterMap (warn cfg)

end Scan

/-! ## What is reported -/

/-- The tracked files of a content. -/
def copies (tree : String → Entry) (tracked : List String) (content : List UInt8) : List String :=
  tracked.filter fun p => decide (read tree p = some content)

/-- The paths are in two directories, and the configuration excuses neither the name of the first
nor all of them together. -/
structure Reported (cfg : Config) (paths : List String) : Prop where
  apart : ∃ p ∈ paths, ∃ q ∈ paths, dirname p ≠ dirname q
  name : allowed cfg (basename (paths.headD "")) = false
  scope : inScope cfg paths = false

/-- One finding for each content that is to be reported, and no other. -/
def Exact (tree : String → Entry) (sha256 : List UInt8 → String) (cfg : Config)
    (tracked : List String) (findings : List Finding) : Prop :=
  ∃ contents : List (List UInt8), contents.Nodup ∧
    (∀ c, c ∈ contents ↔ c ≠ [] ∧ Reported cfg (copies tree tracked c)) ∧
    findings = contents.map fun c => finding (sha256 c) (copies tree tracked c)

/-- No two tracked files that can be read differ and have one digest. -/
def CollisionFree (tree : String → Entry) (sha256 : List UInt8 → String)
    (tracked : List String) : Prop :=
  ∀ p ∈ tracked, ∀ q ∈ tracked, ∀ b c, read tree p = some b → read tree q = some c →
    sha256 b = sha256 c → b = c

theorem dedup_short_iff {ds : List String} :
    ds.dedup.length < 2 ↔ ∀ d ∈ ds, ∀ e ∈ ds, d = e := by
  constructor
  · intro hshort d hd e he
    by_contra hne
    have hsub : List.Subperm [d, e] ds.dedup :=
      List.subperm_of_subset (by simp [hne]) (by simp [hd, he])
    have hle := hsub.length_le
    rw [List.length_cons, List.length_singleton] at hle
    omega
  · intro hsame
    by_contra hlong
    obtain ⟨d, e, rest, hds⟩ : ∃ d e rest, ds.dedup = d :: e :: rest := by
      rcases hds : ds.dedup with _ | ⟨d, _ | ⟨e, rest⟩⟩
      · exact absurd (by simp [hds]) hlong
      · exact absurd (by simp [hds]) hlong
      · exact ⟨d, e, rest, rfl⟩
    have hnodup := List.nodup_dedup ds
    rw [hds, List.nodup_cons] at hnodup
    have hd : d ∈ ds := List.mem_dedup.mp (by simp [hds])
    have he : e ∈ ds := List.mem_dedup.mp (by simp [hds])
    exact hnodup.1 (hsame d hd e he ▸ List.mem_cons_self)

theorem Reported.two_le {cfg : Config} {paths : List String} (h : Reported cfg paths) :
    2 ≤ paths.length := by
  obtain ⟨p, hp, q, hq, hne⟩ := h.apart
  have hsub : List.Subperm [p, q] paths :=
    List.subperm_of_subset (by simpa using fun heq => hne (congrArg dirname heq)) (by simp [hp, hq])
  exact hsub.length_le

/-- The `continue`s of the loop leave out what is not to be reported. -/
theorem warn_eq_some_iff {cfg : Config} {h : String} {paths : List String} {f : Finding} :
    warn cfg (h, paths) = some f ↔ Reported cfg paths ∧ f = finding h paths := by
  have hapart : (paths.map dirname).dedup.length < 2 ↔
      ¬∃ p ∈ paths, ∃ q ∈ paths, dirname p ≠ dirname q := by
    rw [dedup_short_iff]
    simp only [List.forall_mem_map]
    push Not
    rfl
  constructor
  · intro hwarn
    simp only [warn] at hwarn
    split at hwarn
    · cases hwarn
    split at hwarn
    · cases hwarn
    split at hwarn
    · cases hwarn
    split at hwarn
    · cases hwarn
    · rename_i hname hscope
      refine ⟨⟨?_, by simpa using hname, by simpa using hscope⟩, (Option.some.inj hwarn).symm⟩
      by_contra hsame
      exact ‹¬(paths.map dirname).dedup.length < 2› (hapart.mpr hsame)
  · rintro ⟨hrep, rfl⟩
    have hlong := hrep.two_le
    have hdirs : ¬(paths.map dirname).dedup.length < 2 := fun hshort =>
      hapart.mp hshort hrep.apart
    simp only [warn]
    rw [if_neg (by omega), if_neg hdirs, hrep.name, hrep.scope]
    rfl

/-! ## Groups by content -/

section Contents

variable {tree : String → Entry} {sha256 : List UInt8 → String} {tracked : List String}

theorem size_of_read {p : String} {c : List UInt8} (h : read tree p = some c) :
    size tree p = c.length := by
  unfold read at h
  unfold size
  split at h
  case h_1 hentry => rw [hentry, Option.some.inj h]
  case h_2 => cases h

theorem mem_copies {p : String} {c : List UInt8} :
    p ∈ copies tree tracked c ↔ p ∈ tracked ∧ read tree p = some c := by
  rw [copies, List.mem_filter, decide_eq_true_eq]

/-- The files that are grouped: some of the tracked ones, and of every content all or, where that is
a single file, none. -/
structure Suffices (tree : String → Entry) (tracked paths : List String) : Prop where
  sub : ∀ p ∈ paths, p ∈ tracked ∧ size tree p ≠ 0
  whole : ∀ c, c ≠ [] → copies tree paths c = copies tree tracked c ∨
    copies tree paths c = [] ∧ (copies tree tracked c).length < 2

theorem readable_eq {p : String} {c : List UInt8} (h : (read tree p).isSome = true) :
    bytes tree p = c ↔ read tree p = some c := by
  obtain ⟨b, hb⟩ := Option.isSome_iff_exists.mp h
  simp [bytes, hb]

theorem warn_isSome_iff {cfg : Config} {h : String} {paths : List String} :
    (warn cfg (h, paths)).isSome = true ↔ Reported cfg paths := by
  rw [Option.isSome_iff_exists]
  simp only [warn_eq_some_iff, exists_and_left, exists_eq, and_true]

theorem filterMap_warn (cfg : Config) (name : List UInt8 → String)
    (paths : List UInt8 → List String) (contents : List (List UInt8)) :
    contents.filterMap (fun c => warn cfg (name c, paths c)) =
      (contents.filter fun c => (warn cfg (name c, paths c)).isSome).map
        fun c => finding (name c) (paths c) := by
  induction contents with
  | nil => rfl
  | cons c contents ih =>
    cases hwarn : warn cfg (name c, paths c) with
    | none => simp [hwarn, ih]
    | some f => simp [hwarn, ih, (warn_eq_some_iff.mp hwarn).2]

/-- The findings of such files are what they have to be. -/
theorem Suffices.exact {paths : List String} (h : Suffices tree tracked paths)
    (hfree : CollisionFree tree sha256 tracked) (cfg : Config) :
    Exact tree sha256 cfg tracked ((byHash tree sha256 paths).filterMap (warn cfg)) := by
  set readable := paths.filter fun p => (read tree p).isSome with hreadable
  have hmem : ∀ p, p ∈ readable ↔ p ∈ paths ∧ ∃ b, read tree p = some b := by
    intro p
    rw [hreadable, List.mem_filter, Option.isSome_iff_exists]
  have hgroups : byHash tree sha256 paths =
      (groupBy (bytes tree) readable).map fun g => (sha256 g.1, g.2) := by
    refine groupBy_comp fun p hp q hq hsame => ?_
    obtain ⟨hp, b, hb⟩ := (hmem p).mp hp
    obtain ⟨hq, c, hc⟩ := (hmem q).mp hq
    rw [bytes, bytes, hb, hc] at hsame ⊢
    exact hfree p (h.sub p hp).1 q (h.sub q hq).1 b c hb hc hsame
  have hall : ∀ c, (readable.filter fun p => decide (bytes tree p = c)) = copies tree paths c := by
    intro c
    rw [hreadable, List.filter_filter, copies]
    refine List.filter_congr fun p _ => ?_
    cases hp : read tree p <;> simp [bytes, hp]
  set contents := (groupBy (bytes tree) readable).map Prod.fst with hcontents
  have hnodup : contents.Nodup := (grouped (bytes tree) readable).keys
  have hin : ∀ c, c ∈ contents ↔ ∃ p ∈ paths, read tree p = some c := by
    intro c
    rw [hcontents, mem_keys_iff]
    constructor
    · rintro ⟨p, hp, rfl⟩
      obtain ⟨hp, b, hb⟩ := (hmem p).mp hp
      exact ⟨p, hp, by simp [bytes, hb]⟩
    · rintro ⟨p, hp, hc⟩
      exact ⟨p, (hmem p).mpr ⟨hp, c, hc⟩, by simp [bytes, hc]⟩
  have hne : ∀ c ∈ contents, c ≠ [] := by
    rintro c hc rfl
    obtain ⟨p, hp, hread⟩ := (hin []).mp hc
    exact (h.sub p hp).2 (size_of_read hread)
  have hcopies : ∀ c ∈ contents, copies tree paths c = copies tree tracked c := by
    intro c hc
    rcases h.whole c (hne c hc) with hsame | ⟨hnone, -⟩
    · exact hsame
    · obtain ⟨p, hp, hread⟩ := (hin c).mp hc
      exact absurd (hnone ▸ mem_copies.mpr ⟨hp, hread⟩) List.not_mem_nil
  have hfindings : byHash tree sha256 paths =
      contents.map fun c => (sha256 c, copies tree tracked c) := by
    rw [hgroups, groupBy_eq, List.map_map, ← hcontents]
    refine List.map_congr_left fun c hc => ?_
    rw [Function.comp_apply, hall, hcopies c hc]
  refine ⟨contents.filter fun c => (warn cfg (sha256 c, copies tree tracked c)).isSome,
    hnodup.filter _, fun c => ?_, ?_⟩
  · rw [List.mem_filter, warn_isSome_iff]
    refine ⟨fun hc => ⟨hne c hc.1, hc.2⟩, fun ⟨hc, hrep⟩ => ⟨?_, hrep⟩⟩
    obtain ⟨p, hp, -⟩ := hrep.apart
    rcases h.whole c hc with hsame | ⟨-, hshort⟩
    · obtain ⟨hp, hread⟩ := mem_copies.mp (hsame ▸ hp)
      exact (hin c).mpr ⟨p, hp, hread⟩
    · exact absurd hrep.two_le (by omega)
  · rw [hfindings, List.filterMap_map]
    exact filterMap_warn cfg sha256 (copies tree tracked) contents

theorem copies_sized {c : List UInt8} (hc : c ≠ []) :
    copies tree (sized tree tracked) c = copies tree tracked c := by
  rw [copies, sized, List.filter_filter]
  refine List.filter_congr fun p _ => ?_
  by_cases hread : read tree p = some c
  · simp [hread, size_of_read hread, hc]
  · simp [hread]

theorem suffices_sized : Suffices tree tracked (sized tree tracked) := by
  refine ⟨fun p hp => ?_, fun c hc => Or.inl (copies_sized hc)⟩
  obtain ⟨hp, hsize⟩ := List.mem_filter.mp hp
  exact ⟨hp, by simpa using hsize⟩

/-- The files of a content have one size: all of them are candidates, or none, and then there is
at most one. -/
theorem suffices_candidatos : Suffices tree tracked (candidatos tree tracked) := by
  refine ⟨fun p hp => ?_, fun c hc => ?_⟩
  · obtain ⟨g, hg, hp⟩ := List.mem_flatMap.mp hp
    have hmem := ((grouped (size tree) _).mem_iff (List.mem_filter.mp hg).1).mp hp
    exact suffices_sized.sub p hmem.1
  · have hkey : ∀ p ∈ sized tree tracked, decide (read tree p = some c) = true →
        size tree p = c.length := fun p _ hp => size_of_read (of_decide_eq_true hp)
    have hkept : copies tree (candidatos tree tracked) c = _ :=
      filter_kept (fun g => decide (2 ≤ g.2.length)) hkey
    rw [hkept, ← copies_sized hc]
    split
    case isTrue => exact Or.inl rfl
    case isFalse hsmall =>
      refine Or.inr ⟨rfl, ?_⟩
      have hsub : (copies tree (sized tree tracked) c).Sublist
          ((sized tree tracked).filter fun p => decide (size tree p = c.length)) := by
        refine List.monotone_filter_right _ fun p hp => ?_
        exact decide_eq_true (size_of_read (of_decide_eq_true hp))
      have hshort : ((sized tree tracked).filter fun p =>
          decide (size tree p = c.length)).length < 2 := by simpa using hsmall
      exact hsub.length_le.trans_lt hshort

/-- A file that alone has its size is not read. -/
theorem size_shared {p : String} (h : p ∈ candidatos tree tracked) :
    2 ≤ (tracked.filter fun q => decide (size tree q = size tree p)).length := by
  obtain ⟨g, hg, hp⟩ := List.mem_flatMap.mp h
  obtain ⟨hg, hlong⟩ := List.mem_filter.mp hg
  have hkey := (((grouped (size tree) _).mem_iff hg).mp hp).2
  rw [decide_eq_true_eq, ((grouped (size tree) _).items g hg).1, ← hkey] at hlong
  exact hlong.trans ((List.filter_sublist.filter _).length_le)

theorem Exact.perm {cfg : Config} {fs gs : List Finding} (hf : Exact tree sha256 cfg tracked fs)
    (hg : Exact tree sha256 cfg tracked gs) : fs.Perm gs := by
  obtain ⟨cs, hcs, hmem, rfl⟩ := hf
  obtain ⟨ds, hds, hmem', rfl⟩ := hg
  refine List.Perm.map _ ((List.perm_ext_iff_of_nodup hcs hds).mpr fun c => ?_)
  rw [hmem, hmem']

end Contents

/-! ## The check as a whole -/

/-- Reading only the files that share their size with another one misses no duplicate. -/
theorem duplicates_found (tree : String → Entry) (sha256 : List UInt8 → String) (cfg : Config)
    (tracked : List String) (hfree : CollisionFree tree sha256 tracked) :
    Exact tree sha256 cfg tracked (noDuplicate tree sha256 cfg tracked) ∧
      (noDuplicate tree sha256 cfg tracked).Perm (readAll tree sha256 cfg tracked) ∧
      ∀ p ∈ candidatos tree tracked,
        2 ≤ (tracked.filter fun q => decide (size tree q = size tree p)).length := by
  have hscan := suffices_candidatos.exact hfree cfg
  exact ⟨hscan, hscan.perm (suffices_sized.exact hfree cfg), fun p hp => size_shared hp⟩

/-- Two projects with a copied stylesheet, a third one that differs, and a longer file. -/
def projects (path : String) : Entry :=
  if path = "a/site.css" ∨ path = "b/site.css" then .file [97] true
  else if path = "c/site.css" then .file [98] true
  else if path = "c/page.css" then .file [97, 98] true
  else .absent

def hexDigest (content : List UInt8) : String :=
  if content = [97] then "ca978112ca1bbdcafac231b39a23dc4da786eff8147c4e72b9807785afee48bb"
  else if content = [98] then "3e23e8160039594a33894f6564e1b1348bbd7a0088d42c4acb73eeaed59c009d"
  else "fb8e20fc2e4c3f248c60c39bd652f3c1347298bb977b8b4d5903b85055620603"

theorem read_projects {p : String} {b : List UInt8} (h : read projects p = some b) :
    b = [97] ∨ b = [98] ∨ b = [97, 98] := by
  unfold read projects at h
  split_ifs at h <;> simp_all

theorem stylesheet_found :
    Exact projects hexDigest {} ["a/site.css", "b/site.css", "c/site.css", "c/page.css"]
      [⟨"no-duplicate", "warn", "conteúdo idêntico (multi-source) em 2 pastas: " ++
        "a/site.css  ·  b/site.css  [ca978112]"⟩] := by
  have hfree : CollisionFree projects hexDigest
      ["a/site.css", "b/site.css", "c/site.css", "c/page.css"] := by
    intro p _ q _ b c hb hc hsame
    rcases read_projects hb with rfl | rfl | rfl <;> rcases read_projects hc with rfl | rfl | rfl <;>
      first | rfl | exact absurd hsame (by decide)
  exact (duplicates_found projects hexDigest {} _ hfree).1

end DuplicateFiles
end Batiste
