import Batiste.JsString
import Batiste.LexicalPath
import Mathlib.Data.List.DropRight

/-! The POSIX functions of Node's `path` module that the code analysis uses. -/
namespace Batiste
namespace NodePath

open LexicalPath

/-- `a` when it is absolute, otherwise `a` below the directory. -/
def below (directory a : List Char) : List Char :=
  if isAbsolute a then a else directory ++ '/' :: a

/-- `resolve(...parts)` where the working directory is absolute. -/
def resolve (cwd : String) (parts : List String) : String :=
  String.ofList ('/' :: ['/'].intercalate
    (normalise (parts.foldl (fun path part => below path part.toList) cwd.toList)).reverse)

/-- What stands before the last slash that is not at the end. -/
def dirname (path : String) : String :=
  let trimmed := path.toList.rdropWhile (· = '/')
  let upTo := trimmed.rdropWhile (· ≠ '/')
  if upTo.length ≤ 1 then (if isAbsolute path.toList then "/" else ".")
  else if upTo = ['/', '/'] then "//"
  else String.ofList upTo.dropLast

/-- The last segment, without slashes at the end. -/
def basename (path : String) : List Char :=
  (path.toList.rdropWhile (· = '/')).rtakeWhile (· ≠ '/')

/-- The last dot of the last segment and what follows it; a dot at the front does not count. -/
def extname (path : String) : String :=
  let base := basename path
  let stem := (base.rdropWhile (· ≠ '.')).dropLast
  if stem = [] ∨ base = parent then ""
  else String.ofList (base.drop stem.length)

example : resolve "/w" ["src/../a.ts"] = "/w/a.ts" ∧ resolve "/w" ["/p/q", "./b"] = "/p/q/b" ∧
    dirname "/p/q/b.ts" = "/p/q" ∧ dirname "/a" = "/" ∧
    extname "/p/a.test.ts" = ".ts" ∧ extname "/p/.env" = "" ∧ extname "/p/q" = "" := by
  decide +kernel

/-! ## Segments -/

/-- The absolute path of some segments, of which the innermost comes first. -/
def ofSegments (segments : List Segment) : List Char := '/' :: ['/'].intercalate segments.reverse

theorem last_separator_inj {sep : Char} {xs ys us vs : List Char} (hys : sep ∉ ys) (hvs : sep ∉ vs)
    (h : xs ++ sep :: ys = us ++ sep :: vs) : xs = us ∧ ys = vs := by
  rcases List.append_eq_append_iff.mp h with ⟨cs, rfl, hcs⟩ | ⟨cs, rfl, hcs⟩
  · cases cs with
    | nil => exact ⟨(List.append_nil xs).symm, (List.cons.inj hcs).2⟩
    | cons c cs => exact absurd ((List.cons.inj hcs).2 ▸ List.mem_append_right cs List.mem_cons_self) hys
  · cases cs with
    | nil => exact ⟨List.append_nil us, (List.cons.inj hcs).2.symm⟩
    | cons c cs => exact absurd ((List.cons.inj hcs).2 ▸ List.mem_append_right cs List.mem_cons_self) hvs

/-- What stands before the last segment. -/
def above (outer : List Segment) : List Char := if outer = [] then [] else ofSegments outer

theorem ofSegments_cons (s : Segment) (outer : List Segment) :
    ofSegments (s :: outer) = above outer ++ '/' :: s := by
  rw [above, ofSegments, List.reverse_cons]
  split_ifs with houter
  · rw [houter, List.reverse_nil, List.nil_append, List.intercalate_singleton, List.nil_append]
  · rw [JsString.intercalate_append (mt List.reverse_eq_nil_iff.mp houter) (List.cons_ne_nil s []),
      List.intercalate_singleton, ofSegments]
    rfl

theorem ofSegments_ne_nil (outer : List Segment) : ofSegments outer ≠ [] := List.cons_ne_nil _ _

theorem ofSegments_inj {xs ys : List Segment} (hx : xs ≠ []) (hy : ys ≠ [])
    (hxs : ∀ s ∈ xs, '/' ∉ s) (hys : ∀ s ∈ ys, '/' ∉ s) (h : ofSegments xs = ofSegments ys) :
    xs = ys := by
  induction xs generalizing ys with
  | nil => exact absurd rfl hx
  | cons x xs ih =>
    cases ys with
    | nil => exact absurd rfl hy
    | cons y ys =>
      rw [ofSegments_cons, ofSegments_cons] at h
      obtain ⟨habove, rfl⟩ := last_separator_inj (hxs x List.mem_cons_self)
        (hys y List.mem_cons_self) h
      rw [above, above] at habove
      split_ifs at habove with hnil hnil' hnil'
      · rw [hnil, hnil']
      · exact absurd habove.symm (ofSegments_ne_nil ys)
      · exact absurd habove (ofSegments_ne_nil xs)
      · rw [ih hnil hnil' (fun s hs => hxs s (List.mem_cons_of_mem x hs))
          (fun s hs => hys s (List.mem_cons_of_mem x hs)) habove]

/-! ## Parts -/

theorem isAbsolute_below {directory a : List Char} (h : isAbsolute directory = true) :
    isAbsolute (below directory a) = true := by
  rw [below]
  split_ifs with ha
  · exact ha
  · cases directory with
    | nil => cases h
    | cons c cs => exact h

theorem isAbsolute_of_slash_notMem {a : List Char} (h : '/' ∉ a) : isAbsolute a = false := by
  cases a with
  | nil => rfl
  | cons c cs =>
    rw [isAbsolute, decide_eq_false_iff_not]
    intro hc
    exact h (Option.some.inj hc ▸ List.mem_cons_self)

/-- A relative part is walked from the directory. -/
theorem normalise_below {directory a : List Char} (h : isAbsolute directory = true)
    (ha : isAbsolute a = false) :
    normalise (below directory a) = walk true (normalise directory) (a.splitOn '/') := by
  have habs := isAbsolute_below (a := a) h
  rw [below, if_neg (by simp [ha])] at habs ⊢
  rw [normalise, habs, List.splitOn_append_cons_of_beq directory a (beq_self_eq_true '/'),
    walk_append, normalise, h]

/-- Parts without a slash are entered one after another. -/
theorem normalise_parts {start : List Char} (hstart : isAbsolute start = true)
    {parts : List (List Char)} (h : ∀ part ∈ parts, '/' ∉ part) :
    normalise (parts.foldl below start) = walk true (normalise start) parts := by
  induction parts generalizing start with
  | nil => rfl
  | cons part parts ih =>
    have hpart := h part List.mem_cons_self
    rw [List.foldl_cons, ih (isAbsolute_below hstart) fun p hp => h p (List.mem_cons_of_mem part hp),
      normalise_below hstart (isAbsolute_of_slash_notMem hpart), List.splitOn_eq_singleton hpart, ← walk_append]
    rfl

theorem enter_name {segment : Segment} (hne : segment ≠ []) (hdot : segment ≠ ['.'])
    (hparent : segment ≠ parent) (absolute : Bool) (here : List Segment) :
    enter absolute here segment = segment :: here := by
  rw [enter, if_neg (not_or.mpr ⟨hne, hdot⟩), if_neg hparent]

/-- In an absolute path nothing is left above the root. -/
theorem parent_notMem_walk {here segments : List Segment} (h : parent ∉ here) :
    parent ∉ walk true here segments := by
  induction segments generalizing here with
  | nil => exact h
  | cons s segments ih =>
    refine ih ?_
    rw [enter]
    split_ifs with hdot hup
    · exact h
    · cases here with
      | nil => exact h
      | cons top outer =>
        rw [leave, if_neg fun htop : top = parent => h (List.mem_cons.mpr (.inl htop.symm))]
        exact fun hmem => h (List.mem_cons_of_mem top hmem)
    · intro hmem
      rcases List.mem_cons.mp hmem with heq | hmem
      · exact hup heq.symm
      · exact h hmem

/-- The directory some levels above. -/
theorem walk_parents {here : List Segment} (h : parent ∉ here) (n : ℕ) :
    walk true here (List.replicate n parent) = here.drop n := by
  induction n generalizing here with
  | zero => rfl
  | succ n ih =>
    have hstep : enter true here parent = here.drop 1 := by
      rw [enter, if_neg (by decide), if_pos rfl]
      cases here with
      | nil => rfl
      | cons top outer => exact if_neg fun htop : top = parent => h (List.mem_cons.mpr (.inl htop.symm))
    rw [List.replicate_succ, walk, List.foldl_cons, hstep]
    exact (ih fun hmem => h (List.mem_of_mem_drop hmem)).trans (by rw [List.drop_drop, Nat.add_comm])

theorem mem_walk {absolute : Bool} {here segments : List Segment} {s : Segment}
    (h : s ∈ walk absolute here segments) :
    s ∈ here ∨ (s ∈ segments ∧ s ≠ [] ∧ s ≠ ['.']) ∨ s = parent := by
  induction segments generalizing here with
  | nil => exact .inl h
  | cons t segments ih =>
    rcases ih h with hhere | ⟨hlater, hproper⟩ | hparent
    · rw [enter] at hhere
      split_ifs at hhere with hdot hup
      · exact .inl hhere
      · cases here with
        | nil =>
          rw [leave] at hhere
          split_ifs at hhere
          · cases hhere
          · exact .inr (.inr (List.mem_singleton.mp hhere))
        | cons top outer =>
          rw [leave] at hhere
          split_ifs at hhere
          · exact (List.mem_cons.mp hhere).elim (fun hs => .inr (.inr hs)) .inl
          · exact .inl (List.mem_cons_of_mem top hhere)
      · rcases List.mem_cons.mp hhere with rfl | hhere
        · exact .inr (.inl ⟨List.mem_cons_self, not_or.mp hdot⟩)
        · exact .inl hhere
    · exact .inr (.inl ⟨List.mem_cons_of_mem t hlater, hproper⟩)
    · exact .inr (.inr hparent)

theorem parent_notMem_normalise {path : List Char} (h : isAbsolute path = true) :
    parent ∉ normalise path := by
  rw [normalise, h]
  exact parent_notMem_walk List.not_mem_nil

theorem slash_notMem_normalise {path : List Char} {s : Segment} (h : s ∈ normalise path) :
    '/' ∉ s := by
  rcases mem_walk h with hnil | ⟨hpiece, -⟩ | rfl
  · cases hnil
  · exact JsString.notMem_splitOn hpiece
  · decide

/-- Entering the segments of a path again leads to the same place. -/
theorem walk_above {outer : List Segment} (hslash : ∀ s ∈ outer, '/' ∉ s)
    (hproper : ∀ s ∈ outer, s ≠ [] ∧ s ≠ ['.'] ∧ s ≠ parent) :
    walk true [] ((above outer).splitOn '/') = outer := by
  induction outer with
  | nil => rfl
  | cons s outer ih =>
    obtain ⟨hne, hdot, hparent⟩ := hproper s List.mem_cons_self
    rw [above, if_neg (List.cons_ne_nil _ _), ofSegments_cons,
      List.splitOn_append_cons_of_beq (above outer) s (beq_self_eq_true '/'), walk_append,
      ih (fun t ht => hslash t (List.mem_cons_of_mem s ht))
        fun t ht => hproper t (List.mem_cons_of_mem s ht),
      List.splitOn_eq_singleton (hslash s List.mem_cons_self)]
    exact enter_name hne hdot hparent true outer

theorem proper_of_mem_normalise {path : List Char} (hpath : isAbsolute path = true) {s : Segment}
    (h : s ∈ normalise path) : s ≠ [] ∧ s ≠ ['.'] ∧ s ≠ parent := by
  have hparent : s ≠ parent := fun heq => parent_notMem_normalise hpath (heq ▸ h)
  rcases mem_walk h with hnil | ⟨-, hne, hdot⟩ | heq
  · cases hnil
  · exact ⟨hne, hdot, hparent⟩
  · exact absurd heq hparent

end NodePath
end Batiste
