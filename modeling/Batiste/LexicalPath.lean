import Mathlib.Data.String.Basic
import Mathlib.Tactic

/-! Paths as texts: the segments between slashes, and where `.` and `..` lead without looking at
the file system. -/
namespace Batiste
namespace LexicalPath

abbrev Segment := List Char

def parent : Segment := ['.', '.']

def isAbsolute (path : List Char) : Bool := path.head? = some '/'

/-- One directory up; the innermost directory comes first. -/
def leave (absolute : Bool) : List Segment → List Segment
  | [] => if absolute then [] else [parent]
  | top :: outer => if top = parent then parent :: top :: outer else outer

/-- One segment further. -/
def enter (absolute : Bool) (here : List Segment) (segment : Segment) : List Segment :=
  if segment = [] ∨ segment = ['.'] then here
  else if segment = parent then leave absolute here
  else segment :: here

def walk (absolute : Bool) (here : List Segment) (segments : List Segment) : List Segment :=
  segments.foldl (enter absolute) here

/-- The path without dot segments, from its innermost directory outwards. -/
def normalise (path : List Char) : List Segment :=
  walk (isAbsolute path) [] (path.splitOn '/')

/-- The place is reached from the outer one without leaving it. -/
def within (outer here : List Segment) : Bool :=
  outer.isSuffixOf here && !(here.take (here.length - outer.length)).contains parent

/-- The path leads to a place under the directory. -/
def under (directory path : List Char) : Bool :=
  (isAbsolute path == isAbsolute directory) && within (normalise directory) (normalise path)

/-- Followed from the directory, the rest of a path leads to a place inside it. -/
def staysInside (directory rest : List Char) : Bool :=
  (directory != [] || !isAbsolute rest) &&
    within (normalise directory)
      (walk (isAbsolute directory) (normalise directory) (rest.splitOn '/'))

theorem walk_append (absolute : Bool) (here : List Segment) (xs ys : List Segment) :
    walk absolute here (xs ++ ys) = walk absolute (walk absolute here xs) ys :=
  List.foldl_append

/-- A directory path that ends with a slash is walked before the rest. -/
theorem under_append {directory : List Char}
    (h : directory = [] ∨ ∃ names, directory = names ++ ['/']) (rest : List Char) :
    under directory (directory ++ rest) = staysInside directory rest := by
  rcases h with rfl | ⟨names, rfl⟩
  · have hnil : normalise [] = [] := by decide
    have hrelative : isAbsolute [] = false := by decide
    cases hrest : isAbsolute rest with
    | true => simp [under, staysInside, hrelative, hrest]
    | false =>
      rw [under, staysInside, hnil, List.nil_append, hrest, hrelative, normalise, hrest]
      rfl
  · have habsolute : isAbsolute (names ++ ['/'] ++ rest) = isAbsolute (names ++ ['/']) := by
      cases names <;> simp [isAbsolute]
    have hsplit : (names ++ ['/'] ++ rest).splitOn '/' = names.splitOn '/' ++ rest.splitOn '/' := by
      rw [List.append_assoc, List.singleton_append]
      exact List.splitOn_append_cons_of_beq names rest (beq_self_eq_true '/')
    have hdirectory : normalise (names ++ ['/']) =
        walk (isAbsolute (names ++ ['/'])) [] (names.splitOn '/') := by
      rw [normalise, List.splitOn_append_cons_of_beq names [] (beq_self_eq_true '/'), walk_append]
      simp [walk, enter]
    have hpath : normalise (names ++ ['/'] ++ rest) =
        walk (isAbsolute (names ++ ['/'])) (normalise (names ++ ['/'])) (rest.splitOn '/') := by
      rw [hdirectory, normalise, habsolute, hsplit, walk_append]
    rw [under, staysInside, habsolute, hpath]
    simp

end LexicalPath
end Batiste
