import Mathlib.Data.String.Basic
import Mathlib.Tactic

/-! Expressions as the lengths of their matches at the beginning of a text, in the order in which
they are tried, and the replacement of all matches. -/
namespace Batiste

abbrev Matcher := List Char → List ℕ

namespace Matcher

def lit (w : List Char) : Matcher := fun cs => if w.isPrefixOf cs then [w.length] else []

/-- A word in any letter case. -/
def litI (w : List Char) : Matcher := fun cs =>
  if (w.map Char.toLower).isPrefixOf (cs.map Char.toLower) then [w.length] else []

def cls (p : Char → Bool) : Matcher := fun cs => if cs.head?.any p then [1] else []

def seq (a b : Matcher) : Matcher := fun cs => (a cs).flatMap fun n => (b (cs.drop n)).map (n + ·)

def alt (a b : Matcher) : Matcher := fun cs => a cs ++ b cs

def opt (a : Matcher) : Matcher := fun cs => a cs ++ [0]

/-- A condition on what follows. -/
def ahead (q : List Char → Bool) : Matcher := fun cs => if q cs then [0] else []

/-- The longest run first. -/
def star (p : Char → Bool) : Matcher := fun cs => (List.range ((cs.takeWhile p).length + 1)).reverse

def plus (p : Char → Bool) : Matcher := seq (cls p) (star p)

/-- The shortest run first. -/
def lazyAny : Matcher := fun cs => List.range (cs.length + 1)

/-- How far characters go on before what a condition describes. -/
def upTo (stop : List Char → Bool) : List Char → ℕ
  | [] => 0
  | c :: cs => if stop (c :: cs) then 0 else upTo stop cs + 1

def starBefore (stop : List Char → Bool) : Matcher := fun cs =>
  (List.range (upTo stop cs + 1)).reverse

/-- A group one or several times, as often as possible first. -/
def some_ (m : Matcher) : Matcher := fun cs => go m cs.length cs
where
  go (m : Matcher) : ℕ → List Char → List ℕ
    | 0, cs => m cs
    | k + 1, cs => (m cs).flatMap fun n => (go m k (cs.drop n)).map (n + ·) ++ [n]

def all : List Matcher → Matcher
  | [] => fun _ => [0]
  | m :: ms => seq m (all ms)

/-- Matches from the left that do not overlap; the first `skip` characters are in one already. -/
def replaceFrom (m : Matcher) (f : List Char → List Char) : ℕ → List Char → List Char
  | _, [] => []
  | skip + 1, _ :: cs => replaceFrom m f skip cs
  | 0, c :: cs =>
    match (m (c :: cs)).head? with
    | some (n + 1) => f ((c :: cs).take (n + 1)) ++ replaceFrom m f n cs
    | _ => c :: replaceFrom m f 0 cs

def replace (m : Matcher) (f : List Char → List Char) (cs : List Char) : List Char :=
  replaceFrom m f 0 cs

/-- The matches themselves. -/
def findFrom (m : Matcher) : ℕ → List Char → List (List Char)
  | _, [] => []
  | skip + 1, _ :: cs => findFrom m skip cs
  | 0, c :: cs =>
    match (m (c :: cs)).head? with
    | some (n + 1) => (c :: cs).take (n + 1) :: findFrom m n cs
    | _ => findFrom m 0 cs

def findAll (m : Matcher) (cs : List Char) : List (List Char) := findFrom m 0 cs

/-- For each character, whether it lies in a match. -/
def coverFrom (m : Matcher) : ℕ → List Char → List Bool
  | _, [] => []
  | skip + 1, _ :: cs => true :: coverFrom m skip cs
  | 0, c :: cs =>
    match (m (c :: cs)).head? with
    | some (n + 1) => true :: coverFrom m n cs
    | _ => false :: coverFrom m 0 cs

def cover (m : Matcher) (cs : List Char) : List Bool := coverFrom m 0 cs

/-- A function for the characters that are marked. -/
def maskWith (g : Char → Char) (cs : List Char) (marks : List Bool) : List Char :=
  List.zipWith (fun c b => if b then g c else c) cs marks

variable {m : Matcher} {g : Char → Char}

theorem length_coverFrom (skip : ℕ) (cs : List Char) :
    (coverFrom m skip cs).length = cs.length := by
  induction cs generalizing skip with
  | nil => simp [coverFrom]
  | cons c cs ih =>
    cases skip with
    | succ skip => rw [coverFrom, List.length_cons, ih, List.length_cons]
    | zero =>
      rw [coverFrom]
      split
      · rw [List.length_cons, ih, List.length_cons]
      · rw [List.length_cons, ih, List.length_cons]

@[simp] theorem length_cover (cs : List Char) : (cover m cs).length = cs.length :=
  length_coverFrom 0 cs

theorem replaceFrom_map (skip : ℕ) (cs : List Char) :
    (cs.take skip).map g ++ replaceFrom m (List.map g) skip cs =
      maskWith g cs (coverFrom m skip cs) := by
  induction cs generalizing skip with
  | nil => simp [replaceFrom, coverFrom, maskWith]
  | cons c cs ih =>
    have hnext : ∀ k b, maskWith g (c :: cs) (b :: coverFrom m k cs) =
        (if b then g c else c) :: maskWith g cs (coverFrom m k cs) := fun _ _ => rfl
    cases skip with
    | succ skip =>
      rw [coverFrom, hnext, if_pos rfl, ← ih, replaceFrom, List.take_succ_cons, List.map_cons,
        List.cons_append]
    | zero =>
      rw [coverFrom, replaceFrom, List.take_zero, List.map_nil, List.nil_append]
      split
      · rename_i n hn
        rw [hnext, if_pos rfl, ← ih, List.take_succ_cons, List.map_cons, List.cons_append]
      · rw [hnext, if_neg Bool.false_ne_true, ← ih, List.take_zero, List.map_nil, List.nil_append]

/-- A replacement that goes character by character changes those that lie in a match. -/
theorem replace_map (cs : List Char) :
    replace m (List.map g) cs = maskWith g cs (cover m cs) := by
  rw [cover, ← replaceFrom_map, List.take_zero, List.map_nil, List.nil_append, replace]

end Matcher
end Batiste
