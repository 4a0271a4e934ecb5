import Batiste.NodePath
import Batiste.SimilarClusters
import Batiste.Slicer
import Mathlib

/-! The gate in front of a print: whether the facets of a mesh hold together in as many solid pieces
as expected, stand on one foot and fit the bed. Numbers are exact rationals. -/
namespace Batiste
namespace Shells

open Layers Relation SimilarClusters UnionFind

/-! ## The gate -/

/-- `Math.round(x * 1000)`, so that places are told apart to a thousandth of a millimetre. -/
def mil (x : ℚ) : ℤ := ⌊x * 1000 + 1 / 2⌋

def chave (v : Point) : String :=
  (mil v.x).repr ++ "," ++ (mil v.y).repr ++ "," ++ (mil v.z).repr

/-- The loop is the one of `find` over tasks: it goes up and halves the path. -/
def raiz (pai : Dict String) (a : String) : String × Dict String := TaskActions.find pai a

/-- `if (!pai.has(k)) pai.set(k, k)` -/
def ensure (pai : Dict String) (k : String) : Dict String :=
  if (pai.get? k).isSome then pai else pai.set k k

/-- `pai.set(raiz(k), raiz(first))` -/
def link (pai : Dict String) (k first : String) : Dict String :=
  let r := raiz pai k
  let r' := raiz r.2 first
  r'.2.set r.1 r'.1

def addFacet (pai : Dict String) (t : Triangle) : Dict String :=
  let pai := (t.points.map chave).foldl ensure pai
  link (link pai (chave t.b) (chave t.a)) (chave t.c) (chave t.a)

def pais (tris : List Triangle) : Dict String := tris.foldl addFacet []

def addToGroup (acc : Dict String × Dict (List Triangle)) (t : Triangle) :
    Dict String × Dict (List Triangle) :=
  let r := raiz acc.1 (chave t.a)
  (r.2, acc.2.set r.1 ((acc.2.get? r.1).getD [] ++ [t]))

def grupos (tris : List Triangle) : Dict (List Triangle) :=
  (tris.foldl addToGroup (pais tris, [])).2

/-- Six times the volume is the triple product of the corners. -/
def facetVolume (t : Triangle) : ℚ :=
  (t.a.x * (t.b.y * t.c.z - t.b.z * t.c.y) - t.a.y * (t.b.x * t.c.z - t.b.z * t.c.x) +
    t.a.z * (t.b.x * t.c.y - t.b.y * t.c.x)) / 6

def volSinal (ts : List Triangle) : ℚ := ts.foldl (fun s t => s + facetVolume t) 0

/-- All shells, those of the most facets first. -/
def todas (tris : List Triangle) : List (List Triangle) :=
  ((grupos tris).map Prod.snd).insertionSort fun a b => b.length ≤ a.length

def pedacos (tris : List Triangle) : List (List Triangle) :=
  (todas tris).filter fun ts => 0 < volSinal ts

def vertices (tris : List Triangle) : List Point := tris.flatMap Triangle.points

/-- What `acc` gathers. -/
def extremes (tris : List Triangle) : Bounds :=
  (vertices tris).foldl Bounds.extend
    ⟨1000000000, 1000000000, 1000000000, -1000000000, -1000000000, -1000000000⟩

def cz (t : Triangle) : ℚ := (t.a.z + t.b.z + t.c.z) / 3

def band : ℚ := 1 / 2

/-- There are facets at the bottom and facets above, but none in between. -/
def danglesBelow (tris : List Triangle) : Bool :=
  let minZ := (extremes tris).minZ
  tris.any (fun t => cz t ≤ minZ + band) &&
    !tris.any (fun t => minZ + band < cz t && cz t ≤ minZ + 3 * band) &&
    tris.any fun t => minZ + 3 * band < cz t

def fitsBed (bed : Point) (tris : List Triangle) : Bool :=
  let e := extremes tris
  e.maxX - e.minX ≤ bed.x && e.maxY - e.minY ≤ bed.y && e.maxZ - e.minZ ≤ bed.z

structure Report where
  pedacos : List (List Triangle)
  cavidades : ℕ
  ilhas : List (List Triangle)
  danglesBelow : Bool
  fitsBed : Bool
  fail : Bool

/-- No facets are an error of their own. The counts that only lead to a warning are left out. -/
def preflight (tris : List Triangle) (bed : Point) (partsEsperadas : ℕ) : Option Report :=
  if tris = [] then none
  else
    let found := pedacos tris
    let wrong := decide (found.length ≠ partsEsperadas)
    some
      { pedacos := found
        cavidades := (todas tris).length - found.length
        ilhas := if wrong then found.drop partsEsperadas else []
        danglesBelow := danglesBelow tris
        fitsBed := fitsBed bed tris
        fail := wrong || danglesBelow tris || !fitsBed bed tris }

/-! ## Parts of a mesh -/

/-- The places are the same to the thousandth. -/
def Meet (p q : Point) : Prop := mil p.x = mil q.x ∧ mil p.y = mil q.y ∧ mil p.z = mil q.z

def Touch (t u : Triangle) : Prop := ∃ p ∈ t.points, ∃ q ∈ u.points, Meet p q

/-- A chain of facets leads from one to the other, each with a corner of the next. -/
def Joined (tris : List Triangle) : Triangle → Triangle → Prop :=
  EqvGen fun t u => t ∈ tris ∧ u ∈ tris ∧ Touch t u

def part (tris : List Triangle) (t : Triangle) : Set Triangle := {u | u ∈ tris ∧ Joined tris t u}

/-- The connected parts of the mesh. -/
def parts (tris : List Triangle) : Set (Set Triangle) := {c | ∃ t ∈ tris, c = part tris t}

open Classical in
noncomputable def volumeOf (tris : List Triangle) (c : Set Triangle) : ℚ :=
  volSinal (tris.filter fun t => t ∈ c)

/-- The parts whose facets look outwards. -/
def solids (tris : List Triangle) : Set (Set Triangle) := {c | c ∈ parts tris ∧ 0 < volumeOf tris c}

/-- The other parts, such as the walls of a hollow. -/
def hollows (tris : List Triangle) : Set (Set Triangle) :=
  {c | c ∈ parts tris ∧ volumeOf tris c ≤ 0}

def facets (ts : List Triangle) : Set Triangle := {t | t ∈ ts}

/-- Every solid part is there once, with all its facets, and the largest come first. -/
structure Pieces (tris : List Triangle) (pieces : List (List Triangle)) : Prop where
  exact : ∀ c, c ∈ pieces.map facets ↔ c ∈ solids tris
  once : (pieces.map facets).Nodup
  whole : ∀ ts ∈ pieces, ts = tris.filter fun t => t ∈ ts
  largest : pieces.Pairwise fun ts us => us.length ≤ ts.length

/-- No two corners are farther apart than the bed is wide. -/
def Fits (bed : Point) (tris : List Triangle) : Prop :=
  ∀ p ∈ vertices tris, ∀ q ∈ vertices tris,
    p.x - q.x ≤ bed.x ∧ p.y - q.y ≤ bed.y ∧ p.z - q.z ≤ bed.z

/-- Some facets lie within half a millimetre of the foot, and all others more than a millimetre and
a half above it. -/
def Dangles (tris : List Triangle) : Prop :=
  ∃ foot, IsLeast {z | ∃ p ∈ vertices tris, p.z = z} foot ∧
    (∃ t ∈ tris, cz t ≤ foot + 1 / 2) ∧
    (∃ t ∈ tris, foot + 3 / 2 < cz t) ∧
    ∀ t ∈ tris, ¬ (foot + 1 / 2 < cz t ∧ cz t ≤ foot + 3 / 2)

/-- No corner is farther out than the numbers that the extremes start from. -/
def InRange (tris : List Triangle) : Prop :=
  ∀ p ∈ vertices tris, |p.x| ≤ 1000000000 ∧ |p.y| ≤ 1000000000 ∧ |p.z| ≤ 1000000000

/-! ## Keys of places -/

theorem comma_notMem_repr (n : ℤ) : ',' ∉ n.repr.toList := by
  have hdigits : ∀ m : ℕ, ',' ∉ m.repr.toList := by
    intro m hm
    rw [Nat.toList_repr] at hm
    exact absurd (Nat.isDigit_of_mem_toDigits (by decide) (by decide) hm) (by decide)
  cases n with
  | ofNat m => exact hdigits m
  | negSucc m =>
    intro hm
    rw [Int.repr, String.toList_append, List.mem_append] at hm
    exact hm.elim (by decide) (hdigits _)

theorem chave_eq_iff {p q : Point} : chave p = chave q ↔ Meet p q := by
  have hlist : ∀ v : Point, (chave v).toList =
      ((mil v.x).repr.toList ++ ',' :: (mil v.y).repr.toList) ++ ',' :: (mil v.z).repr.toList := by
    intro v
    simp [chave]
  constructor
  · intro hkeys
    rw [← String.toList_inj, hlist, hlist] at hkeys
    obtain ⟨hxy, hz⟩ :=
      NodePath.last_separator_inj (comma_notMem_repr _) (comma_notMem_repr _) hkeys
    obtain ⟨hx, hy⟩ := NodePath.last_separator_inj (comma_notMem_repr _) (comma_notMem_repr _) hxy
    rw [String.toList_inj, Int.repr_inj] at hx hy hz
    exact ⟨hx, hy, hz⟩
  · rintro ⟨hx, hy, hz⟩
    rw [chave, hx, hy, hz, chave]

/-! ## Roots of the corners -/

/-- The keys that a facet links. -/
def links (t : Triangle) : List (String × String) :=
  [(chave t.b, chave t.a), (chave t.c, chave t.a)]

section Roots

variable {pai : Dict String} {root : String → String}

theorem raiz_root (h : Represents (parentOf pai) root) (a : String) :
    (raiz pai a).1 = root a ∧ Represents (parentOf (raiz pai a).2) root := find_root h a

theorem parentOf_ensure (pai : Dict String) (k : String) :
    parentOf (ensure pai k) = parentOf pai := by
  rw [ensure]
  split
  · rfl
  · rename_i hnone
    rw [Option.not_isSome_iff_eq_none] at hnone
    have hself : parentOf pai k = k := by rw [parentOf, hnone, Option.getD_none]
    rw [parentOf_set, Function.update_eq_self_iff, hself]

theorem link_joins (h : Represents (parentOf pai) root) (k first : String) :
    Represents (parentOf (link pai k first)) (UnionFind.join root k first) := by
  obtain ⟨hk, hpai⟩ := raiz_root h k
  obtain ⟨hfirst, hpai⟩ := raiz_root hpai first
  rw [link, parentOf_set, hk, hfirst]
  exact hpai.link k first

theorem addFacet_joins (h : Represents (parentOf pai) root) (t : Triangle) :
    Represents (parentOf (addFacet pai t)) (joinAll root (links t)) := by
  have hensure : ∀ ks : List String, parentOf (ks.foldl ensure pai) = parentOf pai := by
    intro ks
    induction ks using List.reverseRecOn with
    | nil => rfl
    | append_singleton ks k ih => rw [List.foldl_append, List.foldl_cons, List.foldl_nil,
        parentOf_ensure, ih]
  exact link_joins (link_joins (by rwa [hensure]) _ _) _ _

theorem foldl_addFacet (h : Represents (parentOf pai) root) (tris : List Triangle) :
    Represents (parentOf (tris.foldl addFacet pai)) (joinAll root (tris.flatMap links)) := by
  induction tris generalizing pai root with
  | nil => exact h
  | cons t tris ih =>
    rw [List.foldl_cons, List.flatMap_cons, joinAll, List.foldl_append]
    exact ih (addFacet_joins h t)

end Roots

/-- The root of a key when all facets are in. -/
def rootOf (tris : List Triangle) : String → String := joinAll id (tris.flatMap links)

theorem pais_represents (tris : List Triangle) :
    Represents (parentOf (pais tris)) (rootOf tris) :=
  foldl_addFacet (show Represents (parentOf []) id from represents_id) tris

theorem chave_mem {t : Triangle} {p : Point} (hp : p ∈ t.points) :
    p = t.a ∨ (chave p, chave t.a) ∈ links t := by
  rw [Triangle.points] at hp
  simp only [List.mem_cons, List.not_mem_nil, or_false] at hp
  rcases hp with rfl | rfl | rfl
  · exact Or.inl rfl
  · exact Or.inr (by simp [links])
  · exact Or.inr (by simp [links])

/-- All corners of a facet have one root. -/
theorem rootOf_corner {tris : List Triangle} {t : Triangle} (ht : t ∈ tris) {p : Point}
    (hp : p ∈ t.points) : rootOf tris (chave p) = rootOf tris (chave t.a) := by
  rcases chave_mem hp with rfl | hlink
  · rfl
  · exact (joinAll_eq_iff id _ _ _).mpr
      (.rel _ _ (Or.inr (List.mem_flatMap.mpr ⟨t, ht, hlink⟩)))

theorem Touch.joined {tris : List Triangle} {t u : Triangle} (ht : t ∈ tris) (hu : u ∈ tris)
    (h : Touch t u) : Joined tris t u := .rel _ _ ⟨ht, hu, h⟩

/-- Keys of one root belong to joined facets, unless they are the same key. -/
theorem joined_of_rootOf {tris : List Triangle} {x y : String} (h : rootOf tris x = rootOf tris y) :
    x = y ∨ ∃ t ∈ tris, ∃ u ∈ tris, x ∈ t.points.map chave ∧ y ∈ u.points.map chave ∧
      Joined tris t u := by
  rw [rootOf, joinAll_eq_iff] at h
  induction h with
  | rel x y hxy =>
    rcases hxy with hxy | hlink
    · exact Or.inl hxy
    · obtain ⟨t, ht, hlink⟩ := List.mem_flatMap.mp hlink
      rw [links, List.mem_pair, Prod.mk.injEq, Prod.mk.injEq] at hlink
      refine Or.inr ⟨t, ht, t, ht, ?_, ?_, .refl t⟩
      · rcases hlink with ⟨rfl, -⟩ | ⟨rfl, -⟩ <;> simp [Triangle.points]
      · rcases hlink with ⟨-, rfl⟩ | ⟨-, rfl⟩ <;> simp [Triangle.points]
  | refl x => exact Or.inl rfl
  | symm x y _ ih =>
    rcases ih with rfl | ⟨t, ht, u, hu, hx, hy, hjoined⟩
    · exact Or.inl rfl
    · exact Or.inr ⟨u, hu, t, ht, hy, hx, hjoined.symm _ _⟩
  | trans x y z _ _ ihxy ihyz =>
    rcases ihxy with rfl | ⟨t, ht, u, hu, hx, hy, hjoined⟩
    · exact ihyz
    rcases ihyz with rfl | ⟨t', ht', u', hu', hy', hz, hjoined'⟩
    · exact Or.inr ⟨t, ht, u, hu, hx, hy, hjoined⟩
    -- the two facets in the middle share the corner of the key
    obtain ⟨p, hp, rfl⟩ := List.mem_map.mp hy
    obtain ⟨q, hq, hpq⟩ := List.mem_map.mp hy'
    have htouch : Touch u t' := ⟨p, hp, q, hq, chave_eq_iff.mp hpq.symm⟩
    exact Or.inr ⟨t, ht, u', hu', hx, hz,
      hjoined.trans _ _ _ ((htouch.joined hu ht').trans _ _ _ hjoined')⟩

/-- Two facets have one root just when a chain of facets leads from one to the other. -/
theorem rootOf_eq_iff {tris : List Triangle} {t u : Triangle} (ht : t ∈ tris) (hu : u ∈ tris) :
    rootOf tris (chave t.a) = rootOf tris (chave u.a) ↔ Joined tris t u := by
  have htouch : ∀ {t u : Triangle} {p q : Point}, t ∈ tris → u ∈ tris → p ∈ t.points →
      q ∈ u.points → chave p = chave q → Joined tris t u := fun ht hu hp hq hpq =>
    Touch.joined ht hu ⟨_, hp, _, hq, chave_eq_iff.mp hpq⟩
  constructor
  · intro hroot
    have hta : t.a ∈ t.points := List.mem_cons_self
    have hua : u.a ∈ u.points := List.mem_cons_self
    rcases joined_of_rootOf hroot with hsame | ⟨t', ht', u', hu', hx, hy, hjoined⟩
    · exact htouch ht hu hta hua hsame
    · obtain ⟨p, hp, hpt⟩ := List.mem_map.mp hx
      obtain ⟨q, hq, hqu⟩ := List.mem_map.mp hy
      exact (htouch ht ht' hta hp hpt.symm).trans _ _ _
        (hjoined.trans _ _ _ (htouch hu' hu hq hua hqu))
  · intro hjoined
    refine (eq_equivalence.comap fun t : Triangle => rootOf tris (chave t.a)).eqvGen_iff.mp
      (hjoined.mono fun t u htu => ?_)
    obtain ⟨ht, hu, p, hp, q, hq, hmeet⟩ := htu
    have hpq : chave p = chave q := chave_eq_iff.mpr hmeet
    show rootOf tris (chave t.a) = rootOf tris (chave u.a)
    rw [← rootOf_corner ht hp, hpq, rootOf_corner hu hq]

/-! ## Shells -/

/-- The facets are put together by their root. -/
theorem grupos_eq (tris : List Triangle) :
    grupos tris = Grouping.groupBy (fun t => rootOf tris (chave t.a)) tris := by
  have hrun : ∀ ts : List Triangle,
      Represents (parentOf (ts.foldl addToGroup (pais tris, [])).1) (rootOf tris) ∧
        (ts.foldl addToGroup (pais tris, [])).2 =
          Grouping.groupBy (fun t => rootOf tris (chave t.a)) ts := by
    intro ts
    induction ts using List.reverseRecOn with
    | nil => exact ⟨pais_represents tris, rfl⟩
    | append_singleton ts t ih =>
      obtain ⟨hpai, hgroups⟩ := ih
      rw [List.foldl_append, List.foldl_cons, List.foldl_nil, Grouping.groupBy_snoc, ← hgroups]
      obtain ⟨hroot, hhalved⟩ := raiz_root hpai (chave t.a)
      rw [addToGroup, hroot]
      refine ⟨hhalved, set_eq_pushTo ?_ _ t⟩
      rw [hgroups]
      exact (Grouping.grouped _ _).keys
  exact (hrun tris).2

theorem mem_grupos {tris : List Triangle} {g : String × List Triangle} (hg : g ∈ grupos tris) :
    ∃ t ∈ tris, facets g.2 = part tris t ∧ rootOf tris (chave t.a) = g.1 := by
  have hgrouped := Grouping.grouped (fun t => rootOf tris (chave t.a)) tris
  rw [grupos_eq] at hg
  obtain ⟨t, ht⟩ := List.exists_mem_of_ne_nil _ (hgrouped.items g hg).2
  obtain ⟨htris, hkey⟩ := (hgrouped.mem_iff hg).mp ht
  refine ⟨t, htris, ?_, hkey⟩
  ext u
  show u ∈ g.2 ↔ u ∈ tris ∧ Joined tris t u
  rw [hgrouped.mem_iff hg, ← hkey]
  refine and_congr_right fun hu => ?_
  rw [eq_comm, rootOf_eq_iff htris hu]

theorem todas_perm (tris : List Triangle) : (todas tris).Perm ((grupos tris).map Prod.snd) :=
  List.perm_insertionSort _ _

/-- The shells are the connected parts. -/
theorem mem_todas (tris : List Triangle) (c : Set Triangle) :
    c ∈ (todas tris).map facets ↔ c ∈ parts tris := by
  rw [((todas_perm tris).map facets).mem_iff, List.map_map, List.mem_map]
  constructor
  · rintro ⟨g, hg, rfl⟩
    obtain ⟨t, ht, hpart, -⟩ := mem_grupos hg
    exact ⟨t, ht, hpart⟩
  · rintro ⟨t, ht, rfl⟩
    have hgrouped := Grouping.grouped (fun t => rootOf tris (chave t.a)) tris
    obtain ⟨g, hg, hkey⟩ := List.mem_map.mp (hgrouped.covers t ht)
    rw [← grupos_eq] at hg
    refine ⟨g, hg, ?_⟩
    obtain ⟨u, hu, hpart, hroot⟩ := mem_grupos hg
    have hjoined : Joined tris u t := (rootOf_eq_iff hu ht).mp (hroot.trans hkey)
    show facets g.2 = part tris t
    rw [hpart]
    ext v
    exact and_congr_right fun _ => ⟨fun h => (hjoined.symm _ _).trans _ _ _ h,
      fun h => hjoined.trans _ _ _ h⟩

/-- No part is listed twice. -/
theorem todas_nodup (tris : List Triangle) : ((todas tris).map facets).Nodup := by
  rw [((todas_perm tris).map facets).nodup_iff, List.map_map, grupos_eq]
  have hgrouped := Grouping.grouped (fun t => rootOf tris (chave t.a)) tris
  refine (List.Nodup.of_map Prod.fst hgrouped.keys).map_on fun g hg g' hg' hsame => ?_
  obtain ⟨t, ht⟩ := List.exists_mem_of_ne_nil _ (hgrouped.items g hg).2
  have hfacets : facets g.2 = facets g'.2 := hsame
  have ht' : t ∈ facets g'.2 := hfacets ▸ (show t ∈ facets g.2 from ht)
  exact hgrouped.unique hg hg' ht ht' rfl

theorem todas_whole {tris ts : List Triangle} (hts : ts ∈ todas tris) :
    ts = tris.filter fun t => t ∈ ts := by
  rw [(todas_perm tris).mem_iff, List.mem_map, grupos_eq] at hts
  obtain ⟨g, hg, rfl⟩ := hts
  have hgrouped := Grouping.grouped (fun t => rootOf tris (chave t.a)) tris
  conv_lhs => rw [(hgrouped.items g hg).1]
  refine List.filter_congr fun t ht => ?_
  rw [Bool.eq_iff_iff, decide_eq_true_eq, decide_eq_true_eq, hgrouped.mem_iff hg]
  exact ⟨fun hkey => ⟨ht, hkey⟩, And.right⟩

theorem volumeOf_facets {tris ts : List Triangle} (hts : ts ∈ todas tris) :
    volumeOf tris (facets ts) = volSinal ts := by
  rw [volumeOf]
  congr 1
  conv_rhs => rw [todas_whole hts]
  exact List.filter_congr fun t _ => decide_eq_decide.mpr Iff.rfl

theorem todas_sorted (tris : List Triangle) :
    (todas tris).Pairwise fun ts us => us.length ≤ ts.length := by
  have htotal : Std.Total fun a b : List Triangle => b.length ≤ a.length :=
    ⟨fun a b => le_total b.length a.length⟩
  have htrans : IsTrans (List Triangle) fun a b => b.length ≤ a.length :=
    ⟨fun a b c hab hbc => hbc.trans hab⟩
  exact List.pairwise_insertionSort _ _

theorem mem_todas_filter (tris : List Triangle) (p : ℚ → Bool) (c : Set Triangle) :
    c ∈ ((todas tris).filter fun ts => p (volSinal ts)).map facets ↔
      c ∈ parts tris ∧ p (volumeOf tris c) = true := by
  rw [← mem_todas]
  simp only [List.mem_map, List.mem_filter]
  constructor
  · rintro ⟨ts, ⟨hts, hp⟩, rfl⟩
    exact ⟨⟨ts, hts, rfl⟩, by rwa [volumeOf_facets hts]⟩
  · rintro ⟨⟨ts, hts, rfl⟩, hp⟩
    rw [volumeOf_facets hts] at hp
    exact ⟨ts, ⟨hts, hp⟩, rfl⟩

theorem pedacos_pieces (tris : List Triangle) : Pieces tris (pedacos tris) where
  exact c := by
    rw [pedacos, mem_todas_filter tris fun v => decide (0 < v)]
    simp [solids]
  once := (todas_nodup tris).sublist (List.filter_sublist.map facets)
  whole ts hts := todas_whole (List.mem_of_mem_filter hts)
  largest := (todas_sorted tris).filter _

/-- A list that names every element of a set once counts it. -/
theorem ncard_eq_length {α : Type*} {s : Set α} {xs : List α} (hxs : xs.Nodup)
    (h : ∀ x, x ∈ xs ↔ x ∈ s) : s.ncard = xs.length := by
  classical
  have hs : s = xs.toFinset := by
    ext x
    rw [Finset.mem_coe, List.mem_toFinset, h]
  rw [hs, Set.ncard_coe_finset, List.toFinset_card_of_nodup hxs]

theorem solids_ncard (tris : List Triangle) : (solids tris).ncard = (pedacos tris).length := by
  have hpieces := pedacos_pieces tris
  rw [ncard_eq_length hpieces.once hpieces.exact, List.length_map]

theorem hollows_ncard (tris : List Triangle) :
    (hollows tris).ncard = (todas tris).length - (pedacos tris).length := by
  let rest := (todas tris).filter fun ts => !decide (0 < volSinal ts)
  have hnodup : (rest.map facets).Nodup :=
    (todas_nodup tris).sublist (List.filter_sublist.map facets)
  have hrest : ∀ c, c ∈ rest.map facets ↔ c ∈ hollows tris := by
    intro c
    rw [mem_todas_filter tris fun v => !decide (0 < v)]
    simp [hollows]
  have hsplit := List.length_eq_length_filter_add (fun ts => decide (0 < volSinal ts))
    (l := todas tris)
  rw [ncard_eq_length hnodup hrest, List.length_map, pedacos]
  exact (Nat.sub_eq_of_eq_add' hsplit).symm

/-! ## The extent of a mesh -/

theorem foldl_extend (vs : List Point) (b : Bounds) :
    vs.foldl Bounds.extend b =
      ⟨vs.foldl (fun m v => min m v.x) b.minX, vs.foldl (fun m v => min m v.y) b.minY,
        vs.foldl (fun m v => min m v.z) b.minZ, vs.foldl (fun m v => max m v.x) b.maxX,
        vs.foldl (fun m v => max m v.y) b.maxY, vs.foldl (fun m v => max m v.z) b.maxZ⟩ := by
  induction vs generalizing b with
  | nil => rfl
  | cons v vs ih => exact ih (b.extend v)

section Extremes

variable {α : Type*} {vs : List α} {f : α → ℚ} {b : ℚ}

theorem le_foldl_min {m : ℚ} : m ≤ vs.foldl (fun m v => min m (f v)) b ↔
    m ≤ b ∧ ∀ v ∈ vs, m ≤ f v := by
  induction vs generalizing b with
  | nil => simp
  | cons v vs ih => rw [List.foldl_cons, ih, le_min_iff, List.forall_mem_cons, and_assoc]

theorem foldl_min_mem (vs : List α) (f : α → ℚ) (b : ℚ) :
    vs.foldl (fun m v => min m (f v)) b = b ∨
      ∃ v ∈ vs, f v = vs.foldl (fun m v => min m (f v)) b := by
  induction vs generalizing b with
  | nil => exact Or.inl rfl
  | cons v vs ih =>
    rw [List.foldl_cons]
    rcases ih (min b (f v)) with hfirst | ⟨w, hw, hmin⟩
    · rw [hfirst]
      rcases min_choice b (f v) with hb | hv
      · exact Or.inl hb
      · exact Or.inr ⟨v, List.mem_cons_self, hv.symm⟩
    · exact Or.inr ⟨w, List.mem_cons_of_mem v hw, hmin⟩

/-- From a value that none exceeds, the fold finds the least one. -/
theorem isLeast_foldl_min (hvs : vs ≠ []) (hb : ∀ v ∈ vs, f v ≤ b) :
    IsLeast {y | ∃ v ∈ vs, f v = y} (vs.foldl (fun m v => min m (f v)) b) := by
  have hleast : vs.foldl (fun m v => min m (f v)) b ≤ vs.foldl (fun m v => min m (f v)) b := le_rfl
  have hlower := le_foldl_min.mp hleast
  refine ⟨?_, fun y ⟨v, hv, hy⟩ => hy ▸ hlower.2 v hv⟩
  rcases foldl_min_mem vs f b with hfirst | hmem
  · obtain ⟨v, hv⟩ := List.exists_mem_of_ne_nil vs hvs
    exact ⟨v, hv, le_antisymm ((hb v hv).trans_eq hfirst.symm) (hlower.2 v hv)⟩
  · exact hmem

theorem foldl_max_eq (vs : List α) (f : α → ℚ) (b : ℚ) :
    vs.foldl (fun m v => max m (f v)) b = -vs.foldl (fun m v => min m (-f v)) (-b) := by
  induction vs generalizing b with
  | nil => exact (neg_neg b).symm
  | cons v vs ih => rw [List.foldl_cons, ih, List.foldl_cons, min_neg_neg]

/-- The spread of the values is within a width just when no two of them are farther apart. -/
theorem spread_le_iff (hvs : vs ≠ []) (hb : ∀ v ∈ vs, |f v| ≤ b) (width : ℚ) :
    vs.foldl (fun m v => max m (f v)) (-b) - vs.foldl (fun m v => min m (f v)) b ≤ width ↔
      ∀ p ∈ vs, ∀ q ∈ vs, f p - f q ≤ width := by
  obtain ⟨⟨q, hq, hmin⟩, hlower⟩ := isLeast_foldl_min hvs fun v hv => (abs_le.mp (hb v hv)).2
  obtain ⟨⟨p, hp, hmax⟩, hupper⟩ := isLeast_foldl_min (f := fun v => -f v) (b := b) hvs
    fun v hv => neg_le.mp (abs_le.mp (hb v hv)).1
  rw [foldl_max_eq, neg_neg, ← hmin, ← hmax, neg_neg]
  constructor
  · intro hwidth p' hp' q' hq'
    have hlow : f q ≤ f q' := hmin ▸ hlower ⟨q', hq', rfl⟩
    have hhigh : f p' ≤ f p := neg_le_neg_iff.mp (hmax ▸ hupper ⟨p', hp', rfl⟩)
    linarith
  · exact fun hall => hall p hp q hq

end Extremes

section Verdict

variable {tris : List Triangle} (hne : tris ≠ []) (hrange : InRange tris)
include hne

theorem vertices_ne_nil : vertices tris ≠ [] := by
  obtain ⟨t, ht⟩ := List.exists_mem_of_ne_nil tris hne
  exact List.ne_nil_of_mem (List.mem_flatMap.mpr ⟨t, ht, List.mem_cons_self⟩)

include hrange

theorem fitsBed_iff (bed : Point) : fitsBed bed tris = true ↔ Fits bed tris := by
  have hvs := vertices_ne_nil hne
  simp only [fitsBed, extremes, foldl_extend, Bool.and_eq_true, decide_eq_true_eq]
  rw [spread_le_iff hvs fun p hp => (hrange p hp).1,
    spread_le_iff hvs fun p hp => (hrange p hp).2.1,
    spread_le_iff hvs fun p hp => (hrange p hp).2.2]
  constructor
  · exact fun ⟨⟨hx, hy⟩, hz⟩ p hp q hq => ⟨hx p hp q hq, hy p hp q hq, hz p hp q hq⟩
  · exact fun h => ⟨⟨fun p hp q hq => (h p hp q hq).1, fun p hp q hq => (h p hp q hq).2.1⟩,
      fun p hp q hq => (h p hp q hq).2.2⟩

theorem foot_isLeast : IsLeast {z | ∃ p ∈ vertices tris, p.z = z} (extremes tris).minZ := by
  rw [extremes, foldl_extend]
  exact isLeast_foldl_min (vertices_ne_nil hne) fun p hp => (abs_le.mp (hrange p hp).2.2).2

theorem danglesBelow_iff : danglesBelow tris = true ↔ Dangles tris := by
  have hfoot := foot_isLeast hne hrange
  have hband : ∀ m : ℚ, m + band = m + 1 / 2 ∧ m + 3 * band = m + 3 / 2 := by
    intro m
    constructor
    · rfl
    · rw [band]
      ring
  have hbelow : danglesBelow tris = true ↔ (∃ t ∈ tris, cz t ≤ (extremes tris).minZ + 1 / 2) ∧
      (∃ t ∈ tris, (extremes tris).minZ + 3 / 2 < cz t) ∧
      ∀ t ∈ tris,
        ¬ ((extremes tris).minZ + 1 / 2 < cz t ∧ cz t ≤ (extremes tris).minZ + 3 / 2) := by
    rw [danglesBelow]
    simp only [(hband _).1, (hband _).2, Bool.and_eq_true, Bool.not_eq_true', List.any_eq_true,
      List.any_eq_false, decide_eq_true_eq]
    tauto
  rw [hbelow]
  constructor
  · exact fun h => ⟨_, hfoot, h⟩
  · rintro ⟨foot, hleast, h⟩
    rwa [hfoot.unique hleast]

end Verdict

/-! ## A tetrahedron -/

def corner (x y z : ℚ) : Point := ⟨x, y, z⟩

def tetrahedron (x : ℚ) : List Triangle :=
  [⟨corner x 0 0, corner x 1 0, corner (x + 1) 0 0⟩,
    ⟨corner x 0 0, corner (x + 1) 0 0, corner x 0 1⟩,
    ⟨corner x 0 0, corner x 0 1, corner x 1 0⟩,
    ⟨corner (x + 1) 0 0, corner x 1 0, corner x 0 1⟩]

/-- Two tetrahedra that touch nowhere. -/
def twoPieces : List Triangle := tetrahedron 0 ++ tetrahedron 5

def bedSize : Point := corner 256 256 256

theorem twoPieces_ne_nil : twoPieces ≠ [] := List.cons_ne_nil _ _

theorem twoPieces_inRange : InRange twoPieces := by
  unfold InRange
  decide +kernel

theorem twoPieces_pedacos : pedacos twoPieces = [tetrahedron 0, tetrahedron 5] := by
  decide +kernel

end Shells
end Batiste
