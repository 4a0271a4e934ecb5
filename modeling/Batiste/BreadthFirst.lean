import Mathlib.Combinatorics.SimpleGraph.Metric
import Mathlib.Tactic

/-! Breadth-first search, layer after layer.
The depth of a node is its distance from the nearest source.  Expanding the nodes of one layer in
order and leaving out what was seen gives the next layer, in the order of the nearer neighbours. -/
namespace Batiste
namespace BreadthFirst

/-! ## Depth -/

section Depth

variable {α : Type*} (G : SimpleGraph α) (sources : Set α)

noncomputable def depth (x : α) : ℕ∞ := ⨅ s : sources, G.edist s x

variable {G sources} {x y : α}

theorem depth_singleton (s x : α) : depth G {s} x = G.edist s x := by
  unfold depth
  rw [iInf_subtype]
  simp

theorem depth_le {s : α} (hs : s ∈ sources) : depth G sources x ≤ G.edist s x :=
  iInf_le (fun s : sources => G.edist s x) ⟨s, hs⟩

theorem exists_edist_eq {k : ℕ} (h : depth G sources x = k) : ∃ s ∈ sources, G.edist s x = k := by
  rcases isEmpty_or_nonempty sources with hempty | hsome
  · rw [depth, iInf_of_empty] at h
    exact absurd h (ENat.top_ne_natCast k)
  · obtain ⟨⟨s, hs⟩, hmin⟩ := ENat.exists_eq_iInf fun s : sources => G.edist s x
    exact ⟨s, hs, hmin.trans h⟩

theorem depth_eq_zero_iff : depth G sources x = 0 ↔ x ∈ sources := by
  constructor
  · intro h
    obtain ⟨s, hs, hzero⟩ := exists_edist_eq (k := 0) h
    rw [Nat.cast_zero, SimpleGraph.edist_eq_zero_iff] at hzero
    exact hzero ▸ hs
  · intro hx
    have hle := depth_le (G := G) (x := x) hx
    rw [SimpleGraph.edist_self] at hle
    exact nonpos_iff_eq_zero.mp hle

theorem depth_le_succ (h : G.Adj x y) : depth G sources y ≤ depth G sources x + 1 := by
  rcases eq_or_ne (depth G sources x) ⊤ with htop | htop
  · simp [htop]
  · obtain ⟨k, hk⟩ := ENat.ne_top_iff_exists.mp htop
    obtain ⟨s, hs, hdist⟩ := exists_edist_eq hk.symm
    calc depth G sources y ≤ G.edist s y := depth_le hs
      _ ≤ G.edist s x + G.edist x y := SimpleGraph.edist_triangle
      _ = depth G sources x + 1 := by
        rw [hdist, hk, SimpleGraph.edist_eq_one_iff_adj.mpr h]

/-- A node behind the first layer has a nearer neighbour. -/
theorem exists_nearer {k : ℕ} (h : depth G sources x = k + 1) :
    ∃ p, G.Adj p x ∧ depth G sources p = k := by
  obtain ⟨s, hs, hdist⟩ := exists_edist_eq (k := k + 1) (by exact_mod_cast h)
  obtain ⟨walk, hlength⟩ := SimpleGraph.exists_walk_of_edist_eq_coe
    (SimpleGraph.edist_comm.trans hdist)
  cases walk with
  | nil => simp at hlength
  | @cons _ p _ hadj rest =>
    have hrest : rest.length = k := by simpa using hlength
    have hle : depth G sources p ≤ k := by
      refine (depth_le hs).trans ?_
      rw [SimpleGraph.edist_comm, ← hrest]
      exact SimpleGraph.edist_le rest
    have hge : depth G sources x ≤ depth G sources p + 1 := depth_le_succ hadj.symm
    rw [h] at hge
    exact ⟨p, hadj.symm, le_antisymm hle ((ENat.add_le_add_iff_right ENat.one_ne_top).mp hge)⟩

end Depth

/-! ## Leaving out what was seen -/

section Fresh

variable {α : Type*} [DecidableEq α]

/-- The elements that were not seen, each once. -/
def fresh : List α → List α → List α
  | _, [] => []
  | seen, c :: cs => if c ∈ seen then fresh seen cs else c :: fresh (seen ++ [c]) cs

@[simp] theorem fresh_nil (seen : List α) : fresh seen [] = [] := by
  rw [fresh]

theorem mem_fresh {seen cs : List α} {x : α} : x ∈ fresh seen cs ↔ x ∈ cs ∧ x ∉ seen := by
  fun_induction fresh seen cs with
  | case1 => simp
  | case2 seen c cs hc ih =>
    rw [ih, List.mem_cons]
    constructor
    · exact fun h => ⟨Or.inr h.1, h.2⟩
    · rintro ⟨rfl | hx, hseen⟩
      · exact absurd hc hseen
      · exact ⟨hx, hseen⟩
  | case3 seen c cs hc ih =>
    rw [List.mem_cons, ih, List.mem_cons, List.mem_append, List.mem_singleton]
    constructor
    · rintro (rfl | ⟨hx, hseen⟩)
      · exact ⟨Or.inl rfl, hc⟩
      · exact ⟨Or.inr hx, fun h => hseen (Or.inl h)⟩
    · rintro ⟨hx, hseen⟩
      by_cases heq : x = c
      · exact Or.inl heq
      · exact Or.inr ⟨hx.resolve_left heq, fun h => h.elim hseen heq⟩

theorem nodup_fresh (seen cs : List α) : (fresh seen cs).Nodup := by
  fun_induction fresh seen cs with
  | case1 => exact List.nodup_nil
  | case2 seen c cs hc ih => exact ih
  | case3 seen c cs hc ih => exact List.nodup_cons.mpr ⟨fun h => by simp [mem_fresh] at h, ih⟩

theorem fresh_sublist (seen cs : List α) : (fresh seen cs).Sublist cs := by
  fun_induction fresh seen cs with
  | case1 => exact List.Sublist.refl []
  | case2 seen c cs hc ih => exact ih.cons c
  | case3 seen c cs hc ih => exact ih.cons_cons c

theorem fresh_congr {seen seen' : List α} (h : ∀ x, x ∈ seen ↔ x ∈ seen') (cs : List α) :
    fresh seen cs = fresh seen' cs := by
  induction cs generalizing seen seen' with
  | nil => simp
  | cons c cs ih =>
    have hmore : fresh (seen ++ [c]) cs = fresh (seen' ++ [c]) cs := ih fun x => by simp [h]
    simp only [fresh, ih h, hmore, h]

theorem fresh_append (seen cs ds : List α) :
    fresh seen (cs ++ ds) = fresh seen cs ++ fresh (seen ++ cs) ds := by
  induction cs generalizing seen with
  | nil => simp
  | cons c cs ih =>
    rw [List.cons_append, fresh, fresh]
    split
    case isTrue hc =>
      rw [ih]
      congr 1
      refine fresh_congr (fun x => ?_) ds
      simp only [List.mem_append, List.mem_cons]
      constructor
      · exact fun h => h.imp_right Or.inr
      · rintro (hx | rfl | hx)
        · exact Or.inl hx
        · exact Or.inl hc
        · exact Or.inr hx
    case isFalse hc => rw [ih, List.cons_append, List.append_assoc, List.singleton_append]

end Fresh

/-! ## Layers -/

/-- What was seen is what is not behind a layer. -/
structure Round {α : Type*} (G : SimpleGraph α) (sources : Set α) (k : ℕ)
    (seen frontier : List α) : Prop where
  seen : ∀ x, x ∈ seen ↔ depth G sources x ≤ k
  frontier : ∀ x, x ∈ frontier ↔ depth G sources x = k

theorem round_zero {α : Type*} {G : SimpleGraph α} {sources : Set α} {starts : List α}
    (h : ∀ x, x ∈ starts ↔ x ∈ sources) : Round G sources 0 starts starts := by
  constructor
  · intro x
    rw [Nat.cast_zero, nonpos_iff_eq_zero, depth_eq_zero_iff, h]
  · intro x
    rw [Nat.cast_zero, depth_eq_zero_iff, h]

theorem top_ne_succ (k : ℕ) : (⊤ : ℕ∞) ≠ k + 1 := by
  exact_mod_cast ENat.top_ne_natCast (k + 1)

theorem le_succ_iff {d : ℕ∞} {k : ℕ} : d ≤ (k + 1 : ℕ) ↔ d ≤ k ∨ d = k + 1 := by
  cases d using ENat.recTopCoe with
  | top => simp [top_ne_succ]
  | coe d =>
    norm_cast
    omega

/-- The lists hold the neighbours of the nodes in the graph, and maybe the nodes themselves. -/
def Lists {α : Type*} (adj : α → List α) (G : SimpleGraph α) : Prop :=
  ∀ x y, x ≠ y → (y ∈ adj x ↔ G.Adj x y)

section Layers

variable {α : Type*} [DecidableEq α] (r : α → α → Prop) [DecidableRel r] (adj : α → List α)

/-- The nodes next to a layer that were not seen, the layer taken in order. -/
def layer (seen frontier : List α) : List α :=
  fresh seen ((frontier.insertionSort r).flatMap adj)

/-- The layers behind a layer, so many of them. -/
def search : ℕ → List α → List α → List α
  | 0, _, _ => []
  | n + 1, seen, frontier =>
    layer r adj seen frontier ++
      search n (seen ++ layer r adj seen frontier) (layer r adj seen frontier)

theorem layer_nil (seen : List α) : layer r adj seen [] = [] := by
  simp [layer]

theorem search_nil (n : ℕ) (seen : List α) : search r adj n seen [] = [] := by
  induction n generalizing seen with
  | zero => rfl
  | succ n ih => simp only [search, layer_nil, ih, List.append_nil]

variable {r adj} {G : SimpleGraph α} {sources : Set α} {k : ℕ} {seen frontier : List α}

theorem mem_layer (hadj : Lists adj G) (h : Round G sources k seen frontier) {x : α} :
    x ∈ layer r adj seen frontier ↔ depth G sources x = k + 1 := by
  rw [layer, mem_fresh, h.seen, List.mem_flatMap]
  simp only [List.mem_insertionSort, h.frontier]
  constructor
  · rintro ⟨⟨p, hp, hx⟩, hseen⟩
    have hne : p ≠ x := by
      rintro rfl
      exact hseen hp.le
    have hle : depth G sources x ≤ depth G sources p + 1 := depth_le_succ ((hadj p x hne).mp hx)
    rw [hp] at hle
    exact le_antisymm hle (Order.add_one_le_of_lt (not_le.mp hseen))
  · intro hx
    obtain ⟨p, hpx, hp⟩ := exists_nearer hx
    have hlt : ((k : ℕ) : ℕ∞) < k + 1 := by exact_mod_cast Nat.lt_succ_self k
    exact ⟨⟨p, hp, (hadj p x hpx.ne).mpr hpx⟩, by rw [hx]; exact not_le.mpr hlt⟩

theorem Round.next (hadj : Lists adj G) (h : Round G sources k seen frontier) :
    Round G sources (k + 1) (seen ++ layer r adj seen frontier) (layer r adj seen frontier) := by
  constructor
  · intro x
    rw [List.mem_append, mem_layer hadj h, h.seen, le_succ_iff]
  · intro x
    rw [mem_layer hadj h, Nat.cast_succ]

/-- So many rounds find the nodes within that distance of the layer. -/
theorem mem_search (hadj : Lists adj G) (n : ℕ) (h : Round G sources k seen frontier) {x : α} :
    x ∈ search r adj n seen frontier ↔
      (k : ℕ∞) < depth G sources x ∧ depth G sources x ≤ (k + n : ℕ) := by
  induction n generalizing k seen frontier with
  | zero => simp [search]
  | succ n ih =>
    rw [search, List.mem_append, mem_layer hadj h, ih (h.next hadj)]
    cases depth G sources x using ENat.recTopCoe with
    | top => simp [top_ne_succ]
    | coe d =>
      norm_cast
      omega

theorem nodup_search (hadj : Lists adj G) (n : ℕ) (h : Round G sources k seen frontier) :
    (search r adj n seen frontier).Nodup := by
  induction n generalizing k seen frontier with
  | zero => exact List.nodup_nil
  | succ n ih =>
    rw [search, List.nodup_append]
    refine ⟨nodup_fresh _ _, ih (h.next hadj), ?_⟩
    rintro x hx _ hy rfl
    rw [mem_layer hadj h] at hx
    rw [mem_search hadj n (h.next hadj), hx] at hy
    exact absurd hy.1 (by simp)

end Layers

/-! ## Order -/

section Order

variable {α : Type*} (r : α → α → Prop) (G : SimpleGraph α) (sources : Set α)

/-- The first of the neighbours of a node that are nearer to the sources. -/
structure First (p x : α) : Prop where
  adj : G.Adj p x
  nearer : depth G sources p + 1 = depth G sources x
  least : ∀ q, G.Adj q x → depth G sources q + 1 = depth G sources x → r p q

/-- The breadth-first order: by depth, then by the first nearer neighbour, then by the node. -/
def Sooner (x y : α) : Prop :=
  depth G sources x < depth G sources y ∨
    depth G sources x = depth G sources y ∧
      ∃ p q, First r G sources p x ∧ First r G sources q y ∧ r p q ∧ (p = q → r x y)

variable {r G sources} {adj : α → List α}

/-- The first node of a list that has a node among its neighbours. -/
structure Opens (r : α → α → Prop) (adj : α → List α) (fs : List α) (p x : α) : Prop where
  mem : p ∈ fs
  expands : x ∈ adj p
  least : ∀ q ∈ fs, x ∈ adj q → r p q

theorem Opens.cons {f p x : α} {fs : List α} (h : Opens r adj fs p x) (hx : x ∉ adj f) :
    Opens r adj (f :: fs) p x := by
  refine ⟨List.mem_cons_of_mem f h.mem, h.expands, fun q hq hxq => ?_⟩
  rcases List.mem_cons.mp hq with rfl | hq
  · exact absurd hxq hx
  · exact h.least q hq hxq

section Sorted

variable [Std.Total r]

theorem opens_head {f x : α} {fs : List α} (hfs : (f :: fs).Pairwise r) (hx : x ∈ adj f) :
    Opens r adj (f :: fs) f x := by
  refine ⟨List.mem_cons_self, hx, fun q hq _ => ?_⟩
  rcases List.mem_cons.mp hq with rfl | hq
  · exact (Std.Total.total q q).elim id id
  · exact (List.pairwise_cons.mp hfs).1 q hq

theorem exists_opens {x : α} {fs : List α} (hfs : fs.Pairwise r) (hx : x ∈ fs.flatMap adj) :
    ∃ p, Opens r adj fs p x := by
  classical
  induction fs with
  | nil => simp at hx
  | cons f fs ih =>
    by_cases hf : x ∈ adj f
    · exact ⟨f, opens_head hfs hf⟩
    · rw [List.flatMap_cons, List.mem_append] at hx
      obtain ⟨p, hp⟩ := ih (List.pairwise_cons.mp hfs).2 (hx.resolve_left hf)
      exact ⟨p, hp.cons hf⟩

variable [DecidableEq α]

/-- Expanding the nodes of a sorted list leaves their neighbours in the order of the nodes that
open them. -/
theorem pairwise_fresh_flatMap {fs : List α} (seen : List α) (hfs : fs.Pairwise r)
    (hadj : ∀ f, (adj f).Pairwise r) :
    (fresh seen (fs.flatMap adj)).Pairwise fun x y =>
      ∃ p q, Opens r adj fs p x ∧ Opens r adj fs q y ∧ r p q ∧ (p = q → r x y) := by
  induction fs generalizing seen with
  | nil => simp
  | cons f fs ih =>
    obtain ⟨hhead, htail⟩ := List.pairwise_cons.mp hfs
    have hbehind : ∀ y ∈ fresh (seen ++ adj f) (fs.flatMap adj),
        y ∈ fs.flatMap adj ∧ y ∉ adj f := by
      intro y hy
      obtain ⟨hmem, hnot⟩ := mem_fresh.mp hy
      exact ⟨hmem, fun h => hnot (List.mem_append_right seen h)⟩
    rw [List.flatMap_cons, fresh_append, List.pairwise_append]
    refine ⟨?_, ?_, ?_⟩
    · refine ((hadj f).sublist (fresh_sublist seen _)).imp_of_mem fun hx hy hxy => ?_
      exact ⟨f, f, opens_head hfs (mem_fresh.mp hx).1, opens_head hfs (mem_fresh.mp hy).1,
        (Std.Total.total f f).elim id id, fun _ => hxy⟩
    · refine (ih (seen ++ adj f) htail).imp_of_mem fun hx hy hxy => ?_
      obtain ⟨p, q, hp, hq, hpq, hlast⟩ := hxy
      exact ⟨p, q, hp.cons (hbehind _ hx).2, hq.cons (hbehind _ hy).2, hpq, hlast⟩
    · intro x hx y hy
      obtain ⟨q, hq⟩ := exists_opens htail (hbehind y hy).1
      refine ⟨f, q, opens_head hfs (mem_fresh.mp hx).1, hq.cons (hbehind y hy).2,
        hhead q hq.mem, ?_⟩
      rintro rfl
      exact absurd hq.expands (hbehind y hy).2

end Sorted

variable [DecidableEq α] [DecidableRel r] {k : ℕ} {seen frontier : List α}

theorem Round.first (hadj : Lists adj G) (h : Round G sources k seen frontier) {p x : α}
    (hx : x ∈ layer r adj seen frontier)
    (hp : Opens r adj (frontier.insertionSort r) p x) : First r G sources p x := by
  have hdepth := (mem_layer hadj h).mp hx
  have hfrontier : ∀ q, q ∈ frontier.insertionSort r ↔ depth G sources q = k := fun q => by
    rw [List.mem_insertionSort, h.frontier]
  have hne : ∀ q, depth G sources q = k → q ≠ x := by
    rintro q hq rfl
    rw [hq] at hdepth
    exact absurd hdepth (by norm_cast; omega)
  have hpk := (hfrontier p).mp hp.mem
  refine ⟨(hadj p x (hne p hpk)).mp hp.expands, by rw [hpk, hdepth], fun q hq hqx => ?_⟩
  rw [hdepth] at hqx
  have hqk : depth G sources q = k :=
    le_antisymm ((ENat.add_le_add_iff_right ENat.one_ne_top).mp hqx.le)
      ((ENat.add_le_add_iff_right ENat.one_ne_top).mp hqx.ge)
  exact hp.least q ((hfrontier q).mpr hqk) ((hadj q x hq.ne).mpr hq)

theorem pairwise_search [Std.Total r] [IsTrans α r] (hadj : Lists adj G) (hsorted : ∀ f, (adj f).Pairwise r) (n : ℕ)
    (h : Round G sources k seen frontier) :
    (search r adj n seen frontier).Pairwise (Sooner r G sources) := by
  induction n generalizing k seen frontier with
  | zero => exact List.Pairwise.nil
  | succ n ih =>
    rw [search, List.pairwise_append]
    refine ⟨?_, ih (h.next hadj), fun x hx y hy => Or.inl ?_⟩
    · have hpairs := pairwise_fresh_flatMap seen (List.pairwise_insertionSort r frontier) hsorted
      refine hpairs.imp_of_mem fun hx hy hxy => Or.inr ⟨?_, ?_⟩
      · exact ((mem_layer hadj h).mp hx).trans ((mem_layer hadj h).mp hy).symm
      · obtain ⟨p, q, hp, hq, hpq, hlast⟩ := hxy
        exact ⟨p, q, h.first hadj hx hp, h.first hadj hy hq, hpq, hlast⟩
    · rw [(mem_layer hadj h).mp hx]
      exact_mod_cast ((mem_search hadj n (h.next hadj)).mp hy).1

end Order

end BreadthFirst
end Batiste
