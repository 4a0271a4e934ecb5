import Batiste.Overhang

/-! The clusters of an overhang check are the chains of regions of consecutive layers that touch. -/
namespace Batiste
namespace Overhang

open Layers Relation UnionFind

/-! ## Chains in a growing list -/

section Linked

variable {α : Type*} (adj : α → α → Prop)

/-- The nodes of a list are joined by a chain of adjacent nodes of the list. -/
def Linked (nodes : List α) : α → α → Prop :=
  EqvGen fun a b => a ∈ nodes ∧ b ∈ nodes ∧ adj a b

variable {adj}

theorem Linked.mono {nodes nodes' : List α} (hsub : nodes ⊆ nodes') {a b : α}
    (h : Linked adj nodes a b) : Linked adj nodes' a b :=
  EqvGen.mono (fun _ _ h => ⟨hsub h.1, hsub h.2.1, h.2.2⟩) _ _ h

/-- A new node joins the classes of its neighbours to its own and changes no other class. -/
theorem classes_append {nodes : List α} {new : α} {cls cls' : α → ℕ} {hit : ℕ → Prop}
    (hcls : ∀ a ∈ nodes, ∀ b ∈ nodes, cls a = cls b ↔ Linked adj nodes a b)
    (hlast : ∀ b ∈ nodes ++ [new], ¬adj new b)
    (hhit : ∀ a ∈ nodes, hit (cls a) ↔ ∃ r ∈ nodes, adj r new ∧ cls r = cls a)
    (hold : ∀ a ∈ nodes, ∀ b ∈ nodes,
      cls' a = cls' b ↔ cls a = cls b ∨ hit (cls a) ∧ hit (cls b))
    (hnew : ∀ a ∈ nodes, cls' a = cls' new ↔ hit (cls a)) :
    ∀ a ∈ nodes ++ [new], ∀ b ∈ nodes ++ [new],
      cls' a = cls' b ↔ Linked adj (nodes ++ [new]) a b := by
  have hsub : nodes ⊆ nodes ++ [new] := List.subset_append_left _ _
  have hmem : new ∈ nodes ++ [new] := List.mem_append_right _ List.mem_cons_self
  have hjoined : ∀ a ∈ nodes, hit (cls a) → Linked adj (nodes ++ [new]) a new := by
    intro a ha h
    obtain ⟨r, hr, hadj, heq⟩ := (hhit a ha).mp h
    have hchain := ((hcls a ha r hr).mp heq.symm).mono hsub
    exact hchain.trans _ _ _ (.rel _ _ ⟨hsub hr, hmem, hadj⟩)
  intro a ha b hb
  constructor
  · intro heq
    rcases List.mem_append.mp ha with ha | ha
    · rcases List.mem_append.mp hb with hb | hb
      · rcases (hold a ha b hb).mp heq with heq | ⟨hhita, hhitb⟩
        · exact ((hcls a ha b hb).mp heq).mono hsub
        · exact (hjoined a ha hhita).trans _ _ _ ((hjoined b hb hhitb).symm _ _)
      · rw [List.mem_singleton.mp hb] at heq ⊢
        exact hjoined a ha ((hnew a ha).mp heq)
    · rw [List.mem_singleton.mp ha] at heq ⊢
      rcases List.mem_append.mp hb with hb | hb
      · exact (hjoined b hb ((hnew b hb).mp heq.symm)).symm _ _
      · rw [List.mem_singleton.mp hb]
        exact .refl _
  · refine fun hchain => (eq_equivalence.comap cls').eqvGen_iff.mp (EqvGen.mono ?_ _ _ hchain)
    rintro x y ⟨hx, hy, hadj⟩
    show cls' x = cls' y
    rcases List.mem_append.mp hx with hx' | hx'
    · rcases List.mem_append.mp hy with hy' | hy'
      · exact (hold x hx' y hy').mpr
          (Or.inl ((hcls x hx' y hy').mpr (.rel _ _ ⟨hx', hy', hadj⟩)))
      · rw [List.mem_singleton.mp hy'] at hadj ⊢
        exact (hnew x hx').mpr ((hhit x hx').mpr ⟨x, hx', hadj, rfl⟩)
    · rw [List.mem_singleton.mp hx'] at hadj
      exact absurd hadj (hlast y hy)

end Linked

/-! ## The forest of cluster ids -/

/-- The ids below `n` are represented among themselves and the others by themselves. -/
structure Roots (n : ℕ) (uf root : ℕ → ℕ) : Prop where
  represents : Represents uf root
  below : ∀ x < n, root x < n
  beyond : ∀ x, n ≤ x → root x = x

variable {n : ℕ} {uf root : ℕ → ℕ}

theorem Roots.idem (h : Roots n uf root) (x : ℕ) : root (root x) = root x :=
  h.represents.root_eq (h.represents.fixed x)

theorem Roots.find (h : Roots n uf root) (x : ℕ) :
    (UnionFind.find n uf x).1 = root x ∧ Roots n (UnionFind.find n uf x).2 root := by
  have hkeys : ∀ y, uf y ≠ y → y ∈ List.range n := by
    intro y hmoves
    refine List.mem_range.mpr (not_le.mp fun hy => hmoves ?_)
    have hfixed := h.represents.fixed y
    rwa [h.beyond y hy] at hfixed
  obtain ⟨k, hk, hwalk⟩ := h.represents.within hkeys x
  rw [List.length_range] at hk
  obtain ⟨hroot, hrepresents⟩ := find_spec h.represents ⟨k, hk, hwalk⟩
  exact ⟨hroot, hrepresents, h.below, h.beyond⟩

theorem Roots.succ (h : Roots n uf root) : Roots (n + 1) uf root where
  represents := h.represents
  below x hx := by
    rcases Nat.lt_succ_iff_lt_or_eq.mp hx with hx | rfl
    · exact Nat.lt_succ_of_lt (h.below x hx)
    · exact (h.beyond x le_rfl).trans_lt (Nat.lt_succ_self x)
  beyond x hx := h.beyond x (Nat.le_of_succ_le hx)

theorem Roots.join (h : Roots n uf root) {a b : ℕ} (ha : a < n) (hb : b < n) :
    Roots n (Function.update uf (root a) (root b)) (UnionFind.join root a b) where
  represents := h.represents.link a b
  below x hx := by
    unfold UnionFind.join
    split
    · exact h.below b hb
    · exact h.below x hx
  beyond x hx := by
    unfold UnionFind.join
    split
    · next heq =>
      rw [h.beyond x hx] at heq
      exact absurd (h.below a ha) (not_lt.mpr (heq ▸ hx))
    · exact h.beyond x hx

theorem Roots.mergeInto (h : Roots n uf root) {cid : ℕ} (hcid : cid < n) {arr : List ℕ}
    (harr : ∀ a ∈ arr, a < n) :
    Roots n (mergeInto n cid arr uf) (joinAll root (arr.map fun a => (a, cid))) := by
  induction arr generalizing uf root with
  | nil => exact h
  | cons a arr ih =>
    obtain ⟨ha, ha'⟩ := h.find a
    obtain ⟨hc, hc'⟩ := ha'.find cid
    rw [List.forall_mem_cons] at harr
    have hstep : Overhang.mergeInto n cid (a :: arr) uf = Overhang.mergeInto n cid arr
        (Function.update (UnionFind.find n (UnionFind.find n uf a).2 cid).2 (root a) (root cid)) := by
      rw [← ha, ← hc]
      rfl
    rw [hstep]
    exact ih (hc'.join harr.1 hcid) harr.2

/-- The representatives of the labels, each once. -/
theorem touching_spec (h : Roots n uf root) (prevLab : ℕ → Option ℕ) (qs : List ℕ) :
    (∀ a, a ∈ (touching n prevLab qs uf).1 ↔ ∃ q ∈ qs, ∃ l, prevLab q = some l ∧ root l = a) ∧
      Roots n (touching n prevLab qs uf).2 root := by
  have hfold : ∀ ls : List ℕ, ∀ acc : List ℕ × (ℕ → ℕ), Roots n acc.2 root →
      (∀ a, a ∈ (ls.foldl (touch n) acc).1 ↔ a ∈ acc.1 ∨ ∃ l ∈ ls, root l = a) ∧
        Roots n (ls.foldl (touch n) acc).2 root := by
    intro ls
    induction ls with
    | nil => exact fun acc hacc => ⟨by simp, hacc⟩
    | cons l ls ih =>
      intro acc hacc
      obtain ⟨hl, hacc'⟩ := hacc.find l
      obtain ⟨hmem, hroots⟩ := ih (touch n acc l) hacc'
      have hstep : ∀ a, a ∈ (touch n acc l).1 ↔ a ∈ acc.1 ∨ root l = a := by
        intro a
        simp only [touch, hl]
        by_cases hin : root l ∈ acc.1
        · simp only [hin, if_true]
          exact ⟨Or.inl, fun h => h.elim id fun heq => heq ▸ hin⟩
        · simp [hin, eq_comm]
      refine ⟨fun a => ?_, hroots⟩
      rw [List.foldl_cons, hmem, hstep]
      simp only [List.mem_cons, exists_eq_or_imp, or_assoc]
  obtain ⟨hmem, hroots⟩ := hfold (qs.filterMap prevLab) ([], uf) h
  refine ⟨fun a => ?_, hroots⟩
  rw [touching, hmem]
  simp only [List.not_mem_nil, false_or, List.mem_filterMap]
  constructor
  · rintro ⟨l, ⟨q, hq, hl⟩, rfl⟩
    exact ⟨q, hq, l, hl, rfl⟩
  · rintro ⟨q, hq, l, hl, rfl⟩
    exact ⟨l, ⟨q, hq, hl⟩, rfl⟩

/-! ## One region -/

/-- A region of the next layer has a place in the window of a place of the region. -/
def Touch (W : ℕ) (a b : Region) : Prop :=
  b.layerIdx = a.layerIdx + 1 ∧ ∃ p ∈ a.idx, ∃ q ∈ b.idx, Near 3 W p q

variable {W H : ℕ}

/-- Each place of a region of the layer is marked with a cluster of the class of the region, and no
other place is marked. -/
structure Marks (lab : ℕ → Option ℕ) (nodes : List Region) (layer : ℕ → Prop) (n : ℕ)
    (root : ℕ → ℕ) (cls : Region → ℕ) : Prop where
  sound : ∀ p l, lab p = some l → l < n ∧ ∃ r ∈ nodes, layer r.layerIdx ∧ p ∈ r.idx ∧ root l = cls r
  complete : ∀ r ∈ nodes, layer r.layerIdx → ∀ p ∈ r.idx, ∃ l, lab p = some l ∧ root l = cls r

section Marks

variable {lab : ℕ → Option ℕ} {nodes nodes' : List Region} {layer : ℕ → Prop} {n n' : ℕ}
  {root root' : ℕ → ℕ} {cls cls' : Region → ℕ}

/-- A mark stays right when the clusters of a region and of its marks move together. -/
theorem Marks.sound_of_le (hm : Marks lab nodes layer n root cls) (hn : n ≤ n')
    (hnodes : ∀ r ∈ nodes, r ∈ nodes')
    (hmoved : ∀ l < n, ∀ r ∈ nodes, root l = cls r → root' l = cls' r) {p l : ℕ}
    (hl : lab p = some l) :
    l < n' ∧ ∃ r ∈ nodes', layer r.layerIdx ∧ p ∈ r.idx ∧ root' l = cls' r := by
  obtain ⟨hlt, r, hr, hlayer, hp, hroot⟩ := hm.sound p l hl
  exact ⟨hlt.trans_le hn, r, hnodes r hr, hlayer, hp, hmoved l hlt r hr hroot⟩

theorem Marks.complete_of_moved (hm : Marks lab nodes layer n root cls)
    (hmoved : ∀ l < n, ∀ r ∈ nodes, root l = cls r → root' l = cls' r) {r : Region}
    (hr : r ∈ nodes) (hlayer : layer r.layerIdx) {p : ℕ} (hp : p ∈ r.idx) :
    ∃ l, lab p = some l ∧ root' l = cls' r := by
  obtain ⟨l, hl, hroot⟩ := hm.complete r hr hlayer p hp
  exact ⟨l, hl, hmoved l (hm.sound p l hl).1 r hr hroot⟩

end Marks

/-- What holds in the layer `i` after some regions: `cls` is the representative of the cluster of a
region, and it is the same for two regions exactly when a chain links them. -/
structure Inv (W H i : ℕ) (nodes : List Region) (s : Clustering) (root : ℕ → ℕ)
    (cls : Region → ℕ) : Prop where
  roots : Roots s.clusters.length s.uf root
  perm : s.clusters.flatten.Perm nodes
  home : ∀ id regs, s.clusters[id]? = some regs → ∀ r ∈ regs, cls r = root id
  classes : ∀ a ∈ nodes, ∀ b ∈ nodes, cls a = cls b ↔ Linked (Touch W) nodes a b
  layers : ∀ r ∈ nodes, r.layerIdx ≤ i
  inside : ∀ r ∈ nodes, ∀ p ∈ r.idx, p < W * H
  prev : Marks s.prevLab nodes (fun j => j + 1 = i) s.clusters.length root cls
  cur : Marks s.lab nodes (fun j => j = i) s.clusters.length root cls

section Add

variable {i : ℕ} {nodes : List Region} {s : Clustering} {cls : Region → ℕ}

theorem Inv.cls_eq (h : Inv W H i nodes s root cls) {r : Region} (hr : r ∈ nodes) :
    ∃ id < s.clusters.length, cls r = root id := by
  obtain ⟨regs, hregs, hr⟩ := List.mem_flatten.mp (h.perm.mem_iff.mpr hr)
  obtain ⟨id, hid, rfl⟩ := List.mem_iff_getElem.mp hregs
  exact ⟨id, hid, h.home id _ (List.getElem?_eq_getElem hid) r hr⟩

theorem Inv.cls_lt (h : Inv W H i nodes s root cls) {r : Region} (hr : r ∈ nodes) :
    cls r < s.clusters.length := by
  obtain ⟨id, hid, heq⟩ := h.cls_eq hr
  exact heq ▸ h.roots.below id hid

theorem Inv.root_cls (h : Inv W H i nodes s root cls) {r : Region} (hr : r ∈ nodes) :
    root (cls r) = cls r := by
  obtain ⟨id, -, heq⟩ := h.cls_eq hr
  rw [heq, h.roots.idem]

/-- The touching clusters are the classes of the regions that touch the new one. -/
theorem Inv.touching_iff (h : Inv W H i nodes s root cls) {reg : Region} (hlayer : reg.layerIdx = i)
    (a : ℕ) :
    a ∈ (touching s.clusters.length s.prevLab (reg.idx.flatMap (window 3 W H)) s.uf).1 ↔
      ∃ r ∈ nodes, Touch W r reg ∧ cls r = a := by
  rw [(touching_spec h.roots _ _).1]
  constructor
  · rintro ⟨q, hq, l, hl, rfl⟩
    obtain ⟨p, hp, hnear⟩ := List.mem_flatMap.mp hq
    obtain ⟨-, r, hr, hlast, hplace, hroot⟩ := h.prev.sound q l hl
    exact ⟨r, hr, ⟨by omega, q, hplace, p, hp, (mem_window.mp hnear).2.symm⟩, hroot.symm⟩
  · rintro ⟨r, hr, ⟨hnext, q, hq, p, hp, hnear⟩, rfl⟩
    obtain ⟨l, hl, hroot⟩ := h.prev.complete r hr (by omega) q hq
    refine ⟨q, List.mem_flatMap.mpr ⟨p, hp, ?_⟩, l, hl, hroot⟩
    exact mem_window.mpr ⟨h.inside r hr q hq, hnear.symm⟩

/-- What the choice of a cluster for a new region leaves, where `hit` are the classes it touches. -/
structure Chosen (nodes : List Region) (s : Clustering) (root : ℕ → ℕ) (cls : Region → ℕ)
    (hit : ℕ → Prop) (cid : ℕ) (t : Clustering) (root' : ℕ → ℕ) (cls' : Region → ℕ) : Prop where
  roots : Roots t.clusters.length t.uf root'
  cid_lt : cid < t.clusters.length
  grown : s.clusters.length ≤ t.clusters.length
  perm : t.clusters.flatten.Perm nodes
  home : ∀ id regs, t.clusters[id]? = some regs → ∀ r ∈ regs, cls' r = root' id
  old : ∀ a ∈ nodes, ∀ b ∈ nodes, cls' a = cls' b ↔ cls a = cls b ∨ hit (cls a) ∧ hit (cls b)
  new : ∀ a ∈ nodes, cls' a = root' cid ↔ hit (cls a)
  marks : ∀ l < s.clusters.length, ∀ r ∈ nodes, root l = cls r → root' l = cls' r
  labs : t.prevLab = s.prevLab ∧ t.lab = s.lab

/-- No region is touched: a new cluster, with no region yet. -/
theorem Inv.target_nil (h : Inv W H i nodes s root cls) {uf : ℕ → ℕ}
    (huf : Roots s.clusters.length uf root) :
    Chosen nodes s root cls (· ∈ []) (s.target uf []).1 (s.target uf []).2 root cls := by
  have hlength : (s.clusters ++ [[]]).length = s.clusters.length + 1 := by simp
  constructor
  · show Roots (s.clusters ++ [[]]).length uf root
    rw [hlength]
    exact huf.succ
  · show s.clusters.length < (s.clusters ++ [[]]).length
    omega
  · show s.clusters.length ≤ (s.clusters ++ [[]]).length
    omega
  · show (s.clusters ++ [[]]).flatten.Perm nodes
    simpa using h.perm
  · show ∀ id regs, (s.clusters ++ [[]])[id]? = some regs → ∀ r ∈ regs, cls r = root id
    intro id regs hregs r hr
    by_cases hid : id < s.clusters.length
    · rw [List.getElem?_append_left hid] at hregs
      exact h.home id regs hregs r hr
    · rw [List.getElem?_append_right (not_lt.mp hid)] at hregs
      have hempty := List.mem_singleton.mp (List.mem_of_getElem? hregs)
      rw [hempty] at hr
      cases hr
  · exact fun a _ b _ => by simp
  · intro a ha
    have hlt := h.cls_lt ha
    have hid : root s.clusters.length = s.clusters.length := huf.beyond _ le_rfl
    show cls a = root s.clusters.length ↔ cls a ∈ []
    simp only [List.not_mem_nil, iff_false]
    omega
  · exact fun l _ r _ heq => heq
  · exact ⟨rfl, rfl⟩

/-- The touched clusters are joined to the first of them. -/
theorem Inv.target_cons (h : Inv W H i nodes s root cls) {uf : ℕ → ℕ}
    (huf : Roots s.clusters.length uf root) {c : ℕ} {arr : List ℕ}
    (harr : ∀ a ∈ c :: arr, ∃ r ∈ nodes, cls r = a) :
    ∃ root', Chosen nodes s root cls (· ∈ c :: arr) (s.target uf (c :: arr)).1
      (s.target uf (c :: arr)).2 root' fun r => root' (cls r) := by
  have hfixed : ∀ a ∈ c :: arr, root a = a := by
    intro a ha
    obtain ⟨r, hr, rfl⟩ := harr a ha
    exact h.root_cls hr
  have hlt : ∀ a ∈ c :: arr, a < s.clusters.length := by
    intro a ha
    obtain ⟨r, hr, rfl⟩ := harr a ha
    exact h.cls_lt hr
  have hstar := joinAll_star root (T := c :: arr) List.mem_cons_self hfixed
  generalize hroot' : joinAll root ((c :: arr).map fun a => (a, c)) = root' at hstar
  have hkeep : ∀ id, root' (root id) = root' id := fun id =>
    (hstar _ _).mpr (Or.inl (huf.idem id))
  refine ⟨root', ?_⟩
  constructor
  · have hmerged := huf.mergeInto (hlt c List.mem_cons_self) hlt
    rw [hroot'] at hmerged
    exact hmerged
  · exact hlt c List.mem_cons_self
  · exact le_rfl
  · exact h.perm
  · intro id regs hregs r hr
    show root' (cls r) = root' id
    rw [h.home id regs hregs r hr, hkeep]
  · intro a ha b hb
    show root' (cls a) = root' (cls b) ↔ _
    rw [hstar, h.root_cls ha, h.root_cls hb]
  · intro a ha
    show root' (cls a) = root' c ↔ _
    rw [hstar, h.root_cls ha, hfixed c List.mem_cons_self]
    constructor
    · rintro (heq | hboth)
      · exact heq ▸ List.mem_cons_self
      · exact hboth.1
    · exact fun hhit => Or.inr ⟨hhit, List.mem_cons_self⟩
  · intro l _ r _ heq
    show root' l = root' (cls r)
    rw [← heq, hkeep]
  · exact ⟨rfl, rfl⟩

theorem Inv.target (h : Inv W H i nodes s root cls) {uf : ℕ → ℕ}
    (huf : Roots s.clusters.length uf root) {arr : List ℕ}
    (harr : ∀ a ∈ arr, ∃ r ∈ nodes, cls r = a) :
    ∃ root' cls', Chosen nodes s root cls (· ∈ arr) (s.target uf arr).1 (s.target uf arr).2
      root' cls' := by
  cases arr with
  | nil => exact ⟨root, cls, h.target_nil huf⟩
  | cons c arr =>
    obtain ⟨root', hchosen⟩ := h.target_cons huf harr
    exact ⟨root', _, hchosen⟩

theorem flatten_modify_perm {α : Type*} {lists : List (List α)} {k : ℕ} (hk : k < lists.length)
    (x : α) : (lists.modify k (· ++ [x])).flatten.Perm (lists.flatten ++ [x]) := by
  induction lists generalizing k with
  | nil => cases hk
  | cons l lists ih =>
    cases k with
    | zero =>
      rw [List.modify_zero_cons, List.flatten_cons, List.flatten_cons, List.append_assoc,
        List.append_assoc]
      exact List.perm_append_comm.append_left l
    | succ k =>
      rw [List.modify_succ_cons, List.flatten_cons, List.flatten_cons, List.append_assoc]
      exact (ih (Nat.lt_of_succ_lt_succ hk)).append_left l

variable {hit : ℕ → Prop} {cid : ℕ} {t : Clustering} {root' : ℕ → ℕ} {cls' : Region → ℕ}

open Classical in
/-- The regions of each cluster have its class, the new one too. -/
theorem Chosen.home_place (hc : Chosen nodes s root cls hit cid t root' cls') {reg : Region}
    (hfresh : reg ∉ nodes) {id : ℕ} {regs : List Region}
    (hregs : (t.clusters.modify (root' cid) (· ++ [reg]))[id]? = some regs) :
    ∀ r ∈ regs, Function.update cls' reg (root' cid) r = root' id := by
  rw [List.getElem?_modify] at hregs
  obtain ⟨before, hbefore, rfl⟩ := Option.map_eq_some_iff.mp hregs
  have hsame : ∀ r ∈ before, Function.update cls' reg (root' cid) r = root' id := by
    intro r hr
    have hnode := hc.perm.mem_iff.mp (List.mem_flatten.mpr ⟨_, List.mem_of_getElem? hbefore, hr⟩)
    rw [Function.update_of_ne fun heq : r = reg => hfresh (heq ▸ hnode)]
    exact hc.home id before hbefore r hr
  intro r hr
  split at hr
  · next hid =>
    rcases List.mem_append.mp hr with hr | hr
    · exact hsame r hr
    · rw [List.mem_singleton.mp hr, Function.update_self, ← hid, hc.roots.idem]
  · exact hsame r hr

open Classical in
/-- The region at its place: its class is that of the chosen cluster. -/
theorem Chosen.place (hc : Chosen nodes s root cls hit cid t root' cls')
    (h : Inv W H i nodes s root cls) {reg : Region} (hlayer : reg.layerIdx = i)
    (hinside : ∀ p ∈ reg.idx, p < W * H) (hfresh : reg ∉ nodes)
    (hapart : ∀ r ∈ nodes, r.layerIdx = i → List.Disjoint r.idx reg.idx)
    (hhit : ∀ a ∈ nodes, hit (cls a) ↔ ∃ r ∈ nodes, Touch W r reg ∧ cls r = cls a) :
    Inv W H i (nodes ++ [reg]) (t.place cid reg) root'
      (Function.update cls' reg (root' cid)) := by
  obtain ⟨hfound, hroots⟩ := hc.roots.find cid
  have hlt : root' cid < t.clusters.length := hc.roots.below cid hc.cid_lt
  have hold : ∀ r ∈ nodes, Function.update cls' reg (root' cid) r = cls' r := fun r hr =>
    Function.update_of_ne (fun heq : r = reg => hfresh (heq ▸ hr)) _ _
  have hnew : Function.update cls' reg (root' cid) reg = root' cid := Function.update_self ..
  have hclusters : (t.place cid reg).clusters = t.clusters.modify (root' cid) (· ++ [reg]) := by
    rw [Clustering.place, hfound]
  have hlength : (t.place cid reg).clusters.length = t.clusters.length := by
    rw [hclusters, List.length_modify]
  have hmem : ∀ r ∈ nodes ++ [reg], r ∈ nodes ∨ r = reg := fun r hr =>
    (List.mem_append.mp hr).imp id List.mem_singleton.mp
  have hgrow : ∀ r ∈ nodes, r ∈ nodes ++ [reg] := fun _ hr => List.mem_append_left _ hr
  have hgrown : s.clusters.length ≤ (t.place cid reg).clusters.length := hlength ▸ hc.grown
  have hmoved : ∀ l < s.clusters.length, ∀ r ∈ nodes, root l = cls r →
      root' l = Function.update cls' reg (root' cid) r := fun l hl r hr heq =>
    (hc.marks l hl r hr heq).trans (hold r hr).symm
  constructor
  · rw [hlength]
    exact hroots
  · rw [hclusters]
    exact (flatten_modify_perm hlt reg).trans (hc.perm.append_right [reg])
  · intro id regs hregs r hr
    rw [hclusters] at hregs
    exact hc.home_place hfresh hregs r hr
  · refine classes_append h.classes ?_ hhit ?_ ?_
    · rintro b hb ⟨hnext, -⟩
      rcases hmem b hb with hb | rfl
      · have hle := h.layers b hb
        omega
      · omega
    · intro a ha b hb
      rw [hold a ha, hold b hb]
      exact hc.old a ha b hb
    · intro a ha
      rw [hold a ha, hnew]
      exact hc.new a ha
  · intro r hr
    rcases hmem r hr with hr | rfl
    · exact h.layers r hr
    · exact hlayer.le
  · intro r hr
    rcases hmem r hr with hr | rfl
    · exact h.inside r hr
    · exact hinside
  · constructor
    · intro p l hl
      exact h.prev.sound_of_le hgrown hgrow hmoved (hc.labs.1 ▸ hl)
    · intro r hr hlast p hp
      rcases hmem r hr with hr | rfl
      · obtain ⟨l, hl, hroot⟩ := h.prev.complete_of_moved hmoved hr hlast hp
        exact ⟨l, hc.labs.1 ▸ hl, hroot⟩
      · omega
  · have hlab : ∀ p, (t.place cid reg).lab p = if p ∈ reg.idx then some (root' cid) else s.lab p := by
      intro p
      rw [Clustering.place, hfound, hc.labs.2]
    constructor
    · intro p l hl
      rw [hlab] at hl
      split at hl
      · next hp =>
        obtain rfl := Option.some.inj hl
        refine ⟨by rw [hlength]; exact hlt, reg, by simp, hlayer, hp, ?_⟩
        rw [hnew, hc.roots.idem]
      · exact h.cur.sound_of_le hgrown hgrow hmoved hl
    · intro r hr hlast p hp
      rw [hlab]
      rcases hmem r hr with hr | rfl
      · have hout : p ∉ reg.idx := fun hin => hapart r hr hlast hp hin
        rw [if_neg hout]
        exact h.cur.complete_of_moved hmoved hr hlast hp
      · refine ⟨root' cid, if_pos hp, ?_⟩
        rw [hnew, hc.roots.idem]

/-- A region that is added keeps the invariant. -/
theorem Inv.add (h : Inv W H i nodes s root cls) {reg : Region} (hlayer : reg.layerIdx = i)
    (hinside : ∀ p ∈ reg.idx, p < W * H) (hne : reg.idx ≠ [])
    (hapart : ∀ r ∈ nodes, r.layerIdx = i → List.Disjoint r.idx reg.idx) :
    ∃ root' cls', Inv W H i (nodes ++ [reg]) (s.add W H reg) root' cls' := by
  have hfresh : reg ∉ nodes := by
    intro hmem
    obtain ⟨p, hp⟩ := List.exists_mem_of_ne_nil _ hne
    exact hapart reg hmem hlayer hp hp
  have huf := (touching_spec h.roots s.prevLab (reg.idx.flatMap (window 3 W H))).2
  have hhit := h.touching_iff hlayer
  obtain ⟨root', cls', hc⟩ := h.target huf fun a ha => by
    obtain ⟨r, hr, -, heq⟩ := (hhit a).mp ha
    exact ⟨r, hr, heq⟩
  exact ⟨root', _, hc.place h hlayer hinside hfresh hapart fun a _ => hhit (cls a)⟩

end Add

/-! ## All layers -/

/-- The regions of a layer: nonempty, in the grid, and disjoint. -/
structure LayerRegionsOk (W H i : ℕ) (regs : List Region) : Prop where
  layerIdx : ∀ r ∈ regs, r.layerIdx = i
  inside : ∀ r ∈ regs, ∀ p ∈ r.idx, p < W * H
  nonempty : ∀ r ∈ regs, r.idx ≠ []
  disjoint : regs.Pairwise fun a b => List.Disjoint a.idx b.idx

/-- The regions of a part, layer by layer. -/
structure PartRegions (W H : ℕ) where
  layers : List (List Region)
  ok : ∀ i regs, layers[i]? = some regs → LayerRegionsOk W H i regs

theorem Inv.foldl_add {i : ℕ} {nodes : List Region} {s : Clustering} {cls : Region → ℕ}
    (h : Inv W H i nodes s root cls) {regs : List Region} (hregs : LayerRegionsOk W H i regs)
    (hapart : ∀ r ∈ nodes, r.layerIdx = i → ∀ r' ∈ regs, List.Disjoint r.idx r'.idx) :
    ∃ root' cls', Inv W H i (nodes ++ regs) (regs.foldl (Clustering.add W H) s) root' cls' := by
  induction regs generalizing nodes s root cls with
  | nil => exact ⟨root, cls, by simpa using h⟩
  | cons reg regs ih =>
    have hmem : reg ∈ reg :: regs := List.mem_cons_self
    obtain ⟨hfirst, hdisjoint⟩ := List.pairwise_cons.mp hregs.disjoint
    obtain ⟨root', cls', h'⟩ := h.add (hregs.layerIdx reg hmem) (hregs.inside reg hmem)
      (hregs.nonempty reg hmem) fun r hr hlayer => hapart r hr hlayer reg hmem
    have hrest : LayerRegionsOk W H i regs := ⟨fun r hr => hregs.layerIdx r (.tail _ hr),
      fun r hr => hregs.inside r (.tail _ hr), fun r hr => hregs.nonempty r (.tail _ hr), hdisjoint⟩
    obtain ⟨root'', cls'', h''⟩ := ih h' hrest fun r hr hlayer r' hr' => by
      rcases List.mem_append.mp hr with hr | hr
      · exact hapart r hr hlayer r' (.tail _ hr')
      · exact List.mem_singleton.mp hr ▸ hfirst r' hr'
    exact ⟨root'', cls'', by simpa using h''⟩

/-- After a layer its marks are those of the last layer, and the next layer has none. -/
theorem Inv.next {i : ℕ} {nodes : List Region} {s : Clustering} {cls : Region → ℕ}
    (h : Inv W H i nodes s root cls) :
    Inv W H (i + 1) nodes { s with prevLab := s.lab, lab := fun _ => none } root cls where
  roots := h.roots
  perm := h.perm
  home := h.home
  classes := h.classes
  layers r hr := (h.layers r hr).trans (Nat.le_succ i)
  inside := h.inside
  prev :=
    { sound := fun p l hl => by
        obtain ⟨hlt, r, hr, hlayer, hp⟩ := h.cur.sound p l hl
        exact ⟨hlt, r, hr, by omega, hp⟩
      complete := fun r hr hlayer => h.cur.complete r hr (by omega) }
  cur :=
    { sound := fun p l hl => by cases hl
      complete := fun r hr hlayer => by
        have hle := h.layers r hr
        omega }

theorem Inv.start : Inv W H 0 [] .start id fun _ => 0 where
  roots := ⟨represents_id, fun x hx => hx, fun x _ => rfl⟩
  perm := .nil
  home id regs h := by cases h
  classes a ha := by cases ha
  layers r hr := by cases hr
  inside r hr := by cases hr
  prev := ⟨fun p l hl => (by cases hl), fun r hr => (by cases hr)⟩
  cur := ⟨fun p l hl => (by cases hl), fun r hr => (by cases hr)⟩

/-- The invariant holds after the layers of a part. -/
theorem clusterLayers_inv (part : PartRegions W H) : ∃ root cls, Inv W H part.layers.length
    part.layers.flatten { clusterLayers W H part.layers with lab := fun _ => none } root cls := by
  obtain ⟨layers, hok⟩ := part
  dsimp only
  induction layers using List.reverseRecOn with
  | nil => exact ⟨id, fun _ => 0, Inv.start⟩
  | append_singleton layers regs ih =>
    obtain ⟨root, cls, h⟩ := ih fun i regs' hregs' => hok i regs' (by
      rw [List.getElem?_append_left (List.getElem?_eq_some_iff.mp hregs').1]
      exact hregs')
    have hlast : LayerRegionsOk W H layers.length regs := hok _ regs (by simp)
    have hbefore : ∀ r ∈ layers.flatten, r.layerIdx ≠ layers.length := by
      intro r hr
      obtain ⟨regs', hregs', hr⟩ := List.mem_flatten.mp hr
      obtain ⟨i, hi, rfl⟩ := List.mem_iff_getElem.mp hregs'
      have hat := (hok i layers[i] (by
        rw [List.getElem?_append_left hi, List.getElem?_eq_getElem hi])).layerIdx r hr
      omega
    obtain ⟨root', cls', h'⟩ := h.foldl_add hlast fun r hr hlayer => absurd hlayer (hbefore r hr)
    refine ⟨root', cls', ?_⟩
    rw [clusterLayers, List.foldl_append, List.flatten_append, List.flatten_singleton,
      List.length_append]
    exact h'.next

/-! ## The groups of the clusters -/

theorem rooted_eq {n : ℕ} {uf root : ℕ → ℕ} (h : Roots n uf root) (id : ℕ)
    (clusters : List (List Region)) :
    rooted n uf id clusters = (clusters.zipIdx id).map fun c => (root c.2, c.1) := by
  induction clusters generalizing uf id with
  | nil => rfl
  | cons regs clusters ih =>
    obtain ⟨hroot, h'⟩ := h.find id
    rw [rooted, hroot, ih h', List.zipIdx_cons, List.map_cons]

theorem PartRegions.nodup (part : PartRegions W H) : part.layers.flatten.Nodup := by
  rw [List.nodup_flatten]
  constructor
  · intro regs hregs
    obtain ⟨i, hi, rfl⟩ := List.mem_iff_getElem.mp hregs
    have hok := part.ok i _ (List.getElem?_eq_getElem hi)
    refine hok.disjoint.imp_of_mem fun ha _ hdisjoint heq => ?_
    obtain ⟨p, hp⟩ := List.exists_mem_of_ne_nil _ (hok.nonempty _ ha)
    exact hdisjoint hp (heq ▸ hp)
  · rw [List.pairwise_iff_getElem]
    intro i j hi hj hij r hri hrj
    have hati := (part.ok i _ (List.getElem?_eq_getElem hi)).layerIdx r hri
    have hatj := (part.ok j _ (List.getElem?_eq_getElem hj)).layerIdx r hrj
    omega

/-- The groups are the classes of regions whose clusters have one representative. -/
theorem groups_classes {i : ℕ} {nodes : List Region} {layers : List (List Region)} {root : ℕ → ℕ}
    {cls : Region → ℕ}
    (h : Inv W H i nodes { clusterLayers W H layers with lab := fun _ => none } root cls) :
    (groups W H layers).flatten.Perm nodes ∧
      ∀ g ∈ groups W H layers, ∃ k, ∀ r, r ∈ g ↔ r ∈ nodes ∧ cls r = k := by
  have hrooted := rooted_eq h.roots 0 (clusterLayers W H layers).clusters
  have hbucket : ∀ r k, (∃ c ∈ (clusterLayers W H layers).clusters.zipIdx, root c.2 = k ∧ r ∈ c.1) ↔
      r ∈ nodes ∧ cls r = k := by
    intro r k
    constructor
    · rintro ⟨⟨regs, id⟩, hc, rfl, hr⟩
      have hget := List.mem_zipIdx_iff_getElem?.mp hc
      have hnode := List.mem_flatten.mpr ⟨regs, List.mem_of_getElem? hget, hr⟩
      exact ⟨h.perm.mem_iff.mp hnode, h.home id regs hget r hr⟩
    · rintro ⟨hr, rfl⟩
      obtain ⟨regs, hregs, hr⟩ := List.mem_flatten.mp (h.perm.mem_iff.mpr hr)
      obtain ⟨id, hid, rfl⟩ := List.mem_iff_getElem.mp hregs
      have hget := List.getElem?_eq_getElem hid
      exact ⟨(_, id), List.mem_zipIdx_iff_getElem?.mpr hget, (h.home id _ hget r hr).symm, hr⟩
  unfold groups
  dsimp only
  rw [hrooted]
  constructor
  · have hperm := (Grouping.groupBy_perm Prod.fst
      ((clusterLayers W H layers).clusters.zipIdx.map fun c => (root c.2, c.1))).flatMap_right
        Prod.snd
    rw [List.flatMap_assoc] at hperm
    refine hperm.trans ?_
    have hflat : ((clusterLayers W H layers).clusters.zipIdx.map fun c => (root c.2, c.1)).flatMap
        Prod.snd = (clusterLayers W H layers).clusters.flatten := by
      rw [List.flatMap_map, List.flatMap_def, List.zipIdx_map_fst]
    exact hflat ▸ h.perm
  · intro g hg
    obtain ⟨bucket, hbucketmem, rfl⟩ := List.mem_map.mp hg
    refine ⟨bucket.1, fun r => ?_⟩
    rw [← hbucket, List.mem_flatMap]
    have hitems := fun x => (Grouping.grouped Prod.fst
      ((clusterLayers W H layers).clusters.zipIdx.map fun c => (root c.2, c.1))).mem_iff
        hbucketmem (x := x)
    constructor
    · rintro ⟨x, hx, hr⟩
      obtain ⟨hx, hkey⟩ := (hitems x).mp hx
      obtain ⟨c, hc, rfl⟩ := List.mem_map.mp hx
      exact ⟨c, hc, hkey, hr⟩
    · rintro ⟨c, hc, hkey, hr⟩
      exact ⟨(root c.2, c.1), (hitems _).mpr ⟨List.mem_map.mpr ⟨c, hc, rfl⟩, hkey⟩, hr⟩

/-- The groups hold the regions of the part each once, and two regions are in one group exactly when
a chain of touching regions links them. -/
theorem groups_linked (part : PartRegions W H) :
    (groups W H part.layers).flatten.Nodup ∧
      (∀ a, (∃ g ∈ groups W H part.layers, a ∈ g) ↔ a ∈ part.layers.flatten) ∧
        ∀ a ∈ part.layers.flatten, ∀ b ∈ part.layers.flatten,
          (∃ g ∈ groups W H part.layers, a ∈ g ∧ b ∈ g) ↔
            Linked (Touch W) part.layers.flatten a b := by
  obtain ⟨root, cls, h⟩ := clusterLayers_inv part
  obtain ⟨hperm, hgroups⟩ := groups_classes h
  refine ⟨hperm.nodup_iff.mpr part.nodup, fun a => ?_, fun a ha b hb => ?_⟩
  · rw [← List.mem_flatten, hperm.mem_iff]
  · rw [← h.classes a ha b hb]
    constructor
    · rintro ⟨g, hg, hag, hbg⟩
      obtain ⟨k, hk⟩ := hgroups g hg
      rw [((hk a).mp hag).2, ((hk b).mp hbg).2]
    · intro heq
      obtain ⟨g, hg, hag⟩ := List.mem_flatten.mp (hperm.mem_iff.mpr ha)
      obtain ⟨k, hk⟩ := hgroups g hg
      exact ⟨g, hg, hag, (hk b).mpr ⟨hb, heq ▸ ((hk a).mp hag).2⟩⟩

end Overhang
end Batiste
