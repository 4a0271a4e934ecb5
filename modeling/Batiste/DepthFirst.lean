import Mathlib.Tactic

/-! Depth-first walks with one set of visited nodes and a limit on the depth.
A node that is met again is not expanded again, also where it is met at a smaller depth. -/
namespace Batiste
namespace DepthFirst

variable {α : Type*} (next : α → List α)

/-! ## Chains -/

/-- A chain of so many edges from one node to another. -/
inductive Chain : ℕ → α → α → Prop
  | nil (a : α) : Chain 0 a a
  | cons {n : ℕ} {a b c : α} (hab : b ∈ next a) (hbc : Chain n b c) : Chain (n + 1) a c

variable {next} in
theorem Chain.snoc {n : ℕ} {a b c : α} (h : Chain next n a b) (hbc : c ∈ next b) :
    Chain next (n + 1) a c := by
  induction h with
  | nil a => exact .cons hbc (.nil c)
  | cons hab _ ih => exact .cons hab (ih hbc)

/-- A chain that meets none of the given nodes. -/
inductive Avoiding (path : List α) : ℕ → α → α → Prop
  | nil {a : α} (ha : a ∉ path) : Avoiding path 0 a a
  | cons {n : ℕ} {a b c : α} (ha : a ∉ path) (hab : b ∈ next a) (hbc : Avoiding path n b c) :
      Avoiding path (n + 1) a c

section Chains

variable {next} {path : List α} {n : ℕ} {a b c : α}

theorem Avoiding.start (h : Avoiding next path n a c) : a ∉ path := by
  cases h with
  | nil ha => exact ha
  | cons ha _ _ => exact ha

theorem Avoiding.chain (h : Avoiding next path n a c) : Chain next n a c := by
  induction h with
  | nil _ => exact .nil _
  | cons _ hab _ ih => exact .cons hab ih

theorem Chain.avoiding_nil (h : Chain next n a c) : Avoiding next [] n a c := by
  induction h with
  | nil a => exact .nil List.not_mem_nil
  | cons hab _ ih => exact .cons List.not_mem_nil hab ih

/-- A chain avoids one node more, or some end of it begins there. -/
theorem Avoiding.split (h : Avoiding next path n b c) :
    Avoiding next (path ++ [a]) n b c ∨ ∃ m ≤ n, Avoiding next path m a c := by
  classical
  induction h with
  | @nil b hb =>
    by_cases hba : b = a
    · exact Or.inr ⟨0, le_rfl, hba ▸ .nil hb⟩
    · exact Or.inl (.nil (by simp [hb, hba]))
  | @cons n b d c hb hbd hdc ih =>
    by_cases hba : b = a
    · exact Or.inr ⟨n + 1, le_rfl, hba ▸ .cons hb hbd hdc⟩
    · rcases ih with havoid | ⟨m, hm, hend⟩
      · exact Or.inl (.cons (by simp [hb, hba]) hbd havoid)
      · exact Or.inr ⟨m, hm.trans (Nat.le_succ n), hend⟩

theorem chain_of_isChain {a b : α} {l : List α} (h : (a :: l).IsChain fun x y => y ∈ next x)
    (hlast : (a :: l).getLast? = some b) : Chain next l.length a b := by
  induction l generalizing a with
  | nil =>
    obtain rfl : a = b := by simpa using hlast
    exact .nil a
  | cons c l ih =>
    rw [List.isChain_cons_cons] at h
    rw [List.getLast?_cons_cons] at hlast
    exact .cons h.1 (ih h.2 hlast)

end Chains

/-! ## Passes over a list -/

section Passes

variable {σ β : Type*}

/-- Every step of a pass over a list is such a one. -/
def Along (step : σ → β → Option σ) (P : σ → β → Prop) : σ → List β → Prop
  | _, [] => True
  | s, b :: bs => P s b ∧ ∀ t, step s b = some t → Along step P t bs

theorem foldlM_cons_iff {step : σ → β → Option σ} {s u : σ} {b : β} {bs : List β} :
    List.foldlM step s (b :: bs) = some u ↔
      ∃ t, step s b = some t ∧ List.foldlM step t bs = some u := by
  rw [List.foldlM_cons]
  exact Option.bind_eq_some_iff

/-- What every step keeps holds behind the pass. -/
theorem foldlM_invariant {step : σ → β → Option σ} {I : σ → Prop} {bs : List β}
    (hI : ∀ s t, ∀ b ∈ bs, I s → step s b = some t → I t) {s u : σ} (hs : I s)
    (h : List.foldlM step s bs = some u) : I u := by
  induction bs generalizing s with
  | nil =>
    obtain rfl : s = u := by simpa using h
    exact hs
  | cons b bs ih =>
    obtain ⟨t, ht, hu⟩ := foldlM_cons_iff.mp h
    exact ih (fun s t c hc => hI s t c (List.mem_cons_of_mem b hc))
      (hI s t b List.mem_cons_self hs ht) hu

/-- What each step adds about its element, and no step takes away, holds of all of them behind the
pass. -/
theorem foldlM_collect {step : σ → β → Option σ} {I : σ → Prop} {P : β → σ → Prop} {bs : List β}
    {s u : σ} (h : List.foldlM step s bs = some u) (hs : I s)
    (hstep : ∀ s t, ∀ b ∈ bs, I s → step s b = some t → I t ∧ P b t)
    (hkeep : ∀ s t b c, step s b = some t → P c s → P c t) : I u ∧ ∀ b ∈ bs, P b u := by
  induction bs generalizing s with
  | nil =>
    obtain rfl : s = u := by simpa using h
    exact ⟨hs, by simp⟩
  | cons b bs ih =>
    obtain ⟨t, ht, hu⟩ := foldlM_cons_iff.mp h
    obtain ⟨hI, hb⟩ := hstep s t b List.mem_cons_self hs ht
    obtain ⟨hlast, hall⟩ := ih hu hI fun s t c hc => hstep s t c (List.mem_cons_of_mem b hc)
    refine ⟨hlast, fun c hc => ?_⟩
    rcases List.mem_cons.mp hc with rfl | hc
    · exact foldlM_invariant (I := P c) (fun s t b _ hs ht => hkeep s t b c ht hs) hb hu
    · exact hall c hc

/-- A pass whose steps all succeed from the states it reaches succeeds. -/
theorem foldlM_total {step : σ → β → Option σ} {I : σ → Prop} {bs : List β}
    (hI : ∀ s, ∀ b ∈ bs, I s → ∃ t, step s b = some t ∧ I t) {s : σ} (hs : I s) :
    ∃ u, List.foldlM step s bs = some u ∧ I u := by
  induction bs generalizing s with
  | nil => exact ⟨s, rfl, hs⟩
  | cons b bs ih =>
    obtain ⟨t, ht, hIt⟩ := hI s b List.mem_cons_self hs
    obtain ⟨u, hu, hIu⟩ := ih (fun s c hc => hI s c (List.mem_cons_of_mem b hc)) hIt
    exact ⟨u, foldlM_cons_iff.mpr ⟨t, ht, hu⟩, hIu⟩

/-- Two passes step by step: what the states of one show is a state of the other. -/
theorem foldlM_map {τ : Type*} {step : σ → β → Option σ} {step' : τ → β → Option τ} {f : σ → τ}
    {I : σ → Prop} {bs : List β}
    (h : ∀ s, ∀ b ∈ bs, I s → (step s b).map f = step' (f s) b ∧ ∀ t, step s b = some t → I t)
    {s : σ} (hs : I s) :
    (List.foldlM step s bs).map f = List.foldlM step' (f s) bs ∧
      ∀ t, List.foldlM step s bs = some t → I t := by
  induction bs generalizing s with
  | nil =>
    refine ⟨rfl, fun t ht => ?_⟩
    obtain rfl : s = t := by simpa using ht
    exact hs
  | cons b bs ih =>
    obtain ⟨hmap, hI⟩ := h s b List.mem_cons_self hs
    rw [List.foldlM_cons, List.foldlM_cons, ← hmap]
    cases hstep : step s b with
    | none => exact ⟨rfl, fun t ht => absurd ht (by simp)⟩
    | some t => exact ih (fun s c hc => h s c (List.mem_cons_of_mem b hc)) (hI t hstep)

/-- The step of a pass at one of the elements. -/
theorem foldlM_at {step : σ → β → Option σ} {P : σ → β → Prop} {bs : List β} {s u : σ}
    (h : List.foldlM step s bs = some u) (hP : Along step P s bs) {b : β} (hb : b ∈ bs) :
    ∃ t v rest, step t b = some v ∧ P t b ∧ List.foldlM step v rest = some u := by
  induction bs generalizing s with
  | nil => exact absurd hb List.not_mem_nil
  | cons c bs ih =>
    obtain ⟨t, ht, hu⟩ := foldlM_cons_iff.mp h
    rcases List.mem_cons.mp hb with rfl | hb
    · exact ⟨s, t, bs, ht, hP.1, hu⟩
    · exact ih hu (hP.2 t ht) hb

theorem Along.of_forall {step : σ → β → Option σ} {P : σ → β → Prop} {bs : List β}
    (h : ∀ s, ∀ b ∈ bs, P s b) (s : σ) : Along step P s bs := by
  induction bs generalizing s with
  | nil => trivial
  | cons b bs ih =>
    exact ⟨h s b List.mem_cons_self,
      fun t _ => ih (fun s c hc => h s c (List.mem_cons_of_mem b hc)) t⟩

end Passes

/-! ## The walk -/

section Walk

variable [DecidableEq α] (tooDeep : ℕ → Bool)

/-- Visit a node at the end of a path: the nodes visited so far come back with those that are
new.  Without fuel the walk fails. -/
def visit : ℕ → List α → ℕ → List α → α → Option (List α)
  | 0, _, _, _, _ => none
  | fuel + 1, path, depth, visited, a =>
    if tooDeep depth then some visited
    else if a ∈ path then some visited
    else if a ∈ visited then some visited
    else (next a).foldlM (visit fuel (path ++ [a]) (depth + 1)) (visited ++ [a])

/-- Visit the nodes of a list from outside. -/
def visitAll (fuel : ℕ) (entries : List α) : Option (List α) :=
  entries.foldlM (visit next tooDeep fuel [] 0) []

variable {next tooDeep}

theorem visit_mono {fuel depth : ℕ} {path visited seen : List α} {a : α}
    (h : visit next tooDeep fuel path depth visited a = some seen) : visited ⊆ seen := by
  induction fuel generalizing path depth visited seen a with
  | zero => exact absurd h (by simp [visit])
  | succ fuel ih =>
    rw [visit] at h
    split at h
    · rw [Option.some.inj h]
      exact List.Subset.refl seen
    split at h
    · rw [Option.some.inj h]
      exact List.Subset.refl seen
    split at h
    · rw [Option.some.inj h]
      exact List.Subset.refl seen
    refine foldlM_invariant (I := fun seen => visited ⊆ seen) ?_ (by simp) h
    intro s t b _ hs ht
    exact List.Subset.trans hs (ih ht)

theorem foldlM_visit_mono {fuel depth : ℕ} {path visited seen rest : List α}
    (h : rest.foldlM (visit next tooDeep fuel path depth) visited = some seen) :
    visited ⊆ seen :=
  foldlM_invariant (I := fun s => visited ⊆ s)
    (fun _ _ _ _ hs ht => List.Subset.trans hs (visit_mono ht)) (List.Subset.refl visited) h

/-- How many nodes the walk may still enter. -/
def room (nodes visited : List α) : ℕ := (nodes.filter (· ∉ visited)).length

theorem room_anti {nodes visited seen : List α} (h : visited ⊆ seen) :
    room nodes seen ≤ room nodes visited := by
  refine (List.monotone_filter_right nodes ?_).length_le
  intro b hb
  simp only [decide_eq_true_eq] at hb ⊢
  exact fun hvisited => hb (h hvisited)

theorem room_lt {nodes visited : List α} {a : α} (ha : a ∈ nodes) (hvisited : a ∉ visited) :
    room nodes (visited ++ [a]) < room nodes visited := by
  have hsplit : nodes.filter (· ∉ visited ++ [a]) =
      (nodes.filter (· ∉ visited)).filter (· ≠ a) := by
    rw [List.filter_filter]
    apply List.filter_congr
    intro b _
    simp [and_comm]
  rw [room, hsplit]
  refine List.length_filter_lt_length_iff_exists.mpr ⟨a, ?_, by simp⟩
  exact List.mem_filter.mpr ⟨ha, by simpa using hvisited⟩

/-- With more fuel than there are nodes left to enter, the walk does not fail. -/
theorem visit_total {nodes : List α} (hnext : ∀ a ∈ nodes, ∀ b ∈ next a, b ∈ nodes)
    {fuel depth : ℕ} {path visited : List α} {a : α} (ha : a ∈ nodes)
    (hfuel : room nodes visited < fuel) :
    ∃ seen, visit next tooDeep fuel path depth visited a = some seen := by
  induction fuel generalizing path depth visited a with
  | zero => exact absurd hfuel (Nat.not_lt_zero _)
  | succ fuel ih =>
    rw [visit]
    split
    · exact ⟨visited, rfl⟩
    split
    · exact ⟨visited, rfl⟩
    split
    · exact ⟨visited, rfl⟩
    rename_i hvisited
    have hless := room_lt ha hvisited
    have hstep : ∀ s, ∀ b ∈ next a, room nodes s < fuel →
        ∃ t, visit next tooDeep fuel (path ++ [a]) (depth + 1) s b = some t ∧
          room nodes t < fuel := by
      intro s b hb hs
      obtain ⟨t, ht⟩ := ih (hnext a ha b hb) hs
      exact ⟨t, ht, lt_of_le_of_lt (room_anti (visit_mono ht)) hs⟩
    obtain ⟨seen, hseen, -⟩ := foldlM_total hstep (s := visited ++ [a]) (by omega)
    exact ⟨seen, hseen⟩

theorem visitAll_total (next : α → List α) (tooDeep : ℕ → Bool) (nodes : List α) (fuel : ℕ)
    (hnext : ∀ a ∈ nodes, ∀ b ∈ next a, b ∈ nodes) {entries : List α}
    (hentries : ∀ a ∈ entries, a ∈ nodes) (hfuel : nodes.length < fuel) :
    ∃ seen, visitAll next tooDeep fuel entries = some seen := by
  have hroom : room nodes [] < fuel := lt_of_le_of_lt (List.length_filter_le _ _) hfuel
  have hstep : ∀ s, ∀ a ∈ entries, room nodes s < fuel →
      ∃ t, visit next tooDeep fuel [] 0 s a = some t ∧ room nodes t < fuel := by
    intro s a ha hs
    obtain ⟨t, ht⟩ := visit_total hnext
      (hentries a ha) hs
    exact ⟨t, ht, lt_of_le_of_lt (room_anti (visit_mono ht)) hs⟩
  obtain ⟨seen, hseen, -⟩ := foldlM_total hstep hroom
  exact ⟨seen, hseen⟩

/-! ## What the walk enters -/

/-- Whatever is entered is at the end of a chain within the limit. -/
theorem visit_sound {fuel depth : ℕ} {path visited seen : List α} {a g : α}
    (h : visit next tooDeep fuel path depth visited a = some seen) (hg : g ∈ seen) :
    g ∈ visited ∨ ∃ n, Chain next n a g ∧ tooDeep (depth + n) = false := by
  induction fuel generalizing path depth visited seen a g with
  | zero => exact absurd h (by simp [visit])
  | succ fuel ih =>
    rw [visit] at h
    split at h
    · exact Or.inl (Option.some.inj h ▸ hg)
    rename_i hdepth
    split at h
    · exact Or.inl (Option.some.inj h ▸ hg)
    split at h
    · exact Or.inl (Option.some.inj h ▸ hg)
    have hfound := foldlM_invariant
      (I := fun s => ∀ g ∈ s, g ∈ visited ∨ ∃ n, Chain next n a g ∧ tooDeep (depth + n) = false)
      (fun s t b hb hs ht g hg => by
        rcases ih ht hg with hold | ⟨n, hchain, hdeep⟩
        · exact hs g hold
        · exact Or.inr ⟨n + 1, .cons hb hchain, by rwa [Nat.add_comm n, ← Nat.add_assoc]⟩)
      (fun g hg => by
        rcases List.mem_append.mp hg with hg | hg
        · exact Or.inl hg
        · rw [List.mem_singleton.mp hg]
          exact Or.inr ⟨0, .nil a, by simpa using hdepth⟩) h
    exact hfound g hg

variable (next tooDeep) in
/-- A wanted node that a chain within the limit leads to from a node at this depth. -/
def Owed (wanted : α → Prop) (depth : ℕ) (a g : α) : Prop :=
  wanted g ∧ ∃ n, Chain next n a g ∧ tooDeep (depth + n) = false

variable (next tooDeep) in
/-- Wherever the walk does not expand a node because it was visited before, what it owes there has
been visited too, or is among the extra nodes. -/
def Keeps (wanted extra : α → Prop) : ℕ → List α → ℕ → List α → α → Prop
  | 0, _, _, _, _ => True
  | fuel + 1, path, depth, visited, a =>
    if tooDeep depth then True
    else if a ∈ path then True
    else if a ∈ visited then ∀ g, Owed next tooDeep wanted depth a g → g ∈ visited ∨ extra g
    else
      Along (visit next tooDeep fuel (path ++ [a]) (depth + 1))
        (Keeps wanted extra fuel (path ++ [a]) (depth + 1)) (visited ++ [a]) (next a)

variable (next tooDeep) in
def KeepsAll (wanted extra : α → Prop) (fuel : ℕ) (entries : List α) : Prop :=
  Along (visit next tooDeep fuel [] 0) (Keeps next tooDeep wanted extra fuel [] 0) [] entries

/-- A walk that keeps what it owes enters every wanted node at the end of a chain within the limit,
as long as the chain avoids the nodes that are still being expanded. -/
theorem visit_complete (hdeep : ∀ m n, m ≤ n → tooDeep n = false → tooDeep m = false)
    {wanted extra : α → Prop} {fuel depth : ℕ} {path visited seen : List α} {a : α}
    (h : visit next tooDeep fuel path depth visited a = some seen)
    (hkeeps : Keeps next tooDeep wanted extra fuel path depth visited a) {n : ℕ} {g : α}
    (hchain : Avoiding next path n a g) (hlimit : tooDeep (depth + n) = false)
    (hwanted : wanted g) : g ∈ seen ∨ extra g := by
  induction fuel generalizing path depth visited seen a n g with
  | zero => exact absurd h (by simp [visit])
  | succ fuel ih =>
    rw [visit] at h
    rw [Keeps] at hkeeps
    have hdepth : tooDeep depth = false := hdeep _ _ (Nat.le_add_right depth n) hlimit
    rw [if_neg (by simp [hdepth]), if_neg hchain.start] at h hkeeps
    split at h
    case isTrue hvisited =>
      rw [if_pos hvisited] at hkeeps
      rw [← Option.some.inj h]
      exact hkeeps g ⟨hwanted, n, hchain.chain, hlimit⟩
    case isFalse hvisited =>
      rw [if_neg hvisited] at hkeeps
      -- a chain that comes back to the node is cut to its last visit there
      induction n using Nat.strong_induction_on generalizing g with
      | _ n cut =>
        cases hchain with
        | nil _ => exact Or.inl (foldlM_visit_mono h (by simp))
        | @cons n _ b _ ha hab hbc =>
          rcases hbc.split (a := a) with havoid | ⟨m, hm, hback⟩
          · obtain ⟨t, v, rest, hstep, hkept, hrest⟩ := foldlM_at h hkeeps hab
            have hlimit' : tooDeep (depth + 1 + n) = false := by
              rwa [Nat.add_assoc, Nat.add_comm 1 n]
            exact (ih hstep hkept havoid hlimit' hwanted).imp_left fun hg =>
              foldlM_visit_mono hrest hg
          · exact cut m (by omega) hback (hdeep _ _ (by omega) hlimit) hwanted

/-- Where everything owed is among the extra nodes anyway, nothing is lost. -/
theorem keeps_of_owed {wanted extra : α → Prop} {fuel depth : ℕ} {path visited : List α} {a : α}
    (h : ∀ g, Owed next tooDeep wanted depth a g → extra g) :
    Keeps next tooDeep wanted extra fuel path depth visited a := by
  induction fuel generalizing path depth visited a with
  | zero => trivial
  | succ fuel ih =>
    rw [Keeps]
    split
    · trivial
    split
    · trivial
    split
    · exact fun g hg => Or.inr (h g hg)
    refine Along.of_forall (fun s b hb => ih ?_) _
    rintro g ⟨hwanted, n, hchain, hlimit⟩
    exact h g ⟨hwanted, n + 1, .cons hb hchain, by rwa [Nat.add_comm n, ← Nat.add_assoc]⟩

/-! ## The walk as a whole -/

variable (next tooDeep) in
/-- A wanted node that a chain within the limit leads to from one of the entries. -/
def Reached (wanted : α → Prop) (entries : List α) (g : α) : Prop :=
  ∃ a ∈ entries, Owed next tooDeep wanted 0 a g

theorem visitAll_sound {fuel : ℕ} {entries seen : List α}
    (h : visitAll next tooDeep fuel entries = some seen) {wanted : α → Prop} {g : α} (hg : g ∈ seen)
    (hwanted : wanted g) : Reached next tooDeep wanted entries g := by
  have hall := foldlM_invariant
    (I := fun s => ∀ g ∈ s, ∃ a ∈ entries, ∃ n, Chain next n a g ∧ tooDeep (0 + n) = false)
    (fun s t a ha hs ht g hg => (visit_sound ht hg).elim (hs g) fun hnew => ⟨a, ha, hnew⟩)
    (fun g hg => absurd hg List.not_mem_nil) h
  obtain ⟨a, ha, hchain⟩ := hall g hg
  exact ⟨a, ha, hwanted, hchain⟩

theorem visitAll_complete (hdeep : ∀ m n, m ≤ n → tooDeep n = false → tooDeep m = false)
    {wanted extra : α → Prop} {fuel : ℕ} {entries seen : List α}
    (h : visitAll next tooDeep fuel entries = some seen)
    (hkeeps : KeepsAll next tooDeep wanted extra fuel entries) {g : α}
    (hg : Reached next tooDeep wanted entries g) : g ∈ seen ∨ extra g := by
  obtain ⟨a, ha, hwanted, n, hchain, hlimit⟩ := hg
  obtain ⟨t, v, rest, hstep, hkept, hrest⟩ := foldlM_at h hkeeps ha
  refine (visit_complete hdeep hstep hkept hchain.avoiding_nil hlimit hwanted).imp_left ?_
  exact fun hv => foldlM_visit_mono hrest hv

/-- The wanted nodes that are entered are exactly those within the limit, if and only if every
node that is not expanded again owes only nodes that are entered at some time. -/
theorem visitAll_exact_iff (hdeep : ∀ m n, m ≤ n → tooDeep n = false → tooDeep m = false)
    {wanted : α → Prop} (extra : α → Prop) {fuel : ℕ} {entries seen : List α}
    (h : visitAll next tooDeep fuel entries = some seen)
    (hextra : ∀ g, wanted g → (extra g ↔ g ∈ seen)) :
    (∀ g, g ∈ seen ∧ wanted g ↔ Reached next tooDeep wanted entries g) ↔
      KeepsAll next tooDeep wanted extra fuel entries := by
  constructor
  · intro hexact
    refine Along.of_forall (fun s a ha => keeps_of_owed fun g hg => ?_) _
    exact (hextra g hg.1).mpr ((hexact g).mpr ⟨a, ha, hg⟩).1
  · intro hkeeps g
    refine ⟨fun hg => visitAll_sound h hg.1 hg.2, fun hg => ?_⟩
    have hfound := visitAll_complete hdeep h hkeeps hg
    obtain ⟨a, -, hwanted, -⟩ := hg
    exact ⟨hfound.elim id (hextra g hwanted).mp, hwanted⟩

theorem visitAll_exact (hdeep : ∀ m n, m ≤ n → tooDeep n = false → tooDeep m = false)
    {wanted : α → Prop} {fuel : ℕ} {entries seen : List α}
    (h : visitAll next tooDeep fuel entries = some seen)
    (hkeeps : KeepsAll next tooDeep wanted (fun _ => False) fuel entries) (g : α) :
    g ∈ seen ∧ wanted g ↔ Reached next tooDeep wanted entries g := by
  refine ⟨fun hg => visitAll_sound h hg.1 hg.2, fun hg => ?_⟩
  have hseen := (visitAll_complete hdeep h hkeeps hg).resolve_right id
  obtain ⟨a, -, hwanted, -⟩ := hg
  exact ⟨hseen, hwanted⟩

end Walk
end DepthFirst
end Batiste
