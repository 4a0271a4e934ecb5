import Mathlib.Data.List.Basic
import Mathlib.Data.List.Nodup
import Mathlib.Data.List.Induction
import Mathlib.Data.List.Perm.Basic

/-! Items put one after another into buckets by a key. -/
namespace Batiste
namespace Grouping

variable {κ α : Type*} [DecidableEq κ]

/-- The item goes to the bucket of its key, or to a new one at the end. -/
def pushTo (groups : List (κ × List α)) (key : κ) (x : α) : List (κ × List α) :=
  if groups.any fun g => decide (g.1 = key) then
    groups.map fun g => if g.1 = key then (g.1, g.2 ++ [x]) else g
  else groups ++ [(key, [x])]

def groupBy (key : α → κ) (xs : List α) : List (κ × List α) :=
  xs.foldl (fun groups x => pushTo groups (key x) x) []

/-- Every key has one bucket, with the items of that key in their order. -/
structure Grouped (key : α → κ) (xs : List α) (groups : List (κ × List α)) : Prop where
  keys : (groups.map Prod.fst).Nodup
  items : ∀ g ∈ groups, g.2 = xs.filter (fun x => decide (key x = g.1)) ∧ g.2 ≠ []
  covers : ∀ x ∈ xs, key x ∈ groups.map Prod.fst

theorem grouped_push {key : α → κ} {xs : List α} {groups : List (κ × List α)}
    (h : Grouped key xs groups) (x : α) :
    Grouped key (xs ++ [x]) (pushTo groups (key x) x) := by
  unfold pushTo
  split
  case isTrue hold =>
    have hkeys : (groups.map fun g => if g.1 = key x then (g.1, g.2 ++ [x]) else g).map Prod.fst =
        groups.map Prod.fst := by
      rw [List.map_map]
      refine List.map_congr_left fun g _ => ?_
      by_cases hg : g.1 = key x <;> simp [hg]
    have hx : key x ∈ groups.map Prod.fst := by
      obtain ⟨g, hg, hkey⟩ := List.any_eq_true.mp hold
      exact List.mem_map.mpr ⟨g, hg, of_decide_eq_true hkey⟩
    refine ⟨hkeys ▸ h.keys, fun g' hg' => ?_, fun y hy => ?_⟩
    · obtain ⟨g, hg, rfl⟩ := List.mem_map.mp hg'
      obtain ⟨hitems, hne⟩ := h.items g hg
      by_cases hkey : g.1 = key x
      · simp [hkey, hitems]
      · rw [if_neg hkey, List.filter_append, hitems.symm]
        exact ⟨by simp [Ne.symm hkey], hne⟩
    · rw [hkeys]
      rcases List.mem_append.mp hy with hy | hy
      · exact h.covers y hy
      · exact List.mem_singleton.mp hy ▸ hx
  case isFalse hnew =>
    have hx : key x ∉ groups.map Prod.fst := by
      intro hmem
      obtain ⟨g, hg, hkey⟩ := List.mem_map.mp hmem
      exact hnew (List.any_eq_true.mpr ⟨g, hg, decide_eq_true hkey⟩)
    refine ⟨?_, fun g hg => ?_, fun y hy => ?_⟩
    · rw [List.map_append, List.nodup_append]
      refine ⟨h.keys, by simp, ?_⟩
      rintro k hk _ hk' rfl
      have heq : k = key x := by simpa using hk'
      exact hx (heq ▸ hk)
    · rcases List.mem_append.mp hg with hg | hg
      · have hkey : g.1 ≠ key x := fun heq => hx (heq ▸ List.mem_map_of_mem hg)
        obtain ⟨hitems, hne⟩ := h.items g hg
        exact ⟨by simp [Ne.symm hkey, hitems], hne⟩
      · obtain rfl := List.mem_singleton.mp hg
        have hnone : xs.filter (fun y => decide (key y = key x)) = [] := by
          rw [List.filter_eq_nil_iff]
          exact fun y hy hkey => hx (of_decide_eq_true hkey ▸ h.covers y hy)
        simp [hnone]
    · rw [List.map_append, List.mem_append]
      rcases List.mem_append.mp hy with hy | hy
      · exact Or.inl (h.covers y hy)
      · exact Or.inr (by simp [List.mem_singleton.mp hy])

theorem grouped (key : α → κ) (xs : List α) : Grouped key xs (groupBy key xs) := by
  induction xs using List.reverseRecOn with
  | nil => exact ⟨by simp [groupBy], by simp [groupBy], by simp⟩
  | append_singleton xs x ih =>
    rw [groupBy, List.foldl_append]
    exact grouped_push ih x

theorem Grouped.mem_iff {key : α → κ} {xs : List α} {groups : List (κ × List α)}
    (h : Grouped key xs groups) {g : κ × List α} (hg : g ∈ groups) {x : α} :
    x ∈ g.2 ↔ x ∈ xs ∧ key x = g.1 := by
  rw [(h.items g hg).1, List.mem_filter, decide_eq_true_eq]

/-- Items of one key are in one bucket. -/
theorem Grouped.unique {key : α → κ} {xs : List α} {groups : List (κ × List α)}
    (h : Grouped key xs groups) {g g' : κ × List α} (hg : g ∈ groups) (hg' : g' ∈ groups) {x y : α}
    (hx : x ∈ g.2) (hy : y ∈ g'.2) (hkey : key x = key y) : g = g' := by
  rw [h.mem_iff hg] at hx
  rw [h.mem_iff hg'] at hy
  exact List.inj_on_of_nodup_map h.keys hg hg' (hx.2.symm.trans (hkey.trans hy.2))

/-! ## The items of all buckets -/

theorem flatMap_append_perm {groups : List (κ × List α)} {key : κ}
    (hkeys : (groups.map Prod.fst).Nodup) (h : key ∈ groups.map Prod.fst) (x : α) :
    ((groups.map fun g => if g.1 = key then (g.1, g.2 ++ [x]) else g).flatMap Prod.snd).Perm
      (groups.flatMap Prod.snd ++ [x]) := by
  induction groups with
  | nil => exact absurd h List.not_mem_nil
  | cons g groups ih =>
    rw [List.map_cons, List.nodup_cons] at hkeys
    rw [List.map_cons, List.flatMap_cons, List.flatMap_cons]
    by_cases hg : g.1 = key
    · have hother : ∀ g' ∈ groups, g'.1 ≠ key := fun g' hg' heq =>
        hkeys.1 (hg ▸ heq ▸ List.mem_map_of_mem hg')
      have hsame : (groups.map fun g => if g.1 = key then (g.1, g.2 ++ [x]) else g) = groups :=
        (List.map_congr_left fun g' hg' => if_neg (hother g' hg')).trans (List.map_id' groups)
      rw [hsame, if_pos hg, List.append_assoc, List.append_assoc]
      exact List.Perm.append_left _ List.perm_append_comm
    · have hmem : key ∈ groups.map Prod.fst := by
        rcases List.mem_cons.mp h with heq | h
        · exact absurd heq.symm hg
        · exact h
      rw [if_neg hg, List.append_assoc]
      exact (ih hkeys.2 hmem).append_left _

/-- The buckets hold the items. -/
theorem groupBy_perm (key : α → κ) (xs : List α) :
    ((groupBy key xs).flatMap Prod.snd).Perm xs := by
  induction xs using List.reverseRecOn with
  | nil => exact .refl _
  | append_singleton xs x ih =>
    rw [groupBy, List.foldl_append, ← groupBy]
    show ((pushTo (groupBy key xs) (key x) x).flatMap Prod.snd).Perm _
    unfold pushTo
    split
    case isTrue hold =>
      obtain ⟨g, hg, hkey⟩ := List.any_eq_true.mp hold
      exact (flatMap_append_perm (grouped key xs).keys
        (of_decide_eq_true hkey ▸ List.mem_map_of_mem hg) x).trans (ih.append_right _)
    case isFalse =>
      rw [List.flatMap_append]
      exact ih.append_right _

/-! ## Grouping again, and grouping in another order -/

theorem pushTo_new {groups : List (κ × List α)} {key : κ} (h : key ∉ groups.map Prod.fst) (x : α) :
    pushTo groups key x = groups ++ [(key, [x])] := by
  refine if_neg ?_
  simpa using h

theorem pushTo_last {groups : List (κ × List α)} {key : κ} (h : key ∉ groups.map Prod.fst)
    (ys : List α) (x : α) :
    pushTo (groups ++ [(key, ys)]) key x = groups ++ [(key, ys ++ [x])] := by
  rw [pushTo, if_pos (by simp), List.map_append]
  congr 1
  · have hother : ∀ g ∈ groups, g.1 ≠ key := fun g hg heq => h (heq ▸ List.mem_map_of_mem hg)
    refine (List.map_congr_left fun g hg => if_neg (hother g hg)).trans ?_
    exact List.map_id' groups
  · simp

theorem foldl_pushTo_last {key : α → κ} {groups : List (κ × List α)} {k : κ}
    (hk : k ∉ groups.map Prod.fst) (ys : List α) {xs : List α} (hxs : ∀ x ∈ xs, key x = k) :
    xs.foldl (fun groups x => pushTo groups (key x) x) (groups ++ [(k, ys)]) =
      groups ++ [(k, ys ++ xs)] := by
  induction xs generalizing ys with
  | nil => simp
  | cons x xs ih =>
    rw [List.forall_mem_cons] at hxs
    rw [List.foldl_cons, hxs.1, pushTo_last hk, ih (ys ++ [x]) hxs.2]
    simp

/-- Buckets laid one after another group into the same buckets. -/
theorem groupBy_flatMap {β : Type*} {key : α → κ} {bucket : β → List α} {name : β → κ} {bs : List β}
    (hnames : (bs.map name).Nodup) (hne : ∀ b ∈ bs, bucket b ≠ [])
    (hkey : ∀ b ∈ bs, ∀ x ∈ bucket b, key x = name b) :
    groupBy key (bs.flatMap bucket) = bs.map fun b => (name b, bucket b) := by
  induction bs using List.reverseRecOn with
  | nil => rfl
  | append_singleton bs b ih =>
    rw [List.map_append, List.nodup_append] at hnames
    simp only [List.forall_mem_append, List.forall_mem_singleton] at hne hkey
    have hnew : name b ∉ (bs.map fun b => (name b, bucket b)).map Prod.fst := by
      rw [List.map_map]
      exact fun hmem => hnames.2.2 (name b) hmem (name b) (by simp) rfl
    rw [List.flatMap_append, List.flatMap_singleton, groupBy, List.foldl_append, ← groupBy,
      ih hnames.1 hne.1 hkey.1, List.map_append]
    cases hb : bucket b with
    | nil => exact absurd hb hne.2
    | cons x xs =>
      rw [hb, List.forall_mem_cons] at hkey
      rw [List.foldl_cons, hkey.2.1, pushTo_new hnew, foldl_pushTo_last hnew [x] hkey.2.2]
      simp [hb]

theorem groupBy_eq (key : α → κ) (xs : List α) :
    groupBy key xs = ((groupBy key xs).map Prod.fst).map
      fun k => (k, xs.filter fun x => decide (key x = k)) := by
  rw [List.map_map]
  refine (List.map_id' _).symm.trans (List.map_congr_left fun g hg => ?_)
  exact Prod.ext rfl ((grouped key xs).items g hg).1

theorem mem_keys_iff {key : α → κ} {xs : List α} {k : κ} :
    k ∈ (groupBy key xs).map Prod.fst ↔ ∃ x ∈ xs, key x = k := by
  constructor
  · intro hk
    obtain ⟨g, hg, rfl⟩ := List.mem_map.mp hk
    obtain ⟨x, hx⟩ := List.exists_mem_of_ne_nil _ ((grouped key xs).items g hg).2
    exact ⟨x, ((grouped key xs).mem_iff hg).mp hx⟩
  · rintro ⟨x, hx, rfl⟩
    exact (grouped key xs).covers x hx

/-- What is made of the buckets does not depend on the order of the items, where what is made of one
does not. -/
theorem flatMap_groupBy_perm {β : Type*} {key : α → κ} {xs ys : List α} (h : xs.Perm ys)
    {f : κ × List α → List β}
    (hf : ∀ k (zs ws : List α), zs.Perm ws → (f (k, zs)).Perm (f (k, ws))) :
    ((groupBy key xs).flatMap f).Perm ((groupBy key ys).flatMap f) := by
  have hkeys : ((groupBy key xs).map Prod.fst).Perm ((groupBy key ys).map Prod.fst) := by
    rw [List.perm_ext_iff_of_nodup (grouped key xs).keys (grouped key ys).keys]
    intro k
    rw [mem_keys_iff, mem_keys_iff]
    simp only [h.mem_iff]
  have hflat : ∀ zs : List α, (groupBy key zs).flatMap f =
      ((groupBy key zs).map Prod.fst).flatMap
        fun k => f (k, zs.filter fun x => decide (key x = k)) := by
    intro zs
    conv_lhs => rw [groupBy_eq key zs]
    rw [List.flatMap_map]
  rw [hflat, hflat]
  refine (hkeys.flatMap_right _).trans (List.Perm.flatMap_left _ fun k _ => ?_)
  exact hf k _ _ (h.filter _)

/-! ## Keys through a function, and the items of some buckets -/

theorem pushTo_map {κ' : Type*} [DecidableEq κ'] {f : κ → κ'} {groups : List (κ × List α)} {k : κ}
    (hinj : ∀ g ∈ groups, f g.1 = f k → g.1 = k) (x : α) :
    pushTo (groups.map fun g => (f g.1, g.2)) (f k) x =
      (pushTo groups k x).map fun g => (f g.1, g.2) := by
  have hiff : ∀ g ∈ groups, (f g.1 = f k) = (g.1 = k) := fun g hg =>
    propext ⟨hinj g hg, congrArg f⟩
  have hany : ((groups.map fun g => (f g.1, g.2)).any fun g => decide (g.1 = f k)) =
      groups.any fun g => decide (g.1 = k) := by
    rw [List.any_map, Bool.eq_iff_iff, List.any_eq_true, List.any_eq_true]
    refine exists_congr fun g => and_congr_right fun hg => ?_
    rw [Function.comp_apply, decide_eq_true_eq, decide_eq_true_eq, hiff g hg]
  unfold pushTo
  rw [hany]
  split
  case isTrue =>
    rw [List.map_map, List.map_map]
    refine List.map_congr_left fun g hg => ?_
    by_cases hk : g.1 = k
    · simp [hk]
    · simp [hiff g hg, hk]
  case isFalse => simp

theorem groupBy_snoc (key : α → κ) (xs : List α) (x : α) :
    groupBy key (xs ++ [x]) = pushTo (groupBy key xs) (key x) x := by
  rw [groupBy, List.foldl_append]
  rfl

/-- Grouping by a function of the keys that tells them apart. -/
theorem groupBy_comp {κ' : Type*} [DecidableEq κ'] {key : α → κ} {f : κ → κ'} {xs : List α}
    (hinj : ∀ x ∈ xs, ∀ y ∈ xs, f (key x) = f (key y) → key x = key y) :
    groupBy (fun x => f (key x)) xs = (groupBy key xs).map fun g => (f g.1, g.2) := by
  induction xs using List.reverseRecOn with
  | nil => rfl
  | append_singleton xs x ih =>
    have hrest := ih fun y hy z hz =>
      hinj y (List.mem_append_left _ hy) z (List.mem_append_left _ hz)
    rw [groupBy_snoc, groupBy_snoc, hrest]
    refine pushTo_map (fun g hg hkey => ?_) x
    obtain ⟨y, hy, hyg⟩ := mem_keys_iff.mp (List.mem_map_of_mem hg)
    rw [← hyg] at hkey ⊢
    exact hinj y (List.mem_append_left _ hy) x (by simp) hkey

theorem flatMap_single {β : Type*} {ks : List κ} {k : κ} {f : κ → List β} (hks : ks.Nodup)
    (hf : ∀ j ∈ ks, j ≠ k → f j = []) : ks.flatMap f = if k ∈ ks then f k else [] := by
  induction ks with
  | nil => simp
  | cons j ks ih =>
    rw [List.nodup_cons] at hks
    rw [List.forall_mem_cons] at hf
    rw [List.flatMap_cons, ih hks.2 hf.2]
    by_cases hj : j = k
    · subst hj
      simp [hks.1]
    · simp [hf.1 hj, Ne.symm hj]

/-- Items of one key, looked for in the buckets that are kept: all of them, or none. -/
theorem filter_kept {key : α → κ} {xs : List α} (keep : κ × List α → Bool) {p : α → Bool} {k : κ}
    (hp : ∀ x ∈ xs, p x = true → key x = k) :
    (((groupBy key xs).filter keep).flatMap Prod.snd).filter p =
      if keep (k, xs.filter fun x => decide (key x = k)) = true then xs.filter p else [] := by
  have hbucket : ∀ j, (xs.filter fun x => decide (key x = j)).filter p =
      if j = k then xs.filter p else [] := by
    intro j
    rw [List.filter_filter]
    split
    case isTrue hj =>
      refine List.filter_congr fun x hx => ?_
      cases hpx : p x with
      | false => rfl
      | true => simp [hp x hx hpx, hj]
    case isFalse hj =>
      rw [List.filter_eq_nil_iff]
      intro x hx hboth
      rw [Bool.and_eq_true, decide_eq_true_eq] at hboth
      exact hj (hboth.2.symm.trans (hp x hx hboth.1))
  rw [groupBy_eq key xs, List.filter_map, List.flatMap_map, List.filter_flatMap,
    flatMap_single ((grouped key xs).keys.filter _) (k := k)]
  · rw [hbucket k, if_pos rfl]
    by_cases hk : k ∈ (groupBy key xs).map Prod.fst
    · simp only [List.mem_filter, hk, true_and, Function.comp_apply]
    · have hnone : xs.filter p = [] := by
        rw [List.filter_eq_nil_iff]
        exact fun x hx hpx => hk (mem_keys_iff.mpr ⟨x, hx, hp x hx hpx⟩)
      simp [hnone]
  · intro j _ hj
    rw [hbucket j, if_neg hj]

end Grouping
end Batiste
