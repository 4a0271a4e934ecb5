import Batiste.Json

/-! Amounts added up under their keys: every key has the sum of its amounts, and the sums of all
keys come to the sum of all amounts. -/
namespace Batiste
namespace Tally

variable {M : Type} [AddCommMonoid M]

/-- The amount is added to that of the key, which begins with none. -/
def add (d : Dict M) (key : String) (amount : M) : Dict M :=
  d.set key ((d.get? key).getD 0 + amount)

def addAll (d : Dict M) (entries : List (String × M)) : Dict M :=
  entries.foldl (fun d e => add d e.1 e.2) d

def total (d : Dict M) : M := (d.map Prod.snd).sum

/-- What some entries say of a key. -/
def share (entries : List (String × M)) (key : String) : M :=
  ((entries.filter fun e => e.1 = key).map Prod.snd).sum

theorem get?_add (d : Dict M) (key key' : String) (amount : M) : (add d key amount).get? key' =
    if key' = key then some ((d.get? key).getD 0 + amount) else d.get? key' := Dict.get?_set ..

theorem nodup_add {d : Dict M} (hd : (d.map Prod.fst).Nodup) (key : String) (amount : M) :
    ((add d key amount).map Prod.fst).Nodup := Dict.nodup_set hd _ _

theorem total_set {d : Dict M} (hd : (d.map Prod.fst).Nodup) {key : String} {old : M}
    (h : d.get? key = some old) (amount : M) :
    total (d.map fun e => if e.1 = key then (key, old + amount) else e) = total d + amount := by
  induction d with
  | nil => cases h
  | cons e d ih =>
    rw [List.map_cons, List.nodup_cons] at hd
    rw [Dict.get?_cons] at h
    simp only [total, List.map_cons, List.sum_cons] at ih ⊢
    split_ifs at h with hkey
    · obtain rfl := Option.some.inj h
      have hkey' : e.1 = key := by simpa using hkey
      have hrest : (d.map fun f => if f.1 = key then (key, e.2 + amount) else f) = d := by
        refine (List.map_congr_left fun f hf => if_neg fun heq => ?_).trans (List.map_id d)
        exact hd.1 (by rw [hkey', ← heq]; exact List.mem_map_of_mem hf)
      rw [if_pos hkey', hrest, add_right_comm]
    · have hkey' : ¬ e.1 = key := by simpa using hkey
      rw [if_neg hkey', ih hd.2 h, add_assoc]

theorem total_add {d : Dict M} (hd : (d.map Prod.fst).Nodup) (key : String) (amount : M) :
    total (add d key amount) = total d + amount := by
  unfold add Dict.set
  cases h : d.get? key with
  | none =>
    have hkey := Dict.get?_eq_none.mp h
    rw [if_neg (by simpa [List.any_eq_true, List.mem_map] using hkey)]
    simp [total]
  | some old =>
    have hkey : key ∈ d.map Prod.fst := List.mem_map_of_mem (Dict.mem_of_get? h)
    rw [if_pos (by simpa [List.any_eq_true, List.mem_map] using hkey)]
    exact total_set hd h amount

theorem addAll_append (d : Dict M) (entries entries' : List (String × M)) :
    addAll d (entries ++ entries') = addAll (addAll d entries) entries' := List.foldl_append

theorem nodup_addAll {d : Dict M} (hd : (d.map Prod.fst).Nodup) (entries : List (String × M)) :
    ((addAll d entries).map Prod.fst).Nodup := by
  induction entries generalizing d with
  | nil => exact hd
  | cons e entries ih => exact ih (nodup_add hd _ _)

theorem total_addAll {d : Dict M} (hd : (d.map Prod.fst).Nodup) (entries : List (String × M)) :
    total (addAll d entries) = total d + (entries.map Prod.snd).sum := by
  induction entries generalizing d with
  | nil => simp [addAll]
  | cons e entries ih =>
    have hrest := ih (nodup_add hd e.1 e.2)
    rw [addAll, List.foldl_cons, ← addAll, hrest, total_add hd, List.map_cons, List.sum_cons,
      add_assoc]

/-- A key that some entry names has the share of the entries, any other what it had. -/
theorem get?_addAll (d : Dict M) (entries : List (String × M)) (key : String) :
    (addAll d entries).get? key =
      if key ∈ entries.map Prod.fst then some ((d.get? key).getD 0 + share entries key)
      else d.get? key := by
  induction entries generalizing d with
  | nil => rfl
  | cons e entries ih =>
    rw [addAll, List.foldl_cons, ← addAll, ih, get?_add]
    by_cases hkey : key = e.1
    · have hshare : share (e :: entries) key = e.2 + share entries key := by
        simp [share, hkey]
      have hhead : key ∈ (e :: entries).map Prod.fst := by simp [hkey]
      rw [if_pos hkey, hshare, ← add_assoc, if_pos hhead, ← hkey, Option.getD_some]
      split_ifs with hmem
      · rfl
      · have hnone : share entries key = 0 := by
          have hempty : entries.filter (fun f => f.1 = key) = [] := by
            rw [List.filter_eq_nil_iff]
            intro f hf heq
            exact hmem (of_decide_eq_true heq ▸ List.mem_map_of_mem hf)
          rw [share, hempty]
          rfl
        rw [hnone, add_zero]
    · have hshare : share (e :: entries) key = share entries key := by
        simp [share, Ne.symm hkey]
      have hhead : key ∈ (e :: entries).map Prod.fst ↔ key ∈ entries.map Prod.fst := by
        rw [List.map_cons, List.mem_cons, or_iff_right hkey]
      simp only [if_neg hkey, hshare, hhead]

/-- The order of the entries makes no difference for a key. -/
theorem share_perm {entries entries' : List (String × M)} (h : entries.Perm entries')
    (key : String) : share entries key = share entries' key :=
  ((h.filter _).map Prod.snd).sum_eq

end Tally
end Batiste
