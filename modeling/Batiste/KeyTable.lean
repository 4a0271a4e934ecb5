import Mathlib.Tactic

/-! Tables with a primary key: insertion, deletion and updates that leave the keys alone. -/
namespace Batiste

/-- The rows of a table, in the order of their insertion; no key twice. -/
structure KeyTable {R K : Type*} (key : R → K) where
  rows : List R
  nodup : (rows.map key).Nodup

namespace KeyTable

variable {R K : Type*} {key : R → K}

def empty : KeyTable key := ⟨[], List.nodup_nil⟩

@[simp] theorem rows_empty : (empty : KeyTable key).rows = [] := rfl

/-- Every row is set anew under its own key. -/
def update (t : KeyTable key) (set : R → R) (hset : ∀ row, key (set row) = key row) :
    KeyTable key :=
  ⟨t.rows.map set, by
    have hkeys : (t.rows.map set).map key = t.rows.map key := by
      rw [List.map_map]
      exact List.map_congr_left fun row _ => hset row
    rw [hkeys]
    exact t.nodup⟩

theorem mem_update {t : KeyTable key} {set : R → R} {hset : ∀ row, key (set row) = key row}
    {row : R} : row ∈ (t.update set hset).rows ↔ ∃ old ∈ t.rows, set old = row := List.mem_map

/-- A key names one row. -/
theorem row_unique {t : KeyTable key} {row row' : R} (h : row ∈ t.rows) (h' : row' ∈ t.rows)
    (hkey : key row = key row') : row = row' := List.inj_on_of_nodup_map t.nodup h h' hkey

variable [DecidableEq K]

def get (t : KeyTable key) (k : K) : Option R := t.rows.find? fun row => key row = k

/-- A row whose key is taken is refused. -/
def insert (t : KeyTable key) (row : R) : Option (KeyTable key) :=
  if h : key row ∈ t.rows.map key then none
  else some ⟨t.rows ++ [row], by
    rw [List.map_append, List.map_singleton, List.nodup_append]
    refine ⟨t.nodup, List.nodup_singleton _, fun a ha b hb => ?_⟩
    rintro rfl
    exact h (List.mem_singleton.mp hb ▸ ha)⟩

def delete (t : KeyTable key) (k : K) : KeyTable key :=
  ⟨t.rows.filter fun row => key row ≠ k,
    t.nodup.sublist (List.Sublist.map key List.filter_sublist)⟩

/-- The row of one key is set anew. -/
def updateAt (t : KeyTable key) (k : K) (set : R → R) (hset : ∀ row, key (set row) = key row) :
    KeyTable key :=
  t.update (fun row => if key row = k then set row else row) fun row => by
    split_ifs
    · exact hset row
    · rfl

variable {t u : KeyTable key} {row : R} {k : K}

theorem get_eq_some (h : t.get k = some row) : row ∈ t.rows ∧ key row = k :=
  ⟨List.mem_of_find?_eq_some h, by simpa using List.find?_some h⟩

theorem get_eq_none : t.get k = none ↔ ∀ row ∈ t.rows, key row ≠ k := by
  simp [get, List.find?_eq_none]

theorem insert_eq_some (h : t.insert row = some u) :
    u.rows = t.rows ++ [row] ∧ ∀ old ∈ t.rows, key old ≠ key row := by
  unfold insert at h
  split_ifs at h with hin
  obtain rfl := Option.some.inj h
  refine ⟨rfl, fun old hold heq => hin ?_⟩
  exact heq ▸ List.mem_map_of_mem hold

theorem mem_delete : row ∈ (t.delete k).rows ↔ row ∈ t.rows ∧ key row ≠ k := by
  simp [delete]

theorem mem_updateAt {set : R → R} {hset : ∀ row, key (set row) = key row} :
    row ∈ (t.updateAt k set hset).rows ↔
      ∃ old ∈ t.rows, (if key old = k then set old else old) = row := List.mem_map

end KeyTable
end Batiste
