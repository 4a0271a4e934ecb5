import Mathlib.Data.String.Basic
import Mathlib.Tactic

/-! JSON values and string-keyed records in insertion order. -/
namespace Batiste

inductive Json
  | null
  | bool (value : Bool)
  | number (value : ℚ)
  | string (value : String)
  | array (items : List Json)
  | object (fields : List (String × Json))

mutual

/-- The same JSON text. -/
def Json.beq : Json → Json → Bool
  | .null, .null => true
  | .bool a, .bool b => a == b
  | .number a, .number b => a == b
  | .string a, .string b => a == b
  | .array as, .array bs => Json.beqItems as bs
  | .object as, .object bs => Json.beqFields as bs
  | _, _ => false

def Json.beqItems : List Json → List Json → Bool
  | [], [] => true
  | a :: as, b :: bs => Json.beq a b && Json.beqItems as bs
  | _, _ => false

def Json.beqFields : List (String × Json) → List (String × Json) → Bool
  | [], [] => true
  | (k, a) :: as, (l, b) :: bs => k == l && Json.beq a b && Json.beqFields as bs
  | _, _ => false

end

mutual

theorem Json.beq_iff (a b : Json) : Json.beq a b = true ↔ a = b := by
  cases a with
  | array as => cases b <;> simp [Json.beq, Json.beqItems_iff as]
  | object as => cases b <;> simp [Json.beq, Json.beqFields_iff as]
  | _ => cases b <;> simp [Json.beq]

theorem Json.beqItems_iff (as bs : List Json) : Json.beqItems as bs = true ↔ as = bs := by
  cases as with
  | nil => cases bs <;> simp [Json.beqItems]
  | cons a as => cases bs <;> simp [Json.beqItems, Json.beq_iff a, Json.beqItems_iff as]

theorem Json.beqFields_iff (as bs : List (String × Json)) :
    Json.beqFields as bs = true ↔ as = bs := by
  cases as with
  | nil => cases bs <;> simp [Json.beqFields]
  | cons e as =>
    obtain ⟨k, a⟩ := e
    cases bs with
    | nil => simp [Json.beqFields]
    | cons e' bs => simp [Json.beqFields, Json.beq_iff a, Json.beqFields_iff as, Prod.ext_iff]

end

instance : DecidableEq Json := fun a b => decidable_of_iff _ (Json.beq_iff a b)

/-- `!!value`. -/
def Json.truthy : Json → Bool
  | .null => false
  | .bool value => value
  | .number value => value != 0
  | .string value => value != ""
  | .array _ => true
  | .object _ => true

/-- The string stands somewhere in the value, or is a key in it. -/
inductive Json.Mentions (text : String) : Json → Prop
  | string : Mentions text (.string text)
  | item {items : List Json} {item : Json} (hmem : item ∈ items) (h : Mentions text item) :
      Mentions text (.array items)
  | key {fields : List (String × Json)} {value : Json} (hmem : (text, value) ∈ fields) :
      Mentions text (.object fields)
  | field {fields : List (String × Json)} {key : String} {value : Json}
      (hmem : (key, value) ∈ fields) (h : Mentions text value) : Mentions text (.object fields)

theorem Json.mentions_array (text : String) (items : List Json) :
    Json.Mentions text (.array items) ↔ ∃ item ∈ items, Json.Mentions text item := by
  constructor
  · intro h
    cases h with
    | item hmem h => exact ⟨_, hmem, h⟩
  · rintro ⟨item, hmem, h⟩
    exact .item hmem h

theorem Json.mentions_object (text : String) (fields : List (String × Json)) :
    Json.Mentions text (.object fields) ↔
      ∃ e ∈ fields, e.1 = text ∨ Json.Mentions text e.2 := by
  constructor
  · intro h
    cases h with
    | key hmem => exact ⟨_, hmem, Or.inl rfl⟩
    | field hmem h => exact ⟨_, hmem, Or.inr h⟩
  · rintro ⟨⟨key, value⟩, hmem, rfl | h⟩
    · exact .key hmem
    · exact .field hmem h

/-- A record: the keys of its entries are distinct. -/
abbrev Dict (β : Type) := List (String × β)

namespace Dict

variable {β : Type}

def get? (d : Dict β) (key : String) : Option β := (d.find? fun e => e.1 == key).map Prod.snd

/-- `d[key] = value`: an existing key keeps its position. -/
def set (d : Dict β) (key : String) (value : β) : Dict β :=
  if d.any fun e => e.1 == key then
    d.map fun e => if e.1 = key then (key, value) else e
  else d ++ [(key, value)]

/-- `{ ...d, ...e }`. -/
def spread (d e : Dict β) : Dict β := e.foldl (fun d entry => set d entry.1 entry.2) d

/-- `d.delete(key)`. -/
def erase (d : Dict β) (key : String) : Dict β := d.filter fun e => e.1 != key

/-- `if (key in d) d[key] = f(d[key])`. -/
def mapKey (d : Dict β) (key : String) (f : β → β) : Dict β :=
  d.map fun e => if e.1 = key then (e.1, f e.2) else e

@[simp] theorem get?_nil (key : String) : get? ([] : Dict β) key = none := rfl

theorem get?_cons (e : String × β) (d : Dict β) (key : String) :
    get? (e :: d) key = if e.1 = key then some e.2 else get? d key := by
  by_cases h : e.1 = key
  · simp [get?, h]
  · simp [get?, h]

theorem mem_of_get? {d : Dict β} {key : String} {value : β} (h : get? d key = some value) :
    (key, value) ∈ d := by
  induction d with
  | nil => simp at h
  | cons e d ih =>
    rw [get?_cons] at h
    split at h
    · next hkey =>
      obtain rfl := Option.some.inj h
      subst hkey
      exact List.mem_cons_self
    · exact List.mem_cons_of_mem e (ih h)

theorem get?_eq_none {d : Dict β} {key : String} : get? d key = none ↔ key ∉ d.map Prod.fst := by
  simp only [get?, Option.map_eq_none_iff, List.find?_eq_none, List.mem_map, not_exists, not_and]
  exact forall₂_congr fun e he => by simp

/-- Where the keys are distinct every entry is found under its key. -/
theorem get?_of_mem {d : Dict β} (hd : (d.map Prod.fst).Nodup) {key : String} {value : β}
    (h : (key, value) ∈ d) : get? d key = some value := by
  induction d with
  | nil => simp at h
  | cons e d ih =>
    rw [List.map_cons, List.nodup_cons] at hd
    rw [get?_cons]
    cases List.mem_cons.mp h with
    | inl he => simp [← he]
    | inr hmem =>
      have hne : e.1 ≠ key := fun he => hd.1 (he ▸ List.mem_map.mpr ⟨_, hmem, rfl⟩)
      rw [if_neg hne, ih hd.2 hmem]

theorem get?_append (d e : Dict β) (key : String) :
    get? (d ++ e) key = (get? d key).or (get? e key) := by
  induction d with
  | nil => simp
  | cons entry d ih =>
    rw [List.cons_append, get?_cons, get?_cons, ih]
    split <;> simp

theorem get?_set (d : Dict β) (key key' : String) (value : β) :
    get? (set d key value) key' = if key' = key then some value else get? d key' := by
  have hmap : ∀ d : Dict β, get? (d.map fun e => if e.1 = key then (key, value) else e) key' =
      if key' = key then (get? d key).map fun _ => value else get? d key' := by
    intro d
    induction d with
    | nil => simp
    | cons e d ih =>
      rw [List.map_cons, get?_cons, get?_cons, get?_cons, ih]
      grind
  unfold set
  split
  · next hany =>
    rw [hmap]
    obtain ⟨e, he, hkey⟩ := List.any_eq_true.mp hany
    have hsome : get? d key ≠ none := fun hnone =>
      get?_eq_none.mp hnone (List.mem_map.mpr ⟨e, he, by simpa using hkey⟩)
    obtain ⟨old, hold⟩ := Option.ne_none_iff_exists'.mp hsome
    simp [hold]
  · next hany =>
    have hnone : get? d key = none := get?_eq_none.mpr fun hmem => by
      obtain ⟨e, he, hkey⟩ := List.mem_map.mp hmem
      exact hany (List.any_eq_true.mpr ⟨e, he, by simpa using hkey⟩)
    rw [get?_append, get?_cons, get?_nil]
    by_cases hk : key' = key
    · simp [hk, hnone]
    · simp [hk, Ne.symm hk]

theorem map_fst_set (d : Dict β) (key : String) (value : β) :
    (set d key value).map Prod.fst =
      if key ∈ d.map Prod.fst then d.map Prod.fst else d.map Prod.fst ++ [key] := by
  have hany : (d.any fun e => e.1 == key) = true ↔ key ∈ d.map Prod.fst := by
    simp [List.any_eq_true, List.mem_map]
  unfold set
  by_cases hkey : key ∈ d.map Prod.fst
  · rw [if_pos (hany.mpr hkey), if_pos hkey, List.map_map]
    refine List.map_congr_left fun e he => ?_
    by_cases heq : e.1 = key <;> simp [heq]
  · rw [if_neg (fun h => hkey (hany.mp h)), if_neg hkey, List.map_append]
    rfl

theorem mem_keys_set {d : Dict β} {key key' : String} {value : β} :
    key' ∈ (set d key value).map Prod.fst ↔ key' = key ∨ key' ∈ d.map Prod.fst := by
  rw [map_fst_set]
  split
  · grind
  · rw [List.mem_append, List.mem_singleton, or_comm]

theorem mem_set {d : Dict β} {key : String} {value : β} {e : String × β}
    (h : e ∈ set d key value) : (e ∈ d ∧ e.1 ≠ key) ∨ e = (key, value) := by
  unfold set at h
  split at h
  · obtain ⟨old, hold, rfl⟩ := List.mem_map.mp h
    by_cases hkey : old.1 = key
    · exact .inr (if_pos hkey)
    · rw [if_neg hkey]
      exact .inl ⟨hold, hkey⟩
  · next hany =>
    rcases List.mem_append.mp h with hold | hnew
    · refine .inl ⟨hold, fun hkey => hany (List.any_eq_true.mpr ⟨e, hold, ?_⟩)⟩
      simpa using hkey
    · exact .inr (List.mem_singleton.mp hnew)

theorem nodup_set {d : Dict β} (hd : (d.map Prod.fst).Nodup) (key : String) (value : β) :
    ((set d key value).map Prod.fst).Nodup := by
  rw [map_fst_set]
  split
  · exact hd
  · next hkey => exact List.nodup_append.mpr ⟨hd, List.nodup_singleton key, by grind⟩

theorem get?_erase (d : Dict β) (key key' : String) :
    get? (erase d key) key' = if key' = key then none else get? d key' := by
  induction d with
  | nil => simp [erase]
  | cons e d ih =>
    have hcons : erase (e :: d) key = if e.1 = key then erase d key else e :: erase d key := by
      by_cases he : e.1 = key <;> simp [erase, he]
    rw [hcons, get?_cons]
    split
    · next he => rw [ih]; grind
    · next he => rw [get?_cons, ih]; grind

theorem get?_mapKey (d : Dict β) (key key' : String) (f : β → β) :
    get? (mapKey d key f) key' = if key' = key then (get? d key').map f else get? d key' := by
  induction d with
  | nil => simp [mapKey]
  | cons e d ih =>
    have hcons : mapKey (e :: d) key f =
        (if e.1 = key then (e.1, f e.2) else e) :: mapKey d key f := rfl
    rw [hcons, get?_cons, get?_cons, ih]
    by_cases he : e.1 = key
    · rw [if_pos he]
      by_cases hk : key' = key
      · simp [he, hk]
      · simp [he, hk, Ne.symm hk]
    · rw [if_neg he]
      by_cases hk : key' = key
      · subst hk
        simp [he]
      · simp [hk]

theorem get?_reverse {d : Dict β} (hd : (d.map Prod.fst).Nodup) (key : String) :
    get? d.reverse key = get? d key := by
  cases h : get? d key with
  | none =>
    rw [get?_eq_none] at h ⊢
    rwa [List.map_reverse, List.mem_reverse]
  | some value =>
    refine get?_of_mem ?_ (List.mem_reverse.mpr (mem_of_get? h))
    rwa [List.map_reverse, List.nodup_reverse]

/-- The last entry for a key is the one that stays. -/
theorem get?_spread (d e : Dict β) (key : String) :
    get? (spread d e) key = (get? e.reverse key).or (get? d key) := by
  induction e generalizing d with
  | nil => simp [spread]
  | cons entry e ih =>
    have hcons : spread d (entry :: e) = spread (set d entry.1 entry.2) e := rfl
    rw [hcons, ih, get?_set, List.reverse_cons, get?_append, get?_cons, get?_nil, Option.or_assoc]
    by_cases hkey : key = entry.1
    · simp [hkey]
    · simp [hkey, Ne.symm hkey]

/-- Entries under new keys are appended. -/
theorem spread_append {d e : Dict β} (h : ((d ++ e).map Prod.fst).Nodup) :
    spread d e = d ++ e := by
  induction e generalizing d with
  | nil => simp [spread]
  | cons entry e ih =>
    have hnew : entry.1 ∉ d.map Prod.fst := by
      rw [List.map_append, List.map_cons] at h
      exact fun hmem => (List.nodup_append.mp h).2.2 _ hmem _ List.mem_cons_self rfl
    have hset : set d entry.1 entry.2 = d ++ [entry] := by
      rw [set, if_neg]
      simpa [List.any_eq_true] using hnew
    show spread (set d entry.1 entry.2) e = _
    rw [hset, ih (by simpa using h), List.append_assoc]
    rfl

theorem mem_keys_spread {d e : Dict β} {key : String} :
    key ∈ (spread d e).map Prod.fst ↔ key ∈ d.map Prod.fst ∨ key ∈ e.map Prod.fst := by
  induction e generalizing d with
  | nil => simp [spread]
  | cons entry e ih =>
    have hcons : spread d (entry :: e) = spread (set d entry.1 entry.2) e := rfl
    rw [hcons, ih, mem_keys_set, List.map_cons, List.mem_cons]
    tauto

theorem mem_spread {d e : Dict β} {entry : String × β} (h : entry ∈ spread d e) :
    entry ∈ d ∨ entry ∈ e := by
  induction e generalizing d with
  | nil => exact .inl h
  | cons first e ih =>
    rcases ih h with hmem | hmem
    · rcases mem_set hmem with ⟨hold, -⟩ | rfl
      · exact .inl hold
      · exact .inr List.mem_cons_self
    · exact .inr (List.mem_cons_of_mem first hmem)

theorem nodup_spread {d : Dict β} (hd : (d.map Prod.fst).Nodup) (e : Dict β) :
    ((spread d e).map Prod.fst).Nodup := by
  induction e generalizing d with
  | nil => exact hd
  | cons entry e ih => exact ih (nodup_set hd entry.1 entry.2)

theorem get?_spread_of_nodup (d : Dict β) {e : Dict β} (he : (e.map Prod.fst).Nodup)
    (key : String) : get? (spread d e) key = (get? e key).or (get? d key) := by
  rw [get?_spread, get?_reverse he]

theorem get?_spread_of_not_mem (d : Dict β) {e : Dict β} {key : String}
    (h : key ∉ e.map Prod.fst) : get? (spread d e) key = get? d key := by
  have hnone : get? e.reverse key = none := by
    rw [get?_eq_none]
    rwa [List.map_reverse, List.mem_reverse]
  rw [get?_spread, hnone, Option.none_or]

end Dict
end Batiste
