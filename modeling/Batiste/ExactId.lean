import Batiste.MemoryLists

/-! Searching a memory store for the id of an entry: when the entry comes back with the score 1. -/
namespace Batiste
namespace FirmMemory

open StableSort

section Exact

variable {Group Rest Vector : Type} [DecidableEq Group] (engine : Engine Vector)
  (namespace_ : String)

/-! ## The search over the answer of the index -/

/-- `search`, whatever the vector index answers. -/
def searchWith (table : Table Group Rest Vector) (group : Option Group) (query : String)
    (options : SearchOptions) (byId : Dict ℚ) :
    Except String (List (SearchHit (Entry Group Rest))) := do
  let candidates ← list namespace_ table group { options with limit := none }
  return assemble engine query options candidates byId

theorem search_eq (table : Table Group Rest Vector) (group : Option Group) (query : String)
    (options : SearchOptions) : search engine namespace_ table group query options =
      searchWith engine namespace_ table group query options
        (vectorSearch engine namespace_ table query (options.limit.getD (.finite 20))) := rfl

/-- The first thousand rows that pass the SQL filters. -/
def listed (table : Table Group Rest Vector) (group : Option Group) (options : SearchOptions) :
    List (Entry Group Rest) :=
  ((entriesOf namespace_ table).filter (passes group options.sensitivity)).take 1000

def candidates (table : Table Group Rest Vector) (group : Option Group) (options : SearchOptions) :
    List (Entry Group Rest) :=
  (listed namespace_ table group options).filter (hasTag options.tags)

theorem searchWith_eq (table : Table Group Rest Vector) (group : Option Group) (query : String)
    (options : SearchOptions) (byId : Dict ℚ) :
    searchWith engine namespace_ table group query options byId =
      .ok (assemble engine query options (candidates namespace_ table group options) byId) := by
  have hlimit := sqlLimit_int (n := 1000) (by omega)
    ((entriesOf namespace_ table).filter (passes group options.sensitivity))
  have hlist : list namespace_ table group { options with limit := none } =
      .ok (candidates namespace_ table group options) := by
    unfold list
    rw [Option.getD_none]
    exact congrArg (Except.map _) hlimit
  rw [searchWith, hlist]
  rfl

/-! ## What is ahead of an entry -/

section Counts

variable (query : String) (candidates : List (Entry Group Rest)) (byId : Dict ℚ) (p : ℚ → Bool)

/-- The vector hits of candidates with such a score. -/
def vectorCount : ℕ := byId.countP fun hit => candidates.any (fun e => e.id = hit.1) && p hit.2

/-- The score without the index. -/
def directScore (e : Entry Group Rest) : ℚ :=
  if e.id = query then 1 else lexicalScore engine.tokenize query e.body e.title e.tags

/-- The candidates without a vector hit that have such a score. -/
def directCount : ℕ :=
  candidates.countP fun e => (Dict.get? byId e.id).isNone &&
    (decide (0 < directScore engine query e) && p (directScore engine query e))

/-- How many hits stand before the entry that has the queried id and the score 1. -/
def ahead : ℕ :=
  if (Dict.get? byId query).isSome then
    vectorCount candidates (byId.takeWhile fun hit => hit.1 ≠ query) (fun score => 1 ≤ score) +
      vectorCount candidates (byId.dropWhile fun hit => hit.1 ≠ query) (fun score => 1 < score)
  else
    vectorCount candidates byId (fun score => 1 ≤ score) +
      directCount engine query (candidates.takeWhile fun e => e.id ≠ query) byId
        (fun score => 1 ≤ score)

/-- How many hits there are of the least score at least. -/
def total (options : SearchOptions) : ℕ :=
  let enough := fun score => atLeast score (options.minScore.getD (.finite (1 / 20)))
  vectorCount candidates byId enough +
    if options.vectorOnly then 0 else directCount engine query candidates byId enough

end Counts

/-- How many of `n` elements `slice(0, x)` keeps. -/
def keptBy (x : JsNumber) (n : ℕ) : ℕ :=
  match x with
  | .finite value => if 0 ≤ value then ⌊value⌋.toNat else n - ⌊-value⌋.toNat
  | .nan => 0
  | .infinity negative => if negative then 0 else n

omit [DecidableEq Group] in
theorem sliceTo_eq_take {α : Type} (x : JsNumber) (xs : List α) :
    sliceTo x xs = xs.take (keptBy x xs.length) := by
  cases x with
  | finite value =>
    simp only [sliceTo, keptBy]
    split <;> rfl
  | nan => simp [sliceTo, keptBy]
  | infinity negative => cases negative <;> simp [sliceTo, keptBy]

/-- What brings an entry back with the score 1 from a search for its id. -/
structure Found (table : Table Group Rest Vector) (group : Option Group) (options : SearchOptions)
    (byId : Dict ℚ) (entry : Entry Group Rest) : Prop where
  listed : entry ∈ listed namespace_ table group options
  minScore : atLeast 1 (options.minScore.getD (.finite (1 / 20))) = true
  unshadowed : Dict.get? byId entry.id = some 1 ∨
    Dict.get? byId entry.id = none ∧ options.vectorOnly = false
  kept : ahead engine entry.id (candidates namespace_ table group options) byId <
    keptBy (options.limit.getD (.finite 20))
      (total engine entry.id (candidates namespace_ table group options) byId options)

/-! ## Scores -/

theorem lexicalScore_le_one (tokenize : String → List String) (query body title : String)
    (tags : List String) : lexicalScore tokenize query body title tags ≤ 1 := by
  unfold lexicalScore
  dsimp only
  split
  · norm_num
  · rename_i hne
    have hpos : (0 : ℚ) < (tokenize query).dedup.length := by
      exact_mod_cast Nat.pos_of_ne_zero hne
    have hshare : ∀ f : String → Bool,
        ((tokenize query).dedup.countP f : ℚ) / (tokenize query).dedup.length ≤ 1 := fun f =>
      div_le_one_of_le₀ (by exact_mod_cast List.countP_le_length) hpos.le
    linarith [hshare fun q => q ∈ tokenize title || q ∈ tokenize body,
      hshare fun q => q ∈ tokenize title, hshare fun q => q ∈ tags.flatMap tokenize]

omit [DecidableEq Group] in
theorem directScore_le_one (query : String) (e : Entry Group Rest) :
    directScore engine query e ≤ 1 := by
  unfold directScore
  split
  · exact le_refl 1
  · exact lexicalScore_le_one ..

theorem atLeast_mono {x : JsNumber} {s t : ℚ} (hst : s ≤ t) (h : atLeast s x = true) :
    atLeast t x = true := by
  cases x with
  | finite value =>
    simp only [atLeast, decide_eq_true_eq] at h ⊢
    exact h.trans hst
  | nan => exact h
  | infinity negative => exact h

/-! ## The hits -/

section Hits

variable (query : String) (candidates : List (Entry Group Rest)) (byId : Dict ℚ)

omit [DecidableEq Group] in
theorem countP_vectorHits (p : ℚ → Bool) :
    (vectorHits candidates byId).countP (fun h => p h.score) = vectorCount candidates byId p := by
  rw [vectorHits, vectorCount, List.countP_filterMap]
  refine List.countP_congr fun hit _ => ?_
  cases hfind : candidates.reverse.find? fun e => e.id = hit.1 with
  | none =>
    have hnone : candidates.any (fun e => e.id = hit.1) = false := by
      simpa [List.find?_eq_none] using hfind
    simp [hnone]
  | some e =>
    have hid : decide (e.id = hit.1) = true := by simpa using List.find?_some hfind
    have hany : candidates.any (fun e => e.id = hit.1) = true := by
      rw [List.any_eq_true]
      exact ⟨e, List.mem_reverse.mp (List.mem_of_find?_eq_some hfind), hid⟩
    simp [hany]

omit [DecidableEq Group] in
theorem countP_lexicalHits {seen : List String}
    (hseen : ∀ e ∈ candidates, e.id ∈ seen ↔ (Dict.get? byId e.id).isSome) (p : ℚ → Bool) :
    (lexicalHits engine query candidates seen).countP (fun h => p h.score) =
      directCount engine query candidates byId p := by
  rw [lexicalHits, directCount, List.countP_filterMap]
  refine List.countP_congr fun e he => ?_
  by_cases hin : e.id ∈ seen
  · have hsome := (hseen e he).mp hin
    obtain ⟨score, hscore⟩ := Option.isSome_iff_exists.mp hsome
    simp [hin, hscore]
  · have hnone : Dict.get? byId e.id = none := by
      simpa using fun h => hin ((hseen e he).mpr h)
    rw [if_neg hin, hnone, directScore]
    by_cases hid : e.id = query
    · simp [hid]
    · rw [if_neg hid, if_neg hid]
      dsimp only
      split
      · rename_i hle
        simp [not_lt.mpr hle]
      · rename_i hlt
        simp [not_le.mp hlt]

/-- The hit of a key of the index, where it is the id of a candidate. -/
def vectorHit (hit : String × ℚ) : Option (SearchHit (Entry Group Rest)) :=
  (candidates.reverse.find? fun e => e.id = hit.1).map fun entry =>
    { entry, score := hit.2, reason := .vector }

variable {candidates}

omit [DecidableEq Group] in
theorem vectorHit_of_mem (hids : (candidates.map Entry.id).Nodup) {e : Entry Group Rest}
    (he : e ∈ candidates) (score : ℚ) :
    vectorHit candidates (e.id, score) = some ⟨e, score, .vector⟩ := by
  have hfind : candidates.reverse.find? (fun a => a.id = e.id) = some e := by
    cases hfind : candidates.reverse.find? fun a => a.id = e.id with
    | none => exact absurd (List.find?_eq_none.mp hfind e (List.mem_reverse.mpr he)) (by simp)
    | some a =>
      have hid : a.id = e.id := by simpa using List.find?_some hfind
      have ha := List.mem_reverse.mp (List.mem_of_find?_eq_some hfind)
      rw [List.inj_on_of_nodup_map hids ha he hid]
  rw [vectorHit, hfind, Option.map_some]

omit [DecidableEq Group] in
theorem eq_of_vectorHit {hit : String × ℚ} {h : SearchHit (Entry Group Rest)}
    (hhit : vectorHit candidates hit = some h) :
    h.entry ∈ candidates ∧ hit = (h.entry.id, h.score) ∧ h.reason = .vector := by
  obtain ⟨e, hfind, rfl⟩ := Option.map_eq_some_iff.mp hhit
  have hid : e.id = hit.1 := by simpa using List.find?_some hfind
  exact ⟨List.mem_reverse.mp (List.mem_of_find?_eq_some hfind), Prod.ext hid.symm rfl, rfl⟩

omit [DecidableEq Group] in
theorem mem_vectorHits {h : SearchHit (Entry Group Rest)} (hh : h ∈ vectorHits candidates byId) :
    h.entry ∈ candidates ∧ (h.entry.id, h.score) ∈ byId ∧ h.reason = .vector := by
  obtain ⟨hit, hhit, hsome⟩ := List.mem_filterMap.mp hh
  obtain ⟨hentry, rfl, hreason⟩ := eq_of_vectorHit hsome
  exact ⟨hentry, hhit, hreason⟩

omit [DecidableEq Group] in
theorem mem_seen_iff (hids : (candidates.map Entry.id).Nodup) {e : Entry Group Rest}
    (he : e ∈ candidates) : e.id ∈ (vectorHits candidates byId).map (fun h => h.entry.id) ↔
      (Dict.get? byId e.id).isSome := by
  rw [Option.isSome_iff_ne_none, Ne, Dict.get?_eq_none, not_not]
  constructor
  · intro hin
    obtain ⟨h, hh, hid⟩ := List.mem_map.mp hin
    rw [← hid]
    exact List.mem_map.mpr ⟨_, (mem_vectorHits byId hh).2.1, rfl⟩
  · intro hin
    obtain ⟨hit, hhit, hkey⟩ := List.mem_map.mp hin
    have hsome := vectorHit_of_mem hids he hit.2
    rw [← hkey] at hsome
    exact List.mem_map.mpr ⟨_, List.mem_filterMap.mpr ⟨hit, hhit, hsome⟩, rfl⟩

omit [DecidableEq Group] in
theorem mem_lexicalHits {seen : List String} {h : SearchHit (Entry Group Rest)}
    (hh : h ∈ lexicalHits engine query candidates seen) : h.entry ∈ candidates ∧
      h.entry.id ∉ seen ∧ h.score = directScore engine query h.entry ∧
        (h.entry.id = query → h.reason = .exactId) := by
  obtain ⟨e, he, hsome⟩ := List.mem_filterMap.mp hh
  split_ifs at hsome with hseen hid
  · obtain rfl := Option.some.inj hsome
    exact ⟨he, hseen, by rw [directScore, if_pos hid], fun _ => rfl⟩
  · dsimp only at hsome
    split_ifs at hsome
    obtain rfl := Option.some.inj hsome
    exact ⟨he, hseen, by rw [directScore, if_neg hid], fun h => absurd h hid⟩

omit [DecidableEq Group] in
/-- No hit without the index is better than an exact one. -/
theorem countP_lexicalHits_one_lt (es : List (Entry Group Rest)) (seen : List String) :
    (lexicalHits engine query es seen).countP (fun h => (1 : ℚ) < h.score) = 0 := by
  rw [List.countP_eq_zero]
  intro h hh
  rw [decide_eq_true_eq, (mem_lexicalHits engine query hh).2.2.1]
  exact not_lt.mpr (directScore_le_one engine query h.entry)

end Hits

/-! ## The place of a hit -/

section Place

variable {E : Type} {front back : List (SearchHit E)} {x : SearchHit E} {minScore : JsNumber}

instance : IsTrans (SearchHit E) fun a b => b.score ≤ a.score :=
  ⟨fun _ _ _ hab hbc => hbc.trans hab⟩

instance : Std.Total fun a b : SearchHit E => b.score ≤ a.score :=
  ⟨fun a b => le_total b.score a.score⟩

theorem mem_kept_iff (hx : x ∉ front ++ back) (hmin : atLeast x.score minScore = true)
    (limit : JsNumber) :
    x ∈ sliceTo limit (((front ++ x :: back).filter fun h => atLeast h.score minScore).insertionSort
        fun a b => b.score ≤ a.score) ↔
      (front.countP fun h => x.score ≤ h.score) + back.countP (fun h => x.score < h.score) <
        keptBy limit ((front ++ x :: back).countP fun h => atLeast h.score minScore) := by
  have hcons : (x :: back).filter (fun h => atLeast h.score minScore) =
      x :: back.filter fun h => atLeast h.score minScore := List.filter_cons_of_pos hmin
  rw [sliceTo_eq_take, List.length_insertionSort, ← List.countP_eq_length_filter,
    List.filter_append, hcons, mem_take_insertionSort_iff]
  · have hfront : (front.filter fun h => atLeast h.score minScore).countP
        (fun h => x.score ≤ h.score) = front.countP fun h => x.score ≤ h.score := by
      rw [List.countP_filter]
      refine List.countP_congr fun h _ => ?_
      simpa using fun hle => atLeast_mono hle hmin
    have hback : (back.filter fun h => atLeast h.score minScore).countP
        (fun h => ¬ h.score ≤ x.score) = back.countP fun h => x.score < h.score := by
      rw [List.countP_filter]
      refine List.countP_congr fun h _ => ?_
      simpa using fun hlt => atLeast_mono hlt.le hmin
    rw [hfront, hback]
  · rw [← List.filter_append]
    exact fun hmem => hx (List.mem_of_mem_filter hmem)

end Place

/-! ## The search for an id -/

section Search

variable (query : String) (options : SearchOptions) {candidates : List (Entry Group Rest)}
  (byId : Dict ℚ)

/-- What `assemble` filters, sorts and cuts. -/
def allHits (candidates : List (Entry Group Rest)) : List (SearchHit (Entry Group Rest)) :=
  vectorHits candidates byId ++
    if options.vectorOnly then []
    else lexicalHits engine query candidates ((vectorHits candidates byId).map fun h => h.entry.id)

omit [DecidableEq Group] in
theorem assemble_eq : assemble engine query options candidates byId =
    sliceTo (options.limit.getD (.finite 20))
      (((allHits engine query options byId candidates).filter fun h =>
        atLeast h.score (options.minScore.getD (.finite (1 / 20)))).insertionSort
          fun a b => b.score ≤ a.score) := by
  unfold assemble allHits
  cases options.vectorOnly <;> simp

variable (hids : (candidates.map Entry.id).Nodup)

include hids

omit [DecidableEq Group] in
theorem countP_allHits : (allHits engine query options byId candidates).countP (fun h =>
    atLeast h.score (options.minScore.getD (.finite (1 / 20)))) =
      total engine query candidates byId options := by
  have hvector := countP_vectorHits candidates byId fun score =>
    atLeast score (options.minScore.getD (.finite (1 / 20)))
  have hdirect := countP_lexicalHits engine query candidates byId
    (fun e he => mem_seen_iff byId hids he) fun score =>
      atLeast score (options.minScore.getD (.finite (1 / 20)))
  rw [allHits, total, List.countP_append, hvector]
  split
  · rfl
  · rw [hdirect]

variable {e : Entry Group Rest} (he : e ∈ candidates)

include he

omit [DecidableEq Group] in
/-- Without a vector hit the entry is found by its id. -/
theorem mem_assemble_direct (hnone : Dict.get? byId e.id = none)
    (hoptions : options.vectorOnly = false)
    (hmin : atLeast 1 (options.minScore.getD (.finite (1 / 20))) = true) :
    (⟨e, 1, .exactId⟩ : SearchHit (Entry Group Rest)) ∈
        assemble engine e.id options candidates byId ↔
      ahead engine e.id candidates byId < keptBy (options.limit.getD (.finite 20))
        (total engine e.id candidates byId options) := by
  obtain ⟨front, back, hsplit, hfront, hback, htake, -⟩ := split_key hids he
  have hseen : ∀ a ∈ candidates, a.id ∈ (vectorHits candidates byId).map (fun h => h.entry.id) ↔
      (Dict.get? byId a.id).isSome := fun a ha => mem_seen_iff byId hids ha
  rw [assemble_eq, ← countP_allHits engine e.id options byId hids]
  rw [allHits, hoptions, if_neg Bool.false_ne_true]
  generalize hids' : (vectorHits candidates byId).map (fun h => h.entry.id) = seen at *
  have hnotin : e.id ∉ seen := fun hin => by simpa [hnone] using (hseen e he).mp hin
  have hlex : lexicalHits engine e.id candidates seen = lexicalHits engine e.id front seen ++
      ⟨e, 1, .exactId⟩ :: lexicalHits engine e.id back seen := by
    rw [hsplit, lexicalHits, List.filterMap_append, List.filterMap_cons, if_neg hnotin, if_pos rfl]
    rfl
  rw [hlex, ← List.append_assoc, mem_kept_iff _ hmin]
  · have hfrontSeen : ∀ a ∈ front, a.id ∈ seen ↔ (Dict.get? byId a.id).isSome := fun a ha =>
      hseen a (hsplit ▸ List.mem_append_left _ ha)
    have hahead : (vectorHits candidates byId ++ lexicalHits engine e.id front seen).countP
        (fun h => (1 : ℚ) ≤ h.score) = ahead engine e.id candidates byId := by
      rw [List.countP_append, ahead, if_neg (by simp [hnone]), htake,
        countP_vectorHits candidates byId fun score => 1 ≤ score,
        countP_lexicalHits engine e.id front byId hfrontSeen fun score => 1 ≤ score]
    have hbehind := countP_lexicalHits_one_lt engine e.id back seen
    rw [hahead, hbehind, Nat.add_zero]
  · intro hmem
    rcases List.mem_append.mp hmem with hmem | hmem
    · rcases List.mem_append.mp hmem with hmem | hmem
      · cases (mem_vectorHits byId hmem).2.2
      · exact hfront e (mem_lexicalHits engine e.id hmem).1 rfl
    · exact hback e (mem_lexicalHits engine e.id hmem).1 rfl

omit [DecidableEq Group] in
/-- A vector hit of the score 1 is kept like one that is found by its id. -/
theorem mem_assemble_vector (hkeys : (byId.map Prod.fst).Nodup)
    (hsome : Dict.get? byId e.id = some 1)
    (hmin : atLeast 1 (options.minScore.getD (.finite (1 / 20))) = true) :
    (⟨e, 1, .vector⟩ : SearchHit (Entry Group Rest)) ∈
        assemble engine e.id options candidates byId ↔
      ahead engine e.id candidates byId < keptBy (options.limit.getD (.finite 20))
        (total engine e.id candidates byId options) := by
  rw [assemble_eq, ← countP_allHits engine e.id options byId hids, allHits]
  generalize hrest : (if options.vectorOnly = true then [] else lexicalHits engine e.id candidates
    ((vectorHits candidates byId).map fun h => h.entry.id)) = rest
  have hrestLe : rest.countP (fun h => (1 : ℚ) < h.score) = 0 := by
    rw [← hrest]
    split
    · rfl
    · exact countP_lexicalHits_one_lt ..
  have hrestReason : ∀ h ∈ rest, h.entry.id = e.id → h.reason = .exactId := by
    rw [← hrest]
    intro h hh
    split_ifs at hh
    · exact absurd hh List.not_mem_nil
    · exact (mem_lexicalHits engine e.id hh).2.2.2
  obtain ⟨front, back, hsplit, hfront, hback, htake, hdrop⟩ :=
    split_key hkeys (Dict.mem_of_get? hsome)
  have hhits : vectorHits candidates byId =
      vectorHits candidates front ++ ⟨e, 1, .vector⟩ :: vectorHits candidates back := by
    change List.filterMap (vectorHit candidates) _ = _
    rw [hsplit, List.filterMap_append, List.filterMap_cons, vectorHit_of_mem hids he]
    rfl
  rw [hhits, List.append_assoc, List.cons_append, mem_kept_iff _ hmin]
  · have hahead : (vectorHits candidates front).countP (fun h => (1 : ℚ) ≤ h.score) +
        (vectorHits candidates back ++ rest).countP (fun h => (1 : ℚ) < h.score) =
          ahead engine e.id candidates byId := by
      have hself : vectorCount candidates ((e.id, 1) :: back) (fun score => 1 < score) =
          vectorCount candidates back fun score => 1 < score :=
        List.countP_cons_of_neg (by simp)
      rw [ahead, hsome, if_pos Option.isSome_some, htake, hdrop, hself, List.countP_append,
        hrestLe, Nat.add_zero, countP_vectorHits candidates front fun score => 1 ≤ score,
        countP_vectorHits candidates back fun score => 1 < score]
    rw [hahead]
  · intro hmem
    rcases List.mem_append.mp hmem with hmem | hmem
    · exact hfront _ (mem_vectorHits front hmem).2.1 rfl
    · rcases List.mem_append.mp hmem with hmem | hmem
      · exact hback _ (mem_vectorHits back hmem).2.1 rfl
      · cases hrestReason _ hmem rfl

omit he in
omit [DecidableEq Group] in
/-- What comes back with the score 1 for an entry is one of these two hits. -/
theorem hit_of_mem_assemble (hkeys : (byId.map Prod.fst).Nodup) {hit : SearchHit (Entry Group Rest)}
    (hhit : hit ∈ assemble engine hit.entry.id options candidates byId) (hscore : hit.score = 1) :
    hit.entry ∈ candidates ∧ atLeast 1 (options.minScore.getD (.finite (1 / 20))) = true ∧
      (Dict.get? byId hit.entry.id = some 1 ∧ hit.reason = .vector ∨
        Dict.get? byId hit.entry.id = none ∧ options.vectorOnly = false ∧
          hit.reason = .exactId) := by
  rw [assemble_eq, sliceTo_eq_take] at hhit
  have hfiltered := (List.mem_insertionSort _).mp (List.mem_of_mem_take hhit)
  obtain ⟨hall, hmin⟩ := List.mem_filter.mp hfiltered
  rw [hscore] at hmin
  rcases List.mem_append.mp hall with hvector | hrest
  · obtain ⟨hentry, hkey, hreason⟩ := mem_vectorHits byId hvector
    rw [hscore] at hkey
    exact ⟨hentry, hmin, .inl ⟨Dict.get?_of_mem hkeys hkey, hreason⟩⟩
  · split_ifs at hrest with hoptions
    · exact absurd hrest List.not_mem_nil
    · obtain ⟨hentry, hseen, -, hreason⟩ := mem_lexicalHits engine _ hrest
      rw [mem_seen_iff byId hids hentry, Option.not_isSome_iff_eq_none] at hseen
      exact ⟨hentry, hmin, .inr ⟨hseen, by simpa using hoptions, hreason rfl⟩⟩

end Search

end Exact

/-- A store with one prompt. -/
def onePrompt (engine : Engine Unit) : Table String PromptRest Unit :=
  SqlitePromptStore.put engine "firm" ⟨[], []⟩ (prompt "nda" "legal") "t0"

def storedPrompt : PromptEntry :=
  { prompt "nda" "legal" with created_at := "t0", updated_at := "t0" }

/-- The vector of every text is at the distance one from that of every query. -/
def farEngine : Engine Unit := { unitEngine with distance := fun _ _ => 1 }

end FirmMemory
end Batiste
