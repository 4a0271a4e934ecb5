import Batiste.MarketplaceGateway

/-! Runs of the gateway: which nodes are online, what a route prefers, what a use of a node costs. -/
namespace Batiste
namespace MarketplaceGateway

open Marketplace Transition

section Runs

variable (rt : Runtime)

/-! ## What a step does -/

inductive Effect (s : State) : State → Prop
  | same : Effect s s
  | taken : Effect s { s with issued := s.issued + 1 }
  | registered (input : RegisterNodeInput) (nodes : Nodes)
      (h : s.nodes.insert (newRow rt s input) = some nodes) :
      Effect s { s with issued := s.issued + 1, nodes }
  | beat (id : String) : Effect s { s with nodes := s.nodes.heartbeat id s.clock }
  | removed (id : String) : Effect s { s with nodes := s.nodes.delete id }
  | recorded (input : RecordCyclesInput) (node : NodeRow) (billing : Billing)
      (hnode : s.nodes.get input.nodeId = some node)
      (h : s.billing.insert (newEntry rt s input node) = some billing) :
      Effect s { s with
        issued := s.issued + 1, billing, nodes := s.nodes.updateReliability input.nodeId true }
  | pruned : Effect s { s with nodes := s.nodes.pruneStale s.clock, pruned := s.clock }
  | elapsed (ms : ℕ) : Effect s { s with clock := s.clock + ms }

theorem register_effect (s : State) (input : RegisterNodeInput) :
    Effect rt s (register rt s input).1 := by
  unfold register
  cases h : s.nodes.insert (newRow rt s input) with
  | none => exact .taken
  | some nodes => exact .registered input nodes h

theorem record_effect (s : State) (input : RecordCyclesInput) :
    Effect rt s (record rt s input).1 := by
  unfold record
  cases hnode : s.nodes.get input.nodeId with
  | none => exact .same
  | some node =>
    cases h : s.billing.insert (newEntry rt s input node) with
    | none =>
      simp only [h]
      exact .taken
    | some billing =>
      simp only [h]
      exact .recorded input node billing hnode h

theorem answer_fst (s : State) (response : Except Refusal Response) : (answer s response).1 = s := by
  cases response <;> rfl

theorem handler_effect (s : State) (method : String) (url : List Char) (body : String) :
    Effect rt s (handler rt s method url body).1 := by
  unfold handler
  split_ifs
  · exact .same
  · exact .same
  · split
    · exact .same
    · exact register_effect rt s _
  · rw [answer_fst]
    exact .same
  · split
    · exact .same
    · exact .beat _
  · split
    · exact .same
    · exact .removed _
  · rw [answer_fst]
    exact .same
  · split
    · exact .same
    · exact record_effect rt s _
  · split
    · exact .same
    · exact .same
  · exact .same

theorem step_effect {s t : State} {event : Event} (h : step rt s event = some t) :
    Effect rt s t := by
  cases event with
  | request method url body =>
    obtain rfl := Option.some.inj h
    exact handler_effect rt s method url body
  | prune =>
    obtain rfl := Option.some.inj h
    exact .pruned
  | elapse ms =>
    obtain rfl := Option.some.inj h
    exact .elapsed ms

/-- What a step leaves of a node, or a new one. -/
theorem Effect.row {s t : State} (h : Effect rt s t) {row : NodeRow} (hrow : row ∈ t.nodes.rows) :
    (∃ old ∈ s.nodes.rows, old.id = row.id ∧ old.name = row.name ∧
      old.pricePerCycle = row.pricePerCycle) ∨
    (row.id = rt.randomUUID s.issued ∧ t.issued = s.issued + 1 ∧ t.billing = s.billing) := by
  cases h with
  | same => exact .inl ⟨row, hrow, rfl, rfl, rfl⟩
  | taken => exact .inl ⟨row, hrow, rfl, rfl, rfl⟩
  | registered input nodes h =>
    obtain ⟨hrows, -⟩ := KeyTable.insert_eq_some h
    change row ∈ nodes.rows at hrow
    rw [hrows, List.mem_append, List.mem_singleton] at hrow
    rcases hrow with hrow | rfl
    · exact .inl ⟨row, hrow, rfl, rfl, rfl⟩
    · exact .inr ⟨rfl, rfl, rfl⟩
  | beat id =>
    obtain ⟨old, hold, rfl⟩ := Nodes.mem_heartbeat.mp hrow
    refine .inl ⟨old, hold, ?_⟩
    split_ifs <;> simp
  | removed id => exact .inl ⟨row, (KeyTable.mem_delete.mp hrow).1, rfl, rfl, rfl⟩
  | recorded input node billing hnode h =>
    obtain ⟨old, hold, rfl⟩ := Nodes.mem_updateReliability.mp hrow
    refine .inl ⟨old, hold, ?_⟩
    split_ifs <;> simp
  | pruned =>
    obtain ⟨old, hold, rfl⟩ := Nodes.mem_pruneStale.mp hrow
    refine .inl ⟨old, hold, ?_⟩
    split_ifs <;> simp
  | elapsed ms => exact .inl ⟨row, hrow, rfl, rfl, rfl⟩

/-- The meter keeps its entries, and adds one for a node that is registered. -/
theorem Effect.billing {s t : State} (h : Effect rt s t) :
    t.billing = s.billing ∨
    ∃ e, t.billing.rows = s.billing.rows ++ [e] ∧ (∃ input node, e = newEntry rt s input node ∧
      node ∈ s.nodes.rows ∧ node.id = e.nodeId) ∧ t.issued = s.issued + 1 ∧ t.clock = s.clock := by
  cases h with
  | recorded input node billing hnode h =>
    obtain ⟨hmem, hid⟩ := KeyTable.get_eq_some hnode
    exact .inr ⟨_, (KeyTable.insert_eq_some h).1, ⟨input, node, rfl, hmem, hid⟩, rfl, rfl⟩
  | _ => exact .inl rfl

theorem Effect.mono {s t : State} (h : Effect rt s t) : s.issued ≤ t.issued ∧ s.clock ≤ t.clock := by
  cases h with
  | elapsed ms => exact ⟨le_refl _, Nat.le_add_right _ _⟩
  | _ => exact ⟨by simp, le_refl _⟩

/-! ## The invariant -/

/-- The identifier was given before. -/
def Issued (s : State) (id : String) : Prop := ∃ n < s.issued, rt.randomUUID n = id

/-- What stays of a node as long as it is registered. -/
structure RowOk (s : State) (row : NodeRow) : Prop where
  issued : Issued rt s row.id
  price_pos : 0 < row.pricePerCycle
  reliability : row.reliability = 1
  latency : row.latencyMs = none
  beat : row.lastHeartbeat ≤ s.clock
  status : row.status =
    if s.pruned ≤ row.lastHeartbeat + HEARTBEAT_TIMEOUT_MS then .online else .offline

structure EntryOk (s : State) (e : BillingEntry) : Prop where
  issued : Issued rt s e.id
  node : Issued rt s e.nodeId
  cycles_pos : 0 < e.cyclesUsed
  cost : e.totalCost = e.cyclesUsed * e.pricePerCycle
  recorded : e.recordedAt ≤ s.clock

structure Inv (s : State) : Prop where
  clock : s.pruned ≤ s.clock
  rows : ∀ row ∈ s.nodes.rows, RowOk rt s row
  entries : ∀ e ∈ s.billing.rows, EntryOk rt s e
  inOrder : s.billing.rows.Pairwise fun a b => a.recordedAt ≤ b.recordedAt

variable {rt}

theorem Issued.mono {s t : State} {id : String} (h : Issued rt s id) (hle : s.issued ≤ t.issued) :
    Issued rt t id := by
  obtain ⟨n, hn, hid⟩ := h
  exact ⟨n, hn.trans_le hle, hid⟩

/-- The next identifier is none of those before. -/
theorem Issued.ne {s : State} {id : String} (h : Issued rt s id) : id ≠ rt.randomUUID s.issued := by
  obtain ⟨n, hn, rfl⟩ := h
  exact fun heq => absurd (rt.fresh heq) hn.ne

theorem RowOk.mono {s t : State} {row : NodeRow} (h : RowOk rt s row) (hissued : s.issued ≤ t.issued)
    (hclock : s.clock ≤ t.clock) (hpruned : t.pruned = s.pruned) : RowOk rt t row where
  issued := h.issued.mono hissued
  price_pos := h.price_pos
  reliability := h.reliability
  latency := h.latency
  beat := h.beat.trans hclock
  status := by rw [hpruned]; exact h.status

theorem EntryOk.mono {s t : State} {e : BillingEntry} (h : EntryOk rt s e)
    (hissued : s.issued ≤ t.issued) (hclock : s.clock ≤ t.clock) : EntryOk rt t e where
  issued := h.issued.mono hissued
  node := h.node.mono hissued
  cycles_pos := h.cycles_pos
  cost := h.cost
  recorded := h.recorded.trans hclock

theorem RowOk.beating {s : State} {row : NodeRow} (h : RowOk rt s row) (hclock : s.pruned ≤ s.clock) :
    RowOk rt s { row with lastHeartbeat := s.clock, status := .online } where
  issued := h.issued
  price_pos := h.price_pos
  reliability := h.reliability
  latency := h.latency
  beat := le_refl _
  status := by rw [if_pos (hclock.trans (Nat.le_add_right _ _))]

/-- A success leaves the greatest reliability as it is. -/
theorem RowOk.succeeding {s : State} {row : NodeRow} (h : RowOk rt s row) :
    RowOk rt s { row with reliability := 1 / 10 + 9 / 10 * row.reliability } where
  issued := h.issued
  price_pos := h.price_pos
  reliability := by
    rw [h.reliability]
    norm_num
  latency := h.latency
  beat := h.beat
  status := h.status

theorem RowOk.pruning {s : State} {row : NodeRow} (h : RowOk rt s row) (hclock : s.pruned ≤ s.clock) :
    RowOk rt { s with nodes := s.nodes.pruneStale s.clock, pruned := s.clock }
      (if row.lastHeartbeat + HEARTBEAT_TIMEOUT_MS < s.clock ∧ row.status = .online then
        { row with status := .offline } else row) := by
  split_ifs with hstale
  · exact ⟨h.issued, h.price_pos, h.reliability, h.latency, h.beat,
      (if_neg (not_le.mpr hstale.1)).symm⟩
  · refine ⟨h.issued, h.price_pos, h.reliability, h.latency, h.beat, ?_⟩
    have hstatus := h.status
    change row.status = if s.clock ≤ _ then _ else _
    split_ifs at hstatus ⊢ with hnew hold hold
    · exact hstatus
    · exact absurd (hclock.trans hnew) hold
    · exact absurd ⟨not_le.mp hnew, hstatus⟩ hstale
    · exact hstatus

theorem rows_step {s t : State} (hs : Inv rt s) (h : Effect rt s t) :
    ∀ row ∈ t.nodes.rows, RowOk rt t row := by
  intro row hrow
  cases h with
  | same => exact hs.rows row hrow
  | taken => exact (hs.rows row hrow).mono (Nat.le_succ _) (le_refl _) rfl
  | registered input nodes h =>
    change row ∈ nodes.rows at hrow
    rw [(KeyTable.insert_eq_some h).1, List.mem_append, List.mem_singleton] at hrow
    rcases hrow with hrow | rfl
    · exact (hs.rows row hrow).mono (Nat.le_succ _) (le_refl _) rfl
    · refine ⟨⟨s.issued, Nat.lt_succ_self _, rfl⟩, input.price_pos, rfl, rfl, le_refl _, ?_⟩
      exact (if_pos (hs.clock.trans (Nat.le_add_right _ _))).symm
  | beat id =>
    obtain ⟨old, hold, rfl⟩ := Nodes.mem_heartbeat.mp hrow
    split_ifs
    · exact ((hs.rows old hold).beating hs.clock).mono (le_refl _) (le_refl _) rfl
    · exact (hs.rows old hold).mono (le_refl _) (le_refl _) rfl
  | removed id =>
    exact (hs.rows row (KeyTable.mem_delete.mp hrow).1).mono (le_refl _) (le_refl _) rfl
  | recorded input node billing hnode h =>
    obtain ⟨old, hold, rfl⟩ := Nodes.mem_updateReliability.mp hrow
    split_ifs
    · exact (hs.rows old hold).succeeding.mono (Nat.le_succ _) (le_refl _) rfl
    · exact (hs.rows old hold).mono (Nat.le_succ _) (le_refl _) rfl
  | pruned =>
    obtain ⟨old, hold, rfl⟩ := Nodes.mem_pruneStale.mp hrow
    exact (hs.rows old hold).pruning hs.clock
  | elapsed ms => exact (hs.rows row hrow).mono (le_refl _) (Nat.le_add_right _ _) rfl

theorem inv_step {s t : State} {event : Event} (hs : Inv rt s) (h : step rt s event = some t) :
    Inv rt t := by
  have heffect := step_effect rt h
  refine ⟨?_, rows_step hs heffect, ?_, ?_⟩
  · cases heffect with
    | pruned => exact le_refl _
    | elapsed ms => exact hs.clock.trans (Nat.le_add_right _ _)
    | _ => exact hs.clock
  · intro e he
    obtain ⟨hissued, hclock⟩ := heffect.mono
    rcases heffect.billing with hsame | ⟨e', hrows, ⟨input, node, rfl, hnode, hid⟩, htaken, hnow⟩
    · rw [hsame] at he
      exact (hs.entries e he).mono hissued hclock
    · rw [hrows, List.mem_append, List.mem_singleton] at he
      rcases he with he | rfl
      · exact (hs.entries e he).mono hissued hclock
      · refine ⟨⟨s.issued, by omega, rfl⟩, ?_, input.cycles_pos, rfl, hclock⟩
        rw [← hid]
        exact (hs.rows node hnode).issued.mono hissued
  · rcases heffect.billing with hsame | ⟨e', hrows, ⟨input, node, rfl, hnode, hid⟩, -, -⟩
    · rw [hsame]
      exact hs.inOrder
    · rw [hrows, List.pairwise_append]
      refine ⟨hs.inOrder, List.pairwise_singleton _ _, fun e he e' he' => ?_⟩
      obtain rfl := List.mem_singleton.mp he'
      exact (hs.entries e he).recorded

theorem inv_initial : Inv rt State.initial where
  clock := le_refl _
  rows := fun row hrow => by cases hrow
  entries := fun e he => by cases he
  inOrder := List.Pairwise.nil

theorem run_inv {events : List Event} {s : State} (h : run (step rt) State.initial events = some s) :
    Inv rt s := run_invariant (fun _ _ _ => inv_step) inv_initial h

/-! ## The price of a node -/

variable (rt) in
/-- Whatever is said of the node says this name and this price. -/
structure Known (s : State) (id name : String) (price : ℚ) : Prop where
  issued : Issued rt s id
  rows : ∀ row ∈ s.nodes.rows, row.id = id → row.name = name ∧ row.pricePerCycle = price
  entries : ∀ e ∈ s.billing.rows, e.nodeId = id → e.nodeName = name ∧ e.pricePerCycle = price

theorem Known.step {s t : State} {id name : String} {price : ℚ} (h : Known rt s id name price)
    (heffect : Effect rt s t) : Known rt t id name price := by
  refine ⟨h.issued.mono heffect.mono.1, ?_, ?_⟩
  · intro row hrow hid
    rcases heffect.row rt hrow with ⟨old, hold, hsame, hname, hprice⟩ | ⟨hnew, -, -⟩
    · rw [← hname, ← hprice]
      exact h.rows old hold (hsame.trans hid)
    · exact absurd (hid.symm.trans hnew) h.issued.ne
  · intro e he hid
    rcases heffect.billing with hsame | ⟨e', hrows, ⟨input, node, rfl, hnode, hof⟩, -, -⟩
    · rw [hsame] at he
      exact h.entries e he hid
    · rw [hrows, List.mem_append, List.mem_singleton] at he
      rcases he with he | rfl
      · exact h.entries e he hid
      · exact h.rows node hnode (hof.trans hid)

variable (rt) in
def AllKnown (s : State) : Prop :=
  ∀ row ∈ s.nodes.rows, Known rt s row.id row.name row.pricePerCycle

theorem allKnown_step {s t : State} (hs : Inv rt s) (h : AllKnown rt s) (heffect : Effect rt s t) :
    AllKnown rt t := by
  intro row hrow
  rcases heffect.row rt hrow with ⟨old, hold, hid, hname, hprice⟩ | ⟨hid, hissued, hbilling⟩
  · rw [← hid, ← hname, ← hprice]
    exact (h old hold).step heffect
  · refine ⟨⟨s.issued, by omega, hid.symm⟩, ?_, ?_⟩
    · intro row' hrow' hsame
      obtain rfl := KeyTable.row_unique hrow' hrow hsame
      exact ⟨rfl, rfl⟩
    · intro e he hof
      rw [hbilling] at he
      exact absurd (hof.trans hid) (hs.entries e he).node.ne

theorem run_allKnown {events : List Event} {s : State}
    (h : run (step rt) State.initial events = some s) : AllKnown rt s := by
  have hboth : Inv rt s ∧ AllKnown rt s := by
    refine run_invariant (I := fun s => Inv rt s ∧ AllKnown rt s) ?_ ⟨inv_initial, ?_⟩ h
    · intro s event t hs hstep
      exact ⟨inv_step hs.1 hstep, allKnown_step hs.1 hs.2 (step_effect rt hstep)⟩
    · intro row hrow
      cases hrow
  exact hboth.2

theorem run_known {events : List Event} {s t : State} {id name : String} {price : ℚ}
    (h : Known rt s id name price) (hrun : run (step rt) s events = some t) :
    Known rt t id name price :=
  run_invariant (fun _ _ _ hs hstep => Known.step hs (step_effect rt hstep)) h hrun

theorem run_keepsBilling {events : List Event} {s t : State}
    (h : run (step rt) s events = some t) : s.billing.rows <+: t.billing.rows := by
  refine run_invariant (I := fun u : State => s.billing.rows <+: u.billing.rows) ?_
    List.prefix_rfl h
  intro u event v hu hstep
  rcases (step_effect rt hstep).billing with hsame | ⟨e, hrows, -⟩
  · rwa [hsame]
  · rw [hrows]
    exact hu.trans (List.prefix_append _ _)

/-- Every entry is about a node that was registered when it was made. -/
theorem entry_origin {events : List Event} {s : State}
    (h : run (step rt) State.initial events = some s) : ∀ e ∈ s.billing.rows, ∃ pre post u row,
      events = pre ++ post ∧ run (step rt) State.initial pre = some u ∧ row ∈ u.nodes.rows ∧
        row.id = e.nodeId := by
  induction events using List.reverseRecOn generalizing s with
  | nil =>
    obtain rfl : State.initial = s := by simpa using h
    intro e he
    cases he
  | append_singleton events event ih =>
    obtain ⟨u, hu, hlast⟩ := run_append.mp h
    obtain ⟨v, hv, hnil⟩ := run_cons_iff.mp hlast
    obtain rfl : v = s := by simpa using hnil
    have hold : ∀ e ∈ u.billing.rows, ∃ pre post w row, events ++ [event] = pre ++ post ∧
        run (step rt) State.initial pre = some w ∧ row ∈ w.nodes.rows ∧ row.id = e.nodeId := by
      intro e he
      obtain ⟨pre, post, w, row, rfl, hw, hrow, hid⟩ := ih hu e he
      exact ⟨pre, post ++ [event], w, row, by simp, hw, hrow, hid⟩
    intro e he
    rcases (step_effect rt hv).billing with hsame | ⟨e', hrows, ⟨input, node, rfl, hnode, hof⟩, -⟩
    · rw [hsame] at he
      exact hold e he
    · rw [hrows, List.mem_append, List.mem_singleton] at he
      rcases he with he | rfl
      · exact hold e he
      · exact ⟨events, [event], u, node, rfl, hu, hnode, hof⟩

/-! ## Reports -/

def State.report (s : State) (sessionId : String) : BillingReport :=
  s.billing.getReport sessionId s.clock

theorem Inv.report_entries {s : State} (h : Inv rt s) (sessionId : String) :
    (s.report sessionId).entries = s.billing.rows.filter fun e => e.sessionId = sessionId := by
  refine List.Pairwise.insertionSort_eq ?_
  exact h.inOrder.sublist List.filter_sublist

theorem abs_round8_sub_le (x : ℚ) : |round8 x - x| ≤ 1 / (2 * 10 ^ 8) := by
  have hfloor := Int.floor_le (x * 10 ^ 8 + 1 / 2)
  have hlt := Int.lt_floor_add_one (x * 10 ^ 8 + 1 / 2)
  unfold round8
  rw [abs_le]
  constructor
  · rw [le_sub_iff_add_le, le_div_iff₀ (by norm_num)]
    linarith
  · rw [sub_le_iff_le_add, div_le_iff₀ (by norm_num)]
    linarith

/-- What the entries cost at the prices that they name. -/
def due (entries : List BillingEntry) : ℚ :=
  (entries.map fun e => (e.cyclesUsed : ℚ) * e.pricePerCycle).sum

theorem Inv.report_cost {s : State} (h : Inv rt s) (sessionId : String) :
    |(s.report sessionId).totalCost - due (s.report sessionId).entries| ≤ 1 / (2 * 10 ^ 8) := by
  have hdue : due (s.report sessionId).entries =
      ((s.report sessionId).entries.map BillingEntry.totalCost).sum := by
    unfold due
    congr 1
    refine List.map_congr_left fun e he => ?_
    rw [h.report_entries, List.mem_filter] at he
    exact (h.entries e he.1).cost.symm
  rw [hdue]
  exact abs_round8_sub_le _

variable (rt) in
theorem exists_run (events : List Event) (s : State) : ∃ t, run (step rt) s events = some t := by
  induction events generalizing s with
  | nil => exact ⟨s, rfl⟩
  | cons event events ih =>
    have hstep : ∃ u, step rt s event = some u := by cases event <;> exact ⟨_, rfl⟩
    obtain ⟨u, hu⟩ := hstep
    obtain ⟨t, ht⟩ := ih u
    exact ⟨t, run_cons_iff.mpr ⟨u, hu, ht⟩⟩

/-- Heard from in time, as of the last look at the stale ones, and what the request asks for. -/
structure Serves (s : State) (request : RouteRequest) (row : NodeRow) : Prop where
  fresh : s.pruned ≤ row.lastHeartbeat + HEARTBEAT_TIMEOUT_MS
  capability : request.capability ∈ row.capabilities
  price : ∀ price, request.maxPricePerCycle = some price → row.pricePerCycle ≤ price

theorem Inv.eligible_iff {s : State} (h : Inv rt s) {request : RouteRequest} {node : NodeRecord} :
    Eligible s.nodes.registry request node ↔
      ∃ row ∈ s.nodes.rows, row.toNodeRecord = node ∧ Serves s request row := by
  constructor
  · rintro ⟨hregistered, honline, hcapability, hprice⟩
    obtain ⟨row, hrow, rfl⟩ := List.mem_map.mp hregistered
    refine ⟨row, hrow, rfl, ?_, hcapability, hprice⟩
    by_contra hstale
    have hstatus := (h.rows row hrow).status
    rw [if_neg hstale, honline] at hstatus
    cases hstatus
  · rintro ⟨row, hrow, rfl, hfresh, hcapability, hprice⟩
    refine ⟨List.mem_map_of_mem hrow, ?_, hcapability, hprice⟩
    exact (h.rows row hrow).status.trans (if_pos hfresh)

def tagBonus (request : RouteRequest) (node : NodeRecord) : ℚ :=
  if hasPreferredTag request node then 1 else 0

/-- Equally reliable nodes, equally far away, differ in their prices and their tags alone. -/
theorem score_le_iff {nodes : List NodeRecord} {request : RouteRequest} {a b : NodeRecord}
    (hreliability : a.reliability = b.reliability) (hlatency : a.latencyMs = b.latencyMs) :
    compositeScore nodes request b ≤ compositeScore nodes request a ↔
      3 * (normalise a.pricePerCycle (minOf (nodes.map NodeRecord.pricePerCycle))
          (maxOf (nodes.map NodeRecord.pricePerCycle)) -
        normalise b.pricePerCycle (minOf (nodes.map NodeRecord.pricePerCycle))
          (maxOf (nodes.map NodeRecord.pricePerCycle))) ≤ tagBonus request a - tagBonus request b := by
  unfold compositeScore tagBonus latency
  simp only [WEIGHT_RELIABILITY, WEIGHT_LATENCY, WEIGHT_PRICE, WEIGHT_TAG_BONUS]
  rw [hreliability, hlatency]
  constructor
  · intro hle
    linarith
  · intro hle
    linarith

theorem foldl_min_mem (xs : List ℚ) (start : ℚ) :
    xs.foldl min start = start ∨ xs.foldl min start ∈ xs := by
  induction xs generalizing start with
  | nil => exact .inl rfl
  | cons x xs ih =>
    rcases ih (min start x) with heq | hmem
    · rcases min_choice start x with hstart | hx
      · exact .inl (heq.trans hstart)
      · exact .inr (List.mem_cons.mpr (.inl (heq.trans hx)))
    · exact .inr (List.mem_cons_of_mem _ hmem)

theorem foldl_max_mem (xs : List ℚ) (start : ℚ) :
    xs.foldl max start = start ∨ xs.foldl max start ∈ xs := by
  induction xs generalizing start with
  | nil => exact .inl rfl
  | cons x xs ih =>
    rcases ih (max start x) with heq | hmem
    · rcases max_choice start x with hstart | hx
      · exact .inl (heq.trans hstart)
      · exact .inr (List.mem_cons.mpr (.inl (heq.trans hx)))
    · exact .inr (List.mem_cons_of_mem _ hmem)

theorem minOf_mem {xs : List ℚ} (h : xs ≠ []) : minOf xs ∈ xs := by
  cases xs with
  | nil => exact absurd rfl h
  | cons x xs =>
    rcases foldl_min_mem (x :: xs) x with heq | hmem
    · exact List.mem_cons.mpr (.inl heq)
    · exact hmem

theorem maxOf_mem {xs : List ℚ} (h : xs ≠ []) : maxOf xs ∈ xs := by
  cases xs with
  | nil => exact absurd rfl h
  | cons x xs =>
    rcases foldl_max_mem (x :: xs) x with heq | hmem
    · exact List.mem_cons.mpr (.inl heq)
    · exact hmem

/-- A preferred tag makes up for a third of the range of the prices, and for no more. -/
theorem normalise_sub_le {low high p q bonus : ℚ} (hp : low ≤ p ∧ p ≤ high)
    (hq : low ≤ q ∧ q ≤ high) (h : 3 * (normalise p low high - normalise q low high) ≤ bonus) :
    3 * (p - q) ≤ bonus * (high - low) ∧ (p = q → 0 ≤ bonus) := by
  unfold normalise at h
  split_ifs at h with hrange
  · have hequal : p = q := by linarith [hp.1, hp.2, hq.1, hq.2]
    refine ⟨?_, fun _ => by linarith⟩
    rw [hequal, hrange]
    linarith
  · have hpos : 0 < high - low := by
      rcases (hp.1.trans hp.2).lt_or_eq with hlt | heq
      · linarith
      · exact absurd heq.symm hrange
    rw [← sub_div, sub_sub_sub_cancel_right, mul_div_assoc', div_le_iff₀ hpos] at h
    refine ⟨h, ?_⟩
    rintro rfl
    rw [sub_self, mul_zero] at h
    exact nonneg_of_mul_nonneg_left h hpos

theorem tagBonus_nonneg {request : RouteRequest} {a b : NodeRecord}
    (h : 0 ≤ tagBonus request a - tagBonus request b) (hb : hasPreferredTag request b = true) :
    hasPreferredTag request a = true := by
  by_contra ha
  unfold tagBonus at h
  rw [if_neg ha, if_pos hb] at h
  norm_num at h

theorem handler_route {s : State} {body : String} {request : RouteRequest}
    (h : rt.routeRequest body = .ok request) : handler rt s "POST" "/route".toList body =
      (s, routed (route rt.sorter s.nodes.registry request)) := by
  have hhandler : handler rt s "POST" "/route".toList body = answer s
      ((rt.routeRequest body).map fun request =>
        routed (route rt.sorter s.nodes.registry request)) := by
    simp [handler]
  rw [hhandler, h]
  rfl

/-- Of the nodes that serve a request, the routed one against another: no tag makes up for more
than a third of the range of their prices. -/
structure Preferred (request : RouteRequest) (low high row other : NodeRow) : Prop where
  range : low.pricePerCycle ≤ other.pricePerCycle ∧ other.pricePerCycle ≤ high.pricePerCycle
  price : 3 * (row.pricePerCycle - other.pricePerCycle) ≤
    (tagBonus request row.toNodeRecord - tagBonus request other.toNodeRecord) *
      (high.pricePerCycle - low.pricePerCycle)
  tag : row.pricePerCycle = other.pricePerCycle →
    hasPreferredTag request other.toNodeRecord = true →
      hasPreferredTag request row.toNodeRecord = true

theorem Inv.preferred {s : State} (h : Inv rt s) {request : RouteRequest} {result : RoutedNode}
    (hroute : route rt.sorter s.nodes.registry request = some result) :
    ∃ row ∈ s.nodes.rows, row.toNodeRecord = result.node ∧ Serves s request row ∧
      ∃ low ∈ s.nodes.rows, ∃ high ∈ s.nodes.rows, Serves s request low ∧ Serves s request high ∧
        ∀ other ∈ s.nodes.rows, Serves s request other → Preferred request low high row other := by
  obtain ⟨heligible, hbest⟩ := (route_optimal rt.sorter s.nodes.registry request).1 result hroute
  obtain ⟨row, hrow, hnode, hserves⟩ := h.eligible_iff.mp heligible
  let nodes := search rt.sorter s.nodes.registry (routeQuery request)
  let prices := nodes.map NodeRecord.pricePerCycle
  have hmem : ∀ other ∈ s.nodes.rows, Serves s request other → other.toNodeRecord ∈ nodes :=
    fun other hother hserve => (mem_search_routeQuery ..).mpr
      (h.eligible_iff.mpr ⟨other, hother, rfl, hserve⟩)
  have hprice : ∀ other ∈ s.nodes.rows, Serves s request other → other.pricePerCycle ∈ prices :=
    fun other hother hserve => List.mem_map.mpr ⟨_, hmem other hother hserve, rfl⟩
  have hserving : ∀ price ∈ prices, ∃ other ∈ s.nodes.rows, Serves s request other ∧
      other.pricePerCycle = price := by
    intro price hin
    obtain ⟨node, hnode, rfl⟩ := List.mem_map.mp hin
    obtain ⟨other, hother, rfl, hserve⟩ := h.eligible_iff.mp ((mem_search_routeQuery ..).mp hnode)
    exact ⟨other, hother, hserve, rfl⟩
  have hne : prices ≠ [] := List.ne_nil_of_mem (hprice row hrow hserves)
  obtain ⟨low, hlow, hlowServes, hmin⟩ := hserving _ (minOf_mem hne)
  obtain ⟨high, hhigh, hhighServes, hmax⟩ := hserving _ (maxOf_mem hne)
  have hrange : ∀ other ∈ s.nodes.rows, Serves s request other →
      minOf prices ≤ other.pricePerCycle ∧ other.pricePerCycle ≤ maxOf prices :=
    fun other hother hserve => ⟨(foldl_min_le prices _).2 _ (hprice other hother hserve),
      (le_foldl_max prices _).2 _ (hprice other hother hserve)⟩
  refine ⟨row, hrow, hnode, hserves, low, hlow, high, hhigh, hlowServes, hhighServes,
    fun other hother hserve => ?_⟩
  have hscore := (hbest _ (h.eligible_iff.mpr ⟨other, hother, rfl, hserve⟩)).1
  rw [← hnode, score_le_iff ((h.rows row hrow).reliability.trans (h.rows other hother).reliability.symm)
    ((h.rows row hrow).latency.trans (h.rows other hother).latency.symm)] at hscore
  obtain ⟨hle, hbonus⟩ :=
    normalise_sub_le (hrange row hrow hserves) (hrange other hother hserve) hscore
  rw [← hmin, ← hmax] at hle
  refine ⟨?_, hle, fun hequal => tagBonus_nonneg (hbonus hequal)⟩
  rw [hmin, hmax]
  exact hrange other hother hserve

end Runs

end MarketplaceGateway
end Batiste
