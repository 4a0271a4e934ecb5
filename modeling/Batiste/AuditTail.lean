import Batiste.Json

/-! The live tail of the audit ledger: what a connected client is sent, tick by tick. -/
namespace Batiste
namespace AuditTail

/-- The times that ledger entries carry. -/
abbrev Timestamp := { text : String // text ≠ "" }

inductive Outcome
  | success | denied | error
  deriving DecidableEq, Repr

structure AuditTailEntry where
  id : String
  timestamp : Timestamp
  sessionId : String
  agentId : String
  tool : String
  result : Outcome
  durationMs : ℚ
  args : Dict Json
  deriving DecidableEq

/-- Newest first; entries of one time come in the reverse order of the index. -/
def newestFirst (rows : List AuditTailEntry) : List AuditTailEntry :=
  rows.reverse.mergeSort fun a b => decide (b.timestamp ≤ a.timestamp)

def newer (sinceTs : Option Timestamp) (row : AuditTailEntry) : Bool :=
  match sinceTs with
  | none => true
  | some ts => decide (ts < row.timestamp)

def tailAudit (rows : List AuditTailEntry) (sinceTs : Option Timestamp) (limit : ℕ) :
    List AuditTailEntry :=
  (newestFirst (rows.filter (newer sinceTs))).take (max 1 (min 500 limit))

/-- A client, what it was sent, and whether the ledger was there when it connected. -/
structure Client where
  polls : Bool
  lastTs : Option Timestamp
  sent : List AuditTailEntry
  deriving DecidableEq

def Client.send (client : Client) (row : AuditTailEntry) : Client :=
  { client with
    lastTs :=
      match client.lastTs with
      | none => some row.timestamp
      | some ts => if ts < row.timestamp then some row.timestamp else some ts
    sent := client.sent ++ [row] }

/-- The batch goes out oldest first. -/
def Client.sendBatch (client : Client) (batch : List AuditTailEntry) : Client :=
  batch.reverse.foldl Client.send client

def attachAuditTailSse (db : Option (List AuditTailEntry)) : Client :=
  match db with
  | none => { polls := false, lastTs := none, sent := [] }
  | some rows =>
    Client.sendBatch { polls := true, lastTs := none, sent := [] } (tailAudit rows none 50)

def Client.tick (client : Client) (rows : List AuditTailEntry) : Client :=
  if client.polls then client.sendBatch (tailAudit rows client.lastTs 50) else client

/-- The ledger and one client, with the number of rows there were when it connected and when it
last polled. -/
structure System where
  ledger : List AuditTailEntry
  client : Client
  connectedAt : ℕ
  polled : ℕ

def start (db : Option (List AuditTailEntry)) : System where
  ledger := db.getD []
  client := attachAuditTailSse db
  connectedAt := (db.getD []).length
  polled := (db.getD []).length

inductive Action
  | append (row : AuditTailEntry)
  | tick
  /-- A tick whose query throws. -/
  | failedTick

/-- The ids of the ledger are its primary key. -/
def step (s : System) : Action → System
  | .append row =>
    if s.ledger.any fun old => old.id == row.id then s else { s with ledger := s.ledger ++ [row] }
  | .tick =>
    { s with
      client := s.client.tick s.ledger
      polled := if s.client.polls then s.ledger.length else s.polled }
  | .failedTick => s

/-- Every entry appended since the client connected was sent to it once. -/
def SentOnce (s : System) : Prop :=
  ∀ row ∈ s.ledger.drop s.connectedAt, s.client.sent.count row = 1

/-- At every tick the client has what was appended before. -/
def Complete : System → List Action → Prop
  | _, [] => True
  | s, action :: actions =>
    (action = .tick → SentOnce (step s action)) ∧ Complete (step s action) actions

/-- The rows that came since the last poll. -/
def pending (s : System) : List AuditTailEntry := s.ledger.drop s.polled

/-- A batch that one tick takes in whole. -/
structure Fits (s : System) : Prop where
  polls : pending s ≠ [] → s.client.polls = true
  length : (pending s).length ≤ 50
  newer : ∀ last ∈ (s.ledger.take s.polled).getLast?, ∀ row ∈ pending s,
    last.timestamp < row.timestamp

def Lossless : System → List Action → Prop
  | _, [] => True
  | s, action :: actions => (action = .tick → Fits s) ∧ Lossless (step s action) actions

def appended : List Action → List AuditTailEntry
  | [] => []
  | .append row :: actions => row :: appended actions
  | _ :: actions => appended actions

def Chronological (rows : List AuditTailEntry) : Prop :=
  rows.Pairwise fun a b => a.timestamp ≤ b.timestamp

/-! ## One batch -/

theorem newestFirst_eq {rows : List AuditTailEntry} (h : Chronological rows) :
    newestFirst rows = rows.reverse := by
  refine List.mergeSort_of_pairwise (List.pairwise_reverse.mpr (h.imp fun hab => ?_))
  exact decide_eq_true hab

theorem tailAudit_reverse {rows : List AuditTailEntry} (h : Chronological rows)
    (sinceTs : Option Timestamp) :
    (tailAudit rows sinceTs 50).reverse =
      (rows.filter (newer sinceTs)).drop ((rows.filter (newer sinceTs)).length - 50) := by
  have hkept : Chronological (rows.filter (newer sinceTs)) := h.filter _
  have hlimit : max 1 (min 500 50) = 50 := by decide
  rw [tailAudit, newestFirst_eq hkept, hlimit, List.take_reverse, List.reverse_reverse]

theorem foldl_send {rows : List AuditTailEntry} (h : Chronological rows) (client : Client)
    (hlast : ∀ ts ∈ client.lastTs, ∀ row ∈ rows, ts ≤ row.timestamp) :
    rows.foldl Client.send client =
      { client with
        lastTs := (rows.getLast?.map AuditTailEntry.timestamp).or client.lastTs
        sent := client.sent ++ rows } := by
  induction rows using List.reverseRecOn with
  | nil => simp
  | append_singleton rows row ih =>
    obtain ⟨hrows, -, hrow⟩ := List.pairwise_append.mp h
    have hbefore := ih hrows fun ts hts old hold => hlast ts hts old (by simp [hold])
    have hle : ∀ ts ∈ (rows.getLast?.map AuditTailEntry.timestamp).or client.lastTs,
        ts ≤ row.timestamp := by
      intro ts hts
      cases hold : rows.getLast? with
      | none =>
        rw [hold] at hts
        exact hlast ts hts row (by simp)
      | some old =>
        rw [hold] at hts
        obtain rfl : old.timestamp = ts := by simpa using hts
        exact hrow old (List.mem_of_getLast? hold) row (by simp)
    rw [List.foldl_append, hbefore]
    simp only [List.foldl_cons, List.foldl_nil, Client.send, List.append_assoc]
    cases hts : (rows.getLast?.map AuditTailEntry.timestamp).or client.lastTs with
    | none => simp
    | some ts =>
      have hts' := hle ts hts
      rcases hts'.lt_or_eq with hlt | heq
      · simp [hlt]
      · simp [heq]

/-! ## Runs -/

/-- What holds after a run whose ticks all took in what was pending. -/
structure CaughtUp (s : System) : Prop where
  ids : (s.ledger.map AuditTailEntry.id).Nodup
  connected : s.connectedAt ≤ s.polled
  polled : s.polled ≤ s.ledger.length
  sent : ∃ tail, (∀ row ∈ tail, row ∈ s.ledger.take s.connectedAt) ∧
    s.client.sent = tail ++ (s.ledger.take s.polled).drop s.connectedAt
  lastTs : s.client.polls = true →
    s.client.lastTs = (s.ledger.take s.polled).getLast?.map AuditTailEntry.timestamp

theorem CaughtUp.nodup {s : System} (hs : CaughtUp s) : s.ledger.Nodup := hs.ids.of_map _

/-- What the client has, and what a tick adds to it. -/
theorem CaughtUp.newer_eq {s : System} (hs : CaughtUp s) (hc : Chronological s.ledger)
    (hpolls : s.client.polls = true) :
    s.ledger.filter (newer s.client.lastTs) = (pending s).filter (newer s.client.lastTs) := by
  rw [hs.lastTs hpolls]
  have hsplit : ∀ p, s.ledger.filter p =
      (s.ledger.take s.polled).filter p ++ (pending s).filter p := by
    intro p
    rw [← List.filter_append, pending, List.take_append_drop]
  have hold : (s.ledger.take s.polled).filter
      (newer ((s.ledger.take s.polled).getLast?.map AuditTailEntry.timestamp)) = [] := by
    cases hlast : (s.ledger.take s.polled).getLast? with
    | none =>
      rw [List.getLast?_eq_none_iff.mp hlast]
      rfl
    | some last =>
      obtain ⟨before, hbefore⟩ := List.getLast?_eq_some_iff.mp hlast
      have htake : Chronological (before ++ [last]) := hbefore ▸ hc.sublist (List.take_sublist _ _)
      rw [hbefore, List.filter_eq_nil_iff]
      intro row hrow
      have hle : row.timestamp ≤ last.timestamp := by
        rcases List.mem_append.mp hrow with hearly | hsame
        · exact (List.pairwise_append.mp htake).2.2 row hearly last (by simp)
        · rw [List.mem_singleton.mp hsame]
      simpa [newer] using hle
  rw [hsplit, hold, List.nil_append]

theorem filter_newer_of_fits {s : System} (hs : CaughtUp s) (hfits : Fits s)
    (hpolls : s.client.polls = true) : (pending s).filter (newer s.client.lastTs) = pending s := by
  rw [List.filter_eq_self, hs.lastTs hpolls]
  intro row hrow
  cases hlast : (s.ledger.take s.polled).getLast? with
  | none => rfl
  | some last => exact decide_eq_true (hfits.newer last hlast row hrow)

/-- The rows that a tick of a polling client sends. -/
def batch (s : System) : List AuditTailEntry :=
  ((pending s).filter (newer s.client.lastTs)).drop
    (((pending s).filter (newer s.client.lastTs)).length - 50)

theorem CaughtUp.tick_sent {s : System} (hs : CaughtUp s) (hc : Chronological s.ledger)
    (hpolls : s.client.polls = true) :
    s.client.tick s.ledger =
      { s.client with
        lastTs := ((batch s).getLast?.map AuditTailEntry.timestamp).or s.client.lastTs
        sent := s.client.sent ++ batch s } := by
  have hkept : Chronological (batch s) :=
    hc.sublist ((List.drop_sublist _ _).trans (List.filter_sublist.trans (List.drop_sublist _ _)))
  rw [Client.tick, if_pos hpolls, Client.sendBatch, tailAudit_reverse hc, hs.newer_eq hc hpolls]
  refine foldl_send hkept s.client fun ts hts row hrow => ?_
  have hnewer := (List.mem_filter.mp (List.mem_of_mem_drop hrow)).2
  rw [Option.mem_def] at hts
  rw [hts] at hnewer
  exact (of_decide_eq_true hnewer).le

theorem CaughtUp.batch_eq {s : System} (hs : CaughtUp s) (hfits : Fits s)
    (hpolls : s.client.polls = true) : batch s = pending s := by
  rw [batch, filter_newer_of_fits hs hfits hpolls, Nat.sub_eq_zero_of_le hfits.length,
    List.drop_zero]

/-- The rows since the client connected are those it has and those that are pending. -/
theorem CaughtUp.since {s : System} (hs : CaughtUp s) :
    s.ledger.drop s.connectedAt =
      (s.ledger.take s.polled).drop s.connectedAt ++ pending s := by
  conv_lhs => rw [← List.take_append_drop s.polled s.ledger]
  rw [List.drop_append_of_le_length (by simp [hs.connected, hs.polled])]
  rfl

theorem count_tail {s : System} (hs : CaughtUp s) {tail : List AuditTailEntry}
    (htail : ∀ row ∈ tail, row ∈ s.ledger.take s.connectedAt) {row : AuditTailEntry}
    (hrow : row ∈ s.ledger.drop s.connectedAt) : tail.count row = 0 := by
  rw [List.count_eq_zero]
  intro hmem
  have hnodup := hs.nodup
  rw [← List.take_append_drop s.connectedAt s.ledger] at hnodup
  exact (List.nodup_append.mp hnodup).2.2 row (htail row hmem) row hrow rfl

/-- A client that has everything since it connected has each entry once. -/
theorem sentOnce_of_sent {s : System} (hnodup : s.ledger.Nodup) {tail : List AuditTailEntry}
    (htail : ∀ row ∈ tail, row ∈ s.ledger.take s.connectedAt)
    (hsent : s.client.sent = tail ++ s.ledger.drop s.connectedAt) : SentOnce s := by
  intro row hrow
  have hsplit := hnodup
  rw [← List.take_append_drop s.connectedAt s.ledger] at hsplit
  obtain ⟨-, hdrop, hdisjoint⟩ := List.nodup_append.mp hsplit
  have hnone : tail.count row = 0 := by
    rw [List.count_eq_zero]
    exact fun hmem => hdisjoint row (htail row hmem) row hrow rfl
  rw [hsent, List.count_append, hnone, Nat.zero_add, List.count_eq_one_of_mem hdrop hrow]

theorem CaughtUp.tick_fits {s : System} (hs : CaughtUp s) (hc : Chronological s.ledger)
    (hfits : Fits s) : CaughtUp (step s .tick) ∧ SentOnce (step s .tick) := by
  obtain ⟨tail, htail, hsent⟩ := hs.sent
  by_cases hpolls : s.client.polls = true
  case pos =>
    have hclient := hs.tick_sent hc hpolls
    rw [hs.batch_eq hfits hpolls] at hclient
    have hall : (s.client.tick s.ledger).sent = tail ++ s.ledger.drop s.connectedAt := by
      rw [hclient, hsent, hs.since, List.append_assoc]
    refine ⟨⟨hs.ids, ?_, ?_, ⟨tail, htail, ?_⟩, fun _ => ?_⟩, ?_⟩
    · simpa [step, hpolls] using hs.connected.trans hs.polled
    · simp [step, hpolls]
    · simpa [step, hpolls] using hall
    · have hpolled : (step s .tick).polled = s.ledger.length := by simp [step, hpolls]
      rw [hpolled]
      change (s.client.tick s.ledger).lastTs = (s.ledger.take s.ledger.length).getLast?.map _
      rw [hclient, hs.lastTs hpolls, List.take_length]
      conv_rhs => rw [← List.take_append_drop s.polled s.ledger, List.getLast?_append]
      change ((pending s).getLast?.map _).or _ = ((pending s).getLast?.or _).map _
      cases (pending s).getLast? <;> rfl
    · exact sentOnce_of_sent hs.nodup htail hall
  case neg =>
    have hnone : pending s = [] := by_contra fun hne => hpolls (hfits.polls hne)
    have hstep : step s .tick = s := by
      simp [step, hpolls, Client.tick]
    rw [hstep]
    refine ⟨hs, sentOnce_of_sent hs.nodup htail ?_⟩
    rw [hsent, hs.since, hnone, List.append_nil]

theorem CaughtUp.fits_of_sentOnce {s : System} (hs : CaughtUp s) (hc : Chronological s.ledger)
    (h : SentOnce (step s .tick)) : Fits s := by
  obtain ⟨tail, htail, hsent⟩ := hs.sent
  have hnodup : ((s.ledger.take s.polled).drop s.connectedAt ++ pending s).Nodup :=
    hs.since ▸ hs.nodup.sublist (List.drop_sublist _ _)
  obtain ⟨-, hpending, hdisjoint⟩ := List.nodup_append.mp hnodup
  have hmissing : ∀ row ∈ pending s, row ∉ s.client.sent := by
    intro row hrow hmem
    have hsince : row ∈ s.ledger.drop s.connectedAt := by
      rw [hs.since]
      exact List.mem_append_right _ hrow
    rw [hsent] at hmem
    rcases List.mem_append.mp hmem with hbefore | hhad
    · exact absurd hbefore (List.count_eq_zero.mp (count_tail hs htail hsince))
    · exact hdisjoint row hhad row hrow rfl
  have hgot : ∀ row ∈ pending s, row ∈ (s.client.tick s.ledger).sent := by
    intro row hrow
    have hcount := h row (by
      change row ∈ s.ledger.drop s.connectedAt
      rw [hs.since]
      exact List.mem_append_right _ hrow)
    exact List.count_pos_iff.mp (Nat.lt_of_lt_of_eq Nat.zero_lt_one hcount.symm)
  by_cases hpolls : s.client.polls = true
  case pos =>
    have hbatch : ∀ row ∈ pending s, row ∈ batch s := by
      intro row hrow
      have hmem := hgot row hrow
      rw [hs.tick_sent hc hpolls] at hmem
      exact (List.mem_append.mp hmem).resolve_left (hmissing row hrow)
    refine ⟨fun _ => hpolls, ?_, fun last hlast row hrow => ?_⟩
    · have hle := (hpending.subperm hbatch).length_le
      have hcut : (batch s).length ≤ 50 := by
        rw [batch, List.length_drop]
        omega
      exact hle.trans hcut
    · have hnewer := (List.mem_filter.mp (List.mem_of_mem_drop (hbatch row hrow))).2
      rw [hs.lastTs hpolls, Option.mem_def.mp hlast] at hnewer
      exact of_decide_eq_true hnewer
  case neg =>
    have hsame : s.client.tick s.ledger = s.client := if_neg hpolls
    have hnone : pending s = [] := by
      refine List.eq_nil_iff_forall_not_mem.mpr fun row hrow => hmissing row hrow ?_
      rw [← hsame]
      exact hgot row hrow
    exact ⟨fun hne => absurd hnone hne, by simp [hnone], by simp [hnone]⟩

theorem CaughtUp.append {s : System} (hs : CaughtUp s) (row : AuditTailEntry) :
    CaughtUp (step s (.append row)) := by
  simp only [step]
  split_ifs with hknown
  · exact hs
  · have hnew : row.id ∉ s.ledger.map AuditTailEntry.id := by
      intro hmem
      obtain ⟨old, hold, hid⟩ := List.mem_map.mp hmem
      exact hknown (List.any_eq_true.mpr ⟨old, hold, by simpa using hid⟩)
    have htake : ∀ n, n ≤ s.ledger.length → (s.ledger ++ [row]).take n = s.ledger.take n :=
      fun n hn => List.take_append_of_le_length hn
    obtain ⟨tail, htail, hsent⟩ := hs.sent
    refine ⟨?_, hs.connected, ?_, ⟨tail, ?_, ?_⟩, fun hpolls => ?_⟩
    · rw [List.map_append, List.map_singleton, ← List.concat_eq_append]
      exact hs.ids.concat hnew
    · rw [List.length_append]
      exact hs.polled.trans (Nat.le_add_right _ _)
    · simpa [htake _ (hs.connected.trans hs.polled)] using htail
    · simpa [htake _ hs.polled] using hsent
    · simpa [htake _ hs.polled] using hs.lastTs hpolls

theorem step_ledger_sublist (s : System) (action : Action) :
    (step s action).ledger.Sublist (s.ledger ++ appended [action]) := by
  cases action with
  | append row =>
    simp only [step, appended]
    split_ifs
    · exact List.sublist_append_left _ _
    · exact List.Sublist.refl _
  | tick => exact List.sublist_append_left _ _
  | failedTick => exact List.sublist_append_left _ _

theorem appended_cons (action : Action) (actions : List Action) :
    appended (action :: actions) = appended [action] ++ appended actions := by
  cases action <;> rfl

theorem complete_iff {s : System} (hs : CaughtUp s) (actions : List Action)
    (hc : Chronological (s.ledger ++ appended actions)) :
    Complete s actions ↔ Lossless s actions := by
  induction actions generalizing s with
  | nil => exact Iff.rfl
  | cons action actions ih =>
    have hledger : Chronological s.ledger := hc.sublist (List.sublist_append_left _ _)
    have hnext : Chronological ((step s action).ledger ++ appended actions) := by
      rw [appended_cons, ← List.append_assoc] at hc
      exact hc.sublist ((step_ledger_sublist s action).append_right _)
    cases action with
    | append row =>
      simp only [Complete, Lossless, reduceCtorEq, false_implies, true_and]
      exact ih (hs.append row) hnext
    | failedTick =>
      simp only [Complete, Lossless, reduceCtorEq, false_implies, true_and]
      exact ih hs hnext
    | tick =>
      simp only [Complete, Lossless, true_implies]
      constructor
      · rintro ⟨honce, hrest⟩
        have hfits := hs.fits_of_sentOnce hledger honce
        exact ⟨hfits, (ih (hs.tick_fits hledger hfits).1 hnext).mp hrest⟩
      · rintro ⟨hfits, hrest⟩
        obtain ⟨hcaught, honce⟩ := hs.tick_fits hledger hfits
        exact ⟨honce, (ih hcaught hnext).mpr hrest⟩

theorem caughtUp_start (db : Option (List AuditTailEntry))
    (hids : ((db.getD []).map AuditTailEntry.id).Nodup) (hc : Chronological (db.getD [])) :
    CaughtUp (start db) := by
  cases db with
  | none =>
    exact ⟨by simp [start], le_rfl, le_rfl, ⟨[], by simp, rfl⟩, by simp [start, attachAuditTailSse]⟩
  | some rows =>
    replace hc : Chronological rows := hc
    have htail : Chronological (rows.drop (rows.length - 50)) := hc.sublist (List.drop_sublist _ _)
    have hfilter : rows.filter (newer none) = rows := List.filter_eq_self.mpr fun _ _ => rfl
    have hclient := foldl_send htail { polls := true, lastTs := none, sent := [] } (by simp)
    have hattach : attachAuditTailSse (some rows) =
        { polls := true
          lastTs := ((rows.drop (rows.length - 50)).getLast?.map AuditTailEntry.timestamp).or none
          sent := [] ++ rows.drop (rows.length - 50) } := by
      rw [attachAuditTailSse, Client.sendBatch, tailAudit_reverse hc, hfilter, hclient]
    refine ⟨hids, le_rfl, le_rfl, ⟨rows.drop (rows.length - 50), ?_, ?_⟩, fun _ => ?_⟩
    · intro row hrow
      simpa [start] using List.mem_of_mem_drop hrow
    · simp [start, hattach]
    · simp only [start, hattach, Option.getD_some, List.take_length, Option.or_none]
      rw [List.getLast?_drop]
      split_ifs with hshort
      · have hempty : rows = [] := List.length_eq_zero_iff.mp (by omega)
        simp [hempty]
      · rfl

/-- A connected client is sent every later entry once, by every tick that comes after it, exactly
when each tick of the run takes in whole what is pending. -/
theorem tail_complete_iff (db : Option (List AuditTailEntry)) (actions : List Action)
    (hids : ((db.getD []).map AuditTailEntry.id).Nodup)
    (hc : Chronological (db.getD [] ++ appended actions)) :
    Complete (start db) actions ↔ Lossless (start db) actions :=
  complete_iff (caughtUp_start db hids (hc.sublist (List.sublist_append_left _ _))) actions hc

def noon : Timestamp := ⟨"2026-01-01T12:00:00.000Z", by decide⟩

def call (id : String) : AuditTailEntry where
  id := id
  timestamp := noon
  sessionId := "s"
  agentId := "a"
  tool := "auto_index"
  result := .success
  durationMs := 12
  args := []

theorem one_call_sent :
    Complete (start (some [])) [.append (call "1"), .append (call "2"), .tick] := by
  refine (tail_complete_iff _ _ (by simp) (by simp [Chronological, appended, call])).mpr ?_
  refine ⟨by simp, by simp, fun _ => ⟨fun _ => ?_, ?_, ?_⟩, trivial⟩
  · simp [step, start, attachAuditTailSse, Client.sendBatch, tailAudit, newestFirst, call]
  · simp [pending, step, start, call]
  · simp [step, start, call]

/-- Two calls of one moment, with a tick between them. -/
theorem second_call_missed :
    ¬ ∀ (db : Option (List AuditTailEntry)) (actions : List Action),
      ((db.getD []).map AuditTailEntry.id).Nodup → Chronological (db.getD [] ++ appended actions) →
        Complete (start db) actions := by
  intro h
  let actions : List Action := [.append (call "1"), .tick, .append (call "2"), .tick]
  have hc : Chronological ([] ++ appended actions) := by
    simp [actions, Chronological, appended, call]
  have hlossless := (complete_iff (caughtUp_start (some []) (by simp) List.Pairwise.nil) actions
    hc).mp (h (some []) actions (by simp) hc)
  obtain ⟨-, -, -, hfits, -⟩ := hlossless
  have hpolls : (attachAuditTailSse (some [])).polls = true := by
    simp [attachAuditTailSse, Client.sendBatch, tailAudit, newestFirst]
  have hnewer := (hfits rfl).newer (call "1") (by simp [step, start, call, hpolls]) (call "2")
    (by simp [pending, step, start, call, hpolls])
  exact lt_irrefl _ hnewer

end AuditTail
end Batiste
