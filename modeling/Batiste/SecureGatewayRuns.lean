import Batiste.SecureGateway

/-! Runs of the gateway: slots of the session manager against sessions that answer requests. -/
namespace Batiste
namespace Gateway

open Transition

theorem step_post {s t : State} {now : ℤ} {clientIp : String} {authorization : Option String}
    {sessionInfoId newSessionId : String} :
    step s (.post now clientIp authorization sessionInfoId newSessionId) = some t ↔
      (s.now ≤ now ∧ s.fresh sessionInfoId ∧ s.fresh newSessionId ∧
          sessionInfoId ≠ newSessionId) ∧
        post now clientIp authorization sessionInfoId newSessionId s = t := by
  simp only [step, Option.ite_none_right_eq_some, Option.some.injEq]

theorem step_initialized {s t : State} {i : ℕ} {id : String} :
    step s (.initialized i id) = some t ↔
      s.fresh id ∧ ∃ connection, s.pending[i]? = some connection ∧
        { s with
          sessions := s.sessions ++ [(id, connection)]
          pending := s.pending.eraseIdx i
          drawn := id :: s.drawn
          reply := none } = t := by
  simp only [step, Option.ite_none_right_eq_some, Option.map_eq_some_iff]

theorem step_failed {s t : State} {i : ℕ} :
    step s (.failed i) = some t ↔
      i < s.pending.length ∧ { s with pending := s.pending.eraseIdx i, reply := none } = t := by
  simp only [step, Option.ite_none_right_eq_some, Option.some.injEq]

theorem step_request {s t : State} {now : ℤ} {isGet : Bool} {id : String} :
    step s (.request now isGet id) = some t ↔
      (s.now ≤ now ∧ id ≠ "") ∧ request now isGet id s = t := by
  simp only [step, Option.ite_none_right_eq_some, Option.some.injEq]

theorem step_cleanup {s t : State} {now : ℤ} :
    step s (.cleanup now) = some t ↔
      s.now ≤ now ∧ { s with manager := s.manager.evictExpired now, now := now } = t := by
  simp only [step, Option.ite_none_right_eq_some, Option.some.injEq]

/-- The transports that answer requests, or wait for their `initialize`. -/
def State.connections (s : State) : List Connection := s.pending ++ s.sessions.map Prod.snd

/-- Ids are drawn once, so that no MCP session id is one that the manager or a factory knows. -/
structure Inv (s : State) : Prop where
  managerDrawn : ∀ id ∈ s.manager.ids, id ∈ s.drawn
  slotDrawn : ∀ c ∈ s.connections, c.slot ∈ s.drawn
  ctxDrawn : ∀ c ∈ s.connections, c.ctx.sessionId ∈ s.drawn
  idDrawn : ∀ entry ∈ s.sessions, entry.1 ∈ s.drawn
  notManaged : ∀ entry ∈ s.sessions, entry.1 ∉ s.manager.ids
  notTold : ∀ entry ∈ s.sessions, entry.2.ctx.sessionId ≠ entry.1
  slots : (s.connections.map Connection.slot).Nodup

theorem start_inv (maxConcurrentSessions sessionTimeoutMs : ℚ) :
    Inv (start maxConcurrentSessions sessionTimeoutMs) := by
  constructor <;> simp [start, State.connections, SessionManager.ids]

/-- Dropping connections, slots of the manager or nothing keeps the invariant. -/
theorem Inv.shrink {s t : State} (h : Inv s) (hmanager : ∀ id ∈ t.manager.ids, id ∈ s.manager.ids)
    (hconnections : t.connections.Sublist s.connections)
    (hsessions : t.sessions ⊆ s.sessions) (hdrawn : t.drawn = s.drawn) : Inv t := by
  constructor
  case managerDrawn => exact fun id hid => hdrawn ▸ h.managerDrawn id (hmanager id hid)
  case slotDrawn => exact fun c hc => hdrawn ▸ h.slotDrawn c (hconnections.subset hc)
  case ctxDrawn => exact fun c hc => hdrawn ▸ h.ctxDrawn c (hconnections.subset hc)
  case idDrawn => exact fun entry he => hdrawn ▸ h.idDrawn entry (hsessions he)
  case notManaged => exact fun entry he hid => h.notManaged entry (hsessions he) (hmanager _ hid)
  case notTold => exact fun entry he => h.notTold entry (hsessions he)
  case slots => exact h.slots.sublist (hconnections.map Connection.slot)

theorem use_slots (now : ℤ) (id : String) (sessions : List (String × Connection)) :
    ((use now id sessions).map Prod.snd).map Connection.slot =
      (sessions.map Prod.snd).map Connection.slot := by
  simp only [use, List.map_map]
  refine List.map_congr_left fun entry _ => ?_
  by_cases hid : entry.1 = id <;> simp [hid]

theorem mem_use {now : ℤ} {id : String} {sessions : List (String × Connection)}
    {entry : String × Connection} (h : entry ∈ use now id sessions) :
    ∃ old ∈ sessions, entry.1 = old.1 ∧ entry.2.slot = old.2.slot ∧ entry.2.ctx = old.2.ctx := by
  obtain ⟨old, hold, rfl⟩ := List.mem_map.mp h
  refine ⟨old, hold, ?_⟩
  by_cases hid : old.1 = id <;> simp [hid]

theorem Inv.request {s : State} (h : Inv s) (now : ℤ) (isGet : Bool) (id : String) :
    Inv (request now isGet id s) := by
  unfold Gateway.request
  split_ifs
  · have hmem : ∀ c ∈ (s.pending ++ (use now id s.sessions).map Prod.snd),
        ∃ old ∈ s.connections, c.slot = old.slot ∧ c.ctx = old.ctx := by
      intro c hc
      rcases List.mem_append.mp hc with hpending | hused
      · exact ⟨c, List.mem_append_left _ hpending, rfl, rfl⟩
      · obtain ⟨entry, hentry, rfl⟩ := List.mem_map.mp hused
        obtain ⟨old, hold, -, hslot, hctx⟩ := mem_use hentry
        exact ⟨old.2, List.mem_append_right _ (List.mem_map_of_mem hold), hslot, hctx⟩
    constructor
    case managerDrawn => simpa using h.managerDrawn
    case slotDrawn =>
      intro c hc
      obtain ⟨old, hold, hslot, -⟩ := hmem c hc
      exact hslot ▸ h.slotDrawn old hold
    case ctxDrawn =>
      intro c hc
      obtain ⟨old, hold, -, hctx⟩ := hmem c hc
      exact hctx ▸ h.ctxDrawn old hold
    case idDrawn =>
      intro entry hentry
      obtain ⟨old, hold, hid, -⟩ := mem_use hentry
      exact hid ▸ h.idDrawn old hold
    case notManaged =>
      intro entry hentry
      obtain ⟨old, hold, hid, -⟩ := mem_use hentry
      simpa [hid] using h.notManaged old hold
    case notTold =>
      intro entry hentry
      obtain ⟨old, hold, hid, -, hctx⟩ := mem_use hentry
      rw [hid, hctx]
      exact h.notTold old hold
    case slots =>
      have hslots := h.slots
      rw [State.connections, List.map_append] at hslots ⊢
      rwa [use_slots]
  · exact h.shrink (fun _ hid => hid) (List.Sublist.refl _) (List.Subset.refl _) rfl
  · exact h.shrink (fun _ hid => hid) (List.Sublist.refl _) (List.Subset.refl _) rfl

theorem Inv.close {s : State} (h : Inv s) (id : String) : Inv (close id s) := by
  unfold Gateway.close
  split_ifs
  · refine h.shrink (fun other hother => (SessionManager.mem_remove_ids.mp hother).1) ?_
      List.filter_sublist.subset rfl
    exact (List.Sublist.refl _).append (List.filter_sublist.map Prod.snd)
  · exact h.shrink (fun _ hid => hid) (List.Sublist.refl _) (List.Subset.refl _) rfl

/-- What `create` gives: no session at capacity, or one with the new id. -/
theorem create_cases (now : ℤ) (ip : String) (id : String) (m : SessionManager) :
    (m.maxSessions ≤ (m.evictExpired now).sessions.length ∧
        m.create now ip none id = (m.evictExpired now, none)) ∨
      (((m.evictExpired now).sessions.length : ℚ) < m.maxSessions ∧
        ∃ info m', m.create now ip none id = (m', some info) ∧ info.id = id ∧
          m'.ids = (m.evictExpired now).ids ++ [id] ∧ m'.maxSessions = m.maxSessions ∧
          m'.timeoutMs = m.timeoutMs) := by
  unfold SessionManager.create
  by_cases hfull : m.maxSessions ≤ (m.evictExpired now).sessions.length
  · exact Or.inl ⟨hfull, if_pos hfull⟩
  · exact Or.inr ⟨not_le.mp hfull, _, _, if_neg hfull, rfl, by simp [SessionManager.ids], rfl, rfl⟩

theorem Inv.post {s : State} (h : Inv s) (now : ℤ) (clientIp : String)
    (authorization : Option String) {sessionInfoId newSessionId : String}
    (hinfo : s.fresh sessionInfoId) :
    Inv (post now clientIp authorization sessionInfoId newSessionId s) := by
  have hevict := fun id (hid : id ∈ (s.manager.evictExpired now).ids) =>
    (SessionManager.evictExpired_sublist now s.manager).subset hid
  rcases create_cases now clientIp sessionInfoId s.manager with
    ⟨-, hcreate⟩ | ⟨-, info, manager, hcreate, hid, hids, -⟩
  · simp only [Gateway.post, hcreate]
    exact h.shrink hevict (List.Sublist.refl _) (List.Subset.refl _) rfl
  · simp only [Gateway.post, hcreate]
    have hold : ∀ {id : String}, id ∈ s.drawn → id ∈ sessionInfoId :: newSessionId :: s.drawn :=
      fun hid => List.mem_cons_of_mem _ (List.mem_cons_of_mem _ hid)
    let connection : Connection := ⟨⟨bearer authorization, clientIp, newSessionId⟩, info.id, now⟩
    have hmem : ∀ c ∈ (s.pending ++ [connection]) ++ s.sessions.map Prod.snd,
        c ∈ s.connections ∨ (c.slot = sessionInfoId ∧ c.ctx.sessionId = newSessionId) := by
      intro c hc
      simp only [List.mem_append, List.mem_singleton] at hc
      rcases hc with (hc | rfl) | hc
      · exact Or.inl (List.mem_append_left _ hc)
      · exact Or.inr ⟨hid, rfl⟩
      · exact Or.inl (List.mem_append_right _ hc)
    constructor
    case managerDrawn =>
      intro id hmanaged
      rw [hids, List.mem_append, List.mem_singleton] at hmanaged
      rcases hmanaged with hmanaged | rfl
      · exact hold (h.managerDrawn id (hevict id hmanaged))
      · exact List.mem_cons_self
    case slotDrawn =>
      intro c hc
      rcases hmem c hc with hc | ⟨hslot, -⟩
      · exact hold (h.slotDrawn c hc)
      · exact hslot ▸ List.mem_cons_self
    case ctxDrawn =>
      intro c hc
      rcases hmem c hc with hc | ⟨-, hctx⟩
      · exact hold (h.ctxDrawn c hc)
      · exact hctx ▸ List.mem_cons_of_mem _ List.mem_cons_self
    case idDrawn => exact fun entry hentry => hold (h.idDrawn entry hentry)
    case notManaged =>
      intro entry hentry hmanaged
      rw [hids, List.mem_append, List.mem_singleton] at hmanaged
      rcases hmanaged with hmanaged | heq
      · exact h.notManaged entry hentry (hevict _ hmanaged)
      · exact hinfo (heq ▸ h.idDrawn entry hentry)
    case notTold => exact h.notTold
    case slots =>
      have hperm : (s.pending ++ [connection] ++ s.sessions.map Prod.snd).Perm
          (connection :: s.connections) := by
        rw [List.append_assoc]
        exact List.perm_middle
      refine ((hperm.map Connection.slot).nodup_iff).mpr (List.nodup_cons.mpr ⟨?_, h.slots⟩)
      intro hslot
      obtain ⟨c, hc, heq⟩ := List.mem_map.mp hslot
      have hdrawn := h.slotDrawn c hc
      rw [heq.trans hid] at hdrawn
      exact hinfo hdrawn

theorem initialized_perm {s : State} {i : ℕ} {connection : Connection}
    (h : s.pending[i]? = some connection) (id : String) :
    (s.pending.eraseIdx i ++ (s.sessions ++ [(id, connection)]).map Prod.snd).Perm
      s.connections := by
  have hpending : (connection :: s.pending.eraseIdx i).Perm s.pending := by
    obtain ⟨hi, rfl⟩ := List.getElem?_eq_some_iff.mp h
    exact List.getElem_cons_eraseIdx_perm hi
  rw [List.map_append, ← List.append_assoc]
  refine List.perm_append_comm.trans ?_
  exact hpending.append_right (s.sessions.map Prod.snd)

theorem inv_step {s t : State} {a : Action} (h : Inv s) (hs : step s a = some t) : Inv t := by
  cases a with
  | post now clientIp authorization sessionInfoId newSessionId =>
    obtain ⟨hfresh, rfl⟩ := step_post.mp hs
    exact h.post now clientIp authorization hfresh.2.1
  | initialized i id =>
    obtain ⟨hfresh, connection, hi, rfl⟩ := step_initialized.mp hs
    have hperm := initialized_perm hi id
    have hconnection : connection ∈ s.connections :=
      List.mem_append_left _ (List.mem_of_getElem? hi)
    constructor
    case managerDrawn =>
      exact fun other hother => List.mem_cons_of_mem _ (h.managerDrawn other hother)
    case slotDrawn => exact fun c hc => List.mem_cons_of_mem _ (h.slotDrawn c (hperm.subset hc))
    case ctxDrawn => exact fun c hc => List.mem_cons_of_mem _ (h.ctxDrawn c (hperm.subset hc))
    case idDrawn =>
      intro entry hentry
      rcases List.mem_append.mp hentry with hold | hnew
      · exact List.mem_cons_of_mem _ (h.idDrawn entry hold)
      · rw [List.mem_singleton.mp hnew]
        exact List.mem_cons_self
    case notManaged =>
      intro entry hentry hmanaged
      rcases List.mem_append.mp hentry with hold | hnew
      · exact h.notManaged entry hold hmanaged
      · rw [List.mem_singleton.mp hnew] at hmanaged
        exact hfresh (h.managerDrawn id hmanaged)
    case notTold =>
      intro entry hentry heq
      rcases List.mem_append.mp hentry with hold | hnew
      · exact h.notTold entry hold heq
      · rw [List.mem_singleton.mp hnew] at heq
        have hdrawn := h.ctxDrawn connection hconnection
        rw [show connection.ctx.sessionId = id from heq] at hdrawn
        exact hfresh hdrawn
    case slots => exact (hperm.map Connection.slot).nodup_iff.mpr h.slots
  | failed i =>
    obtain ⟨-, rfl⟩ := step_failed.mp hs
    exact h.shrink (fun _ hid => hid) ((List.eraseIdx_sublist _ _).append (List.Sublist.refl _))
      (List.Subset.refl _) rfl
  | request now isGet id =>
    obtain ⟨-, rfl⟩ := step_request.mp hs
    exact h.request now isGet id
  | close id =>
    cases hs
    exact h.close id
  | cleanup now =>
    obtain ⟨-, rfl⟩ := step_cleanup.mp hs
    exact h.shrink (fun id hid => (SessionManager.evictExpired_sublist now s.manager).subset hid)
      (List.Sublist.refl _) (List.Subset.refl _) rfl

theorem inv_run {maxConcurrentSessions sessionTimeoutMs : ℚ} {as : List Action} {s : State}
    (h : run step (start maxConcurrentSessions sessionTimeoutMs) as = some s) : Inv s :=
  run_invariant (fun _ _ _ => inv_step) (start_inv _ _) h

/-- The slots that an eviction drops from live sessions are those of sessions that have not been
used for the timeout. -/
def Evicts (s : State) (now : ℤ) : Prop :=
  ∀ entry ∈ s.sessions, entry.2.slot ∈ s.manager.ids →
    entry.2.slot ∉ (s.manager.evictExpired now).ids → s.manager.timeoutMs < (now - entry.2.usedAt : ℤ)

/-- A session is closed only once its slot is gone, a slot goes only once the session is out of
use, and a session is opened only while every connection has its slot. -/
def Heeds (_ : List Action) (s : State) : Action → Prop
  | .post now _ _ _ _ => Evicts s now ∧
      (((s.manager.evictExpired now).sessions.length : ℚ) < s.manager.maxSessions →
        ∀ c ∈ s.connections, c.slot ∈ (s.manager.evictExpired now).ids)
  | .close id => ∀ c, (id, c) ∈ s.sessions → c.slot ∉ s.manager.ids
  | .cleanup now => Evicts s now
  | _ => True

/-- Where every connection has a slot, there are no more of them than slots. -/
theorem Inv.connections_length_le {s : State} (h : Inv s) {ids : List String}
    (hall : ∀ c ∈ s.connections, c.slot ∈ ids) : s.connections.length ≤ ids.length := by
  have hsub : s.connections.map Connection.slot ⊆ ids := by
    intro slot hslot
    obtain ⟨c, hc, rfl⟩ := List.mem_map.mp hslot
    exact hall c hc
  have hle := (List.subperm_of_subset h.slots hsub).length_le
  rwa [List.length_map] at hle

/-- The bounds of the manager stay, and there are at most as many connections as it allows. -/
structure Bounded (maxConcurrentSessions sessionTimeoutMs : ℚ) (s : State) : Prop where
  max : s.manager.maxSessions = maxConcurrentSessions
  timeout : s.manager.timeoutMs = sessionTimeoutMs
  connections : (s.connections.length : ℚ) ≤ maxConcurrentSessions

theorem bounded_step {n : ℕ} {timeout : ℚ} {as : List Action} {s t : State} {a : Action}
    (hinv : Inv s) (h : Bounded n timeout s) (hheeds : Heeds as s a) (hs : step s a = some t) :
    Bounded n timeout t := by
  cases a with
  | post now clientIp authorization sessionInfoId newSessionId =>
    obtain ⟨-, rfl⟩ := step_post.mp hs
    rcases create_cases now clientIp sessionInfoId s.manager with
      ⟨-, hcreate⟩ | ⟨hspace, info, manager, hcreate, -, -, hmax, htimeout⟩
    · simp only [Gateway.post, hcreate]
      exact ⟨h.max, h.timeout, h.connections⟩
    · simp only [Gateway.post, hcreate]
      refine ⟨hmax.trans h.max, htimeout.trans h.timeout, ?_⟩
      have hle := hinv.connections_length_le (hheeds.2 hspace)
      rw [SessionManager.ids, List.length_map] at hle
      rw [h.max] at hspace
      have hlt := Nat.cast_lt.mp hspace
      simp only [State.connections, List.length_append, List.length_map] at hle ⊢
      exact_mod_cast (by simp only [List.length_singleton]; omega)
  | initialized i id =>
    obtain ⟨-, connection, hi, rfl⟩ := step_initialized.mp hs
    refine ⟨h.max, h.timeout, ?_⟩
    rw [State.connections, (initialized_perm hi id).length_eq]
    exact h.connections
  | failed i =>
    obtain ⟨-, rfl⟩ := step_failed.mp hs
    refine ⟨h.max, h.timeout, le_trans ?_ h.connections⟩
    exact_mod_cast ((List.eraseIdx_sublist s.pending i).append (List.Sublist.refl _)).length_le
  | request now isGet id =>
    obtain ⟨-, rfl⟩ := step_request.mp hs
    unfold Gateway.request
    split_ifs
    · refine ⟨h.max, h.timeout, le_of_eq_of_le ?_ h.connections⟩
      simp [State.connections, use]
    · exact ⟨h.max, h.timeout, h.connections⟩
    · exact ⟨h.max, h.timeout, h.connections⟩
  | close id =>
    cases hs
    unfold Gateway.close
    split_ifs
    · refine ⟨h.max, h.timeout, le_trans ?_ h.connections⟩
      exact_mod_cast ((List.Sublist.refl s.pending).append
        (List.filter_sublist.map Prod.snd)).length_le
    · exact ⟨h.max, h.timeout, h.connections⟩
  | cleanup now =>
    obtain ⟨-, rfl⟩ := step_cleanup.mp hs
    exact ⟨h.max, h.timeout, h.connections⟩

theorem bounded_run {n : ℕ} {timeout : ℚ} {as : List Action} {s : State}
    (hs : run step (start n timeout) as = some s) (hheeds : Each step (start n timeout) as Heeds) :
    Bounded n timeout s := by
  refine run_history (I := fun _ s => Bounded n timeout s) ⟨rfl, rfl, ?_⟩ ?_ hheeds hs
  · simp [start, State.connections]
  · exact fun pre u a t hu h hok ht => bounded_step (inv_run hu) h hok ht

/-- Closing a session frees no slot: the manager does not know the id it is told. -/
theorem close_manager {s : State} (h : Inv s) (id : String) : (close id s).manager = s.manager := by
  unfold Gateway.close
  split_ifs with hid
  · obtain ⟨entry, hentry, heq⟩ := List.any_eq_true.mp hid
    have hnot := h.notManaged entry hentry
    rw [beq_iff_eq.mp heq] at hnot
    exact SessionManager.remove_eq_self hnot
  · rfl

/-- A step that heeds the slots keeps the slot of a session that is in use. -/
theorem slot_kept {as : List Action} {s t : State} {a : Action} (hinv : Inv s)
    (hheeds : Heeds as s a) (hs : step s a = some t) {entry : String × Connection}
    (hentry : entry ∈ s.sessions) (hslot : entry.2.slot ∈ s.manager.ids)
    (hused : ((t.now - entry.2.usedAt : ℤ) : ℚ) ≤ s.manager.timeoutMs) :
    entry.2.slot ∈ t.manager.ids := by
  have hevict : ∀ now, Evicts s now → ((now - entry.2.usedAt : ℤ) : ℚ) ≤ s.manager.timeoutMs →
      entry.2.slot ∈ (s.manager.evictExpired now).ids := by
    intro now hevicts hle
    by_contra hnot
    exact absurd hle (not_le.mpr (hevicts entry hentry hslot hnot))
  cases a with
  | post now clientIp authorization sessionInfoId newSessionId =>
    obtain ⟨-, rfl⟩ := step_post.mp hs
    rcases create_cases now clientIp sessionInfoId s.manager with
      ⟨-, hcreate⟩ | ⟨-, info, manager, hcreate, -, hids, -⟩
    · simp only [Gateway.post, hcreate] at hused ⊢
      exact hevict now hheeds.1 hused
    · simp only [Gateway.post, hcreate] at hused ⊢
      rw [hids]
      exact List.mem_append_left _ (hevict now hheeds.1 hused)
  | initialized i id =>
    obtain ⟨-, connection, -, rfl⟩ := step_initialized.mp hs
    exact hslot
  | failed i =>
    obtain ⟨-, rfl⟩ := step_failed.mp hs
    exact hslot
  | request now isGet id =>
    obtain ⟨-, rfl⟩ := step_request.mp hs
    unfold Gateway.request
    split_ifs
    · simpa using hslot
    · exact hslot
    · exact hslot
  | close id =>
    cases hs
    rw [close_manager hinv]
    exact hslot
  | cleanup now =>
    obtain ⟨-, rfl⟩ := step_cleanup.mp hs
    exact hevict now hheeds hused

section Example

def opened (now : ℤ) (slot told id : String) : List Action :=
  [.post now "10.0.0.1" none slot told, .initialized 0 id]

end Example

end Gateway
end Batiste
