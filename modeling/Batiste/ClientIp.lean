import Batiste.JsString

/-! `getClientIp`: the address of a client, behind a reverse proxy or not. -/
namespace Batiste
namespace ClientIp
open JsString

structure ProxyTrust where
  trustProxy : Bool := false
  trustedProxies : List String := []
  deriving DecidableEq, Repr

/-- A header as the request object holds it. -/
inductive HeaderValue
  | one (text : String)
  | many (texts : List String)
  deriving DecidableEq, Repr

structure IncomingMessage where
  remoteAddress : Option String
  xForwardedFor : Option HeaderValue
  deriving DecidableEq, Repr

/-- `Array.isArray(raw) ? raw[0] : raw` -/
def HeaderValue.text : HeaderValue → Option String
  | .one text => some text
  | .many texts => texts.head?

def socketAddr (req : IncomingMessage) : String := req.remoteAddress.getD "127.0.0.1"

/-- `header.split(',')[0]?.trim() ?? ''` -/
def first (header : String) : List Char := trim ((header.toList.splitOn ',').head?.getD [])

def getClientIp (req : IncomingMessage) (proxy : Option ProxyTrust) : String :=
  match proxy with
  | none => socketAddr req
  | some proxy =>
    if !proxy.trustProxy then socketAddr req
    else if !proxy.trustedProxies.contains (socketAddr req) then socketAddr req
    else
      match req.xForwardedFor.bind HeaderValue.text with
      | none => socketAddr req
      | some header =>
        if (codeUnits header).length = 0 then socketAddr req
        else if 2048 < (codeUnits header).length then socketAddr req
        else if 0 < (first header).length then String.ofList (first header)
        else socketAddr req

/-- The settings under which the header of a request from this socket counts. -/
def Honoured (proxy : Option ProxyTrust) (addr : String) : Prop :=
  ∃ trust, proxy = some trust ∧ trust.trustProxy = true ∧ addr ∈ trust.trustedProxies

/-! ## Behind a proxy that appends its peer -/

/-- What the proxy sends on, given what its peer sent. -/
def appendPeer (client : Option String) (peer : String) : String :=
  match client with
  | none => peer
  | some text => text ++ ", " ++ peer

def forwarded (remoteAddress : Option String) (client : Option String) (peer : String) :
    IncomingMessage where
  remoteAddress := remoteAddress
  xForwardedFor := some (.one (appendPeer client peer))

/-- The first entry of a list of addresses, without the white space around it. -/
def leftmost (text : String) : List Char := trim (text.toList.takeWhile fun c => c != ',')

theorem head_splitOn (cs : List Char) :
    (cs.splitOn ',').head?.getD [] = cs.takeWhile fun c => c != ',' := by
  induction cs with
  | nil => rfl
  | cons c cs ih =>
    rw [List.splitOn_cons_eq_if_modifyHead]
    by_cases hc : c = ','
    · simp [hc]
    · cases hsplit : cs.splitOn ',' with
      | nil => exact absurd hsplit (List.splitOn_ne_nil ',' cs)
      | cons piece pieces =>
        rw [hsplit] at ih
        simpa [hc] using ih

theorem first_eq (header : String) : first header = leftmost header := by
  rw [first, leftmost, head_splitOn]

/-- What the proxy appends never is the leftmost entry of a list that the peer began. -/
theorem leftmost_append (text peer : String) : leftmost (text ++ ", " ++ peer) = leftmost text := by
  have hcut : ∀ cs : List Char, (cs ++ (',' :: ' ' :: peer.toList)).takeWhile (fun c => c != ',') =
      cs.takeWhile fun c => c != ',' := by
    intro cs
    induction cs with
    | nil => rfl
    | cons c cs ih =>
      rw [List.cons_append, List.takeWhile_cons, List.takeWhile_cons, ih]
  have hlist : (text ++ ", " ++ peer).toList = text.toList ++ (',' :: ' ' :: peer.toList) := by
    simp
  rw [leftmost, hlist, hcut, leftmost]

/-- The entry that the peer put in the leftmost place. -/
def claimed (client : Option String) (peer : String) : List Char := leftmost (client.getD peer)

theorem first_appendPeer (client : Option String) (peer : String) :
    first (appendPeer client peer) = claimed client peer := by
  cases client with
  | none => exact first_eq peer
  | some text => exact (first_eq _).trans (leftmost_append text peer)

/-- The address that a request through a trusted proxy gets. -/
def named (addr : String) (client : Option String) (peer : String) : String :=
  if (codeUnits (appendPeer client peer)).length ≤ 2048 ∧ claimed client peer ≠ [] then
    String.ofList (claimed client peer)
  else addr

theorem codeUnits_eq_nil {s : String} (h : (codeUnits s).length = 0) : s.toList = [] := by
  rw [List.length_eq_zero_iff, codeUnits, List.flatMap_eq_nil_iff] at h
  refine List.eq_nil_iff_forall_not_mem.mpr fun c hc => ?_
  have hunits := h c hc
  split_ifs at hunits

/-- An empty header has no entry. -/
theorem first_of_empty {s : String} (h : (codeUnits s).length = 0) : first s = [] := by
  rw [first, codeUnits_eq_nil h]
  rfl

theorem getClientIp_honoured {proxy : Option ProxyTrust} {remoteAddress : Option String}
    (h : Honoured proxy (remoteAddress.getD "127.0.0.1")) (client : Option String)
    (peer : String) :
    getClientIp (forwarded remoteAddress client peer) proxy =
      named (remoteAddress.getD "127.0.0.1") client peer := by
  obtain ⟨trust, rfl, htrust, hmem⟩ := h
  have haddr : trust.trustedProxies.contains (remoteAddress.getD "127.0.0.1") = true :=
    List.contains_iff_mem.mpr hmem
  have hfirst := first_appendPeer client peer
  simp only [getClientIp, forwarded, socketAddr, htrust, haddr, HeaderValue.text, Option.bind_some,
    Bool.not_true, Bool.false_eq_true, if_false, hfirst, named]
  by_cases hempty : (codeUnits (appendPeer client peer)).length = 0
  · have hnone : claimed client peer = [] := hfirst.symm.trans (first_of_empty hempty)
    rw [if_pos hempty, if_neg fun h => h.2 hnone]
  rw [if_neg hempty]
  by_cases hlong : 2048 < (codeUnits (appendPeer client peer)).length
  · rw [if_pos hlong, if_neg fun h => absurd h.1 (Nat.not_le.mpr hlong)]
  rw [if_neg hlong]
  by_cases hclaimed : claimed client peer = []
  · rw [if_neg (by simp [hclaimed]), if_neg fun h => h.2 hclaimed]
  · rw [if_pos (List.length_pos_iff.mpr hclaimed), if_pos ⟨Nat.not_lt.mp hlong, hclaimed⟩]

theorem getClientIp_unhonoured {proxy : Option ProxyTrust} {req : IncomingMessage}
    (h : ¬ Honoured proxy (socketAddr req)) : getClientIp req proxy = socketAddr req := by
  cases proxy with
  | none => rfl
  | some trust =>
    rw [getClientIp]
    by_cases htrust : trust.trustProxy = true
    · have haddr : trust.trustedProxies.contains (socketAddr req) = false := by
        rw [← Bool.not_eq_true, List.contains_iff_mem]
        exact fun hmem => h ⟨trust, rfl, htrust, hmem⟩
      rw [htrust, haddr]
      rfl
    · simp [htrust]

/-- Two requests that differ in what the peer of the proxy sent get one address exactly when the
proxy is not trusted, or what they put in the leftmost place stands for one address. -/
theorem getClientIp_agree_iff (proxy : Option ProxyTrust) (remoteAddress : Option String)
    (client client' : Option String) (peer : String) :
    getClientIp (forwarded remoteAddress client peer) proxy =
        getClientIp (forwarded remoteAddress client' peer) proxy ↔
      (Honoured proxy (remoteAddress.getD "127.0.0.1") →
        named (remoteAddress.getD "127.0.0.1") client peer =
          named (remoteAddress.getD "127.0.0.1") client' peer) := by
  by_cases h : Honoured proxy (remoteAddress.getD "127.0.0.1")
  · rw [getClientIp_honoured h, getClientIp_honoured h]
    exact ⟨fun heq _ => heq, fun heq => heq h⟩
  · have hunhonoured : ∀ client : Option String,
        getClientIp (forwarded remoteAddress client peer) proxy =
          remoteAddress.getD "127.0.0.1" := by
      intro client
      have hsocket : ¬ Honoured proxy (socketAddr (forwarded remoteAddress client peer)) := h
      exact getClientIp_unhonoured hsocket
    exact ⟨fun _ hh => absurd hh h, fun _ => (hunhonoured _).trans (hunhonoured _).symm⟩

/-- One peer of one trusted proxy, under two names of its own choice. -/
theorem forged_differs :
    ¬ ∀ (proxy : Option ProxyTrust) (remoteAddress client client' : Option String) (peer : String),
      getClientIp (forwarded remoteAddress client peer) proxy =
        getClientIp (forwarded remoteAddress client' peer) proxy := by
  intro h
  have hsame := h (some { trustProxy := true, trustedProxies := ["10.0.0.1"] }) (some "10.0.0.1")
    (some "1.1.1.1") (some "2.2.2.2") "203.0.113.9"
  exact absurd hsame (by decide +kernel)

end ClientIp
end Batiste
