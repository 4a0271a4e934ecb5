import Batiste.GitLog
import Batiste.TaskReconciler
import Batiste.Transition

/-! The marker of `reconcileFromGit` over a history that grows: which commits have been read by
the time it stands at or past them. -/
namespace Batiste
namespace TaskReconciler

open GitLog JsString Transition

/-- The number of commits up to the one of this name. -/
def position (h : History) (sha : String) : Option ℕ :=
  (h.commits.findIdx? fun c => c.sha == sha).map (· + 1)

/-- A repository and what the reconciler keeps; `scanned` are the commits that the completed
runs have read, and `first` is where the first marker stood. -/
structure Checkout where
  history : History
  records : Records
  scanned : List String
  first : Option ℕ

def Checkout.marker (s : Checkout) : Option ℕ := s.records.lastSha.bind (position s.history)

inductive Action
  | commit (c : Commit)
  | reconcile (opts : ReconcileOptions) (fails : List String → Option String) (date : ℤ)
      (clock : ℕ → TaskManager.Clocks) (auditSink : Option (ℕ → Option String))

variable (rev : Revisions) (repoPath : String)

/-- A run on the present history. -/
def reconcile (s : Checkout) (opts : ReconcileOptions) (fails : List String → Option String)
    (date : ℤ) (clock : ℕ → TaskManager.Clocks) (auditSink : Option (ℕ → Option String)) :
    Records × Except Failure ReconcileResult :=
  reconcileFromGit repoPath ⟨git rev s.history fails, date, clock, auditSink⟩ opts s.records

/-- Where the window of a run begins. -/
def windowOf (s : Checkout) (opts : ReconcileOptions) (fails : List String → Option String) :
    Option ℕ :=
  windowStart rev s.history fails repoPath (opts.since.or s.records.lastSha)

def step (s : Checkout) : Action → Option Checkout
  | .commit c =>
    if h : c.sha ∈ s.history.commits.map Commit.sha then none
    else some { s with history := ⟨s.history.commits ++ [c], by
      rw [List.map_append, List.nodup_append]
      refine ⟨s.history.nodup, by simp, ?_⟩
      rintro sha hsha _ hlast rfl
      exact h (List.mem_singleton.mp hlast ▸ hsha)⟩ }
  | .reconcile opts fails date clock auditSink =>
    let run := reconcile rev repoPath s opts fails date clock auditSink
    let read := ((windowOf rev repoPath s opts fails).map s.history.commits.drop).getD []
    some {
      history := s.history
      records := run.1
      scanned := match run.2 with
        | .ok _ => s.scanned ++ read.map Commit.sha
        | .error _ => s.scanned
      first := s.first.or (run.1.lastSha.bind (position s.history)) }

/-- Before the first run. -/
def fresh (history : History) (board : Board) : Checkout :=
  ⟨history, ⟨board, none, []⟩, [], none⟩

/-- Every commit after the first marker that the marker stands at or past has been read. -/
def Covered (s : Checkout) : Prop :=
  ∀ b m, s.first = some b → s.marker = some m →
    ∀ i c, b ≤ i → i < m → s.history.commits[i]? = some c → c.sha ∈ s.scanned

/-- A run that comes to its end and reads any commit begins its window at the marker or before,
where there is one. -/
def NoGap (s : Checkout) : Action → Prop
  | .commit _ => True
  | .reconcile opts fails date clock auditSink =>
    ∀ result k m, (reconcile rev repoPath s opts fails date clock auditSink).2 = .ok result →
      windowOf rev repoPath s opts fails = some k → k < s.history.commits.length →
      s.marker = some m → k ≤ m

/-! ## Positions -/

theorem position_of_getElem {h : History} {i : ℕ} {c : Commit} (hc : h.commits[i]? = some c) :
    position h c.sha = some (i + 1) := by
  obtain ⟨hi, rfl⟩ := List.getElem?_eq_some_iff.mp hc
  have hfind : (h.commits.findIdx? fun d => d.sha == h.commits[i].sha) = some i := by
    rw [List.findIdx?_eq_some_iff_getElem]
    refine ⟨hi, by simp, fun j hj => ?_⟩
    have hi' : i < (h.commits.map Commit.sha).length := by simpa using hi
    have hj' : j < (h.commits.map Commit.sha).length := hj.trans hi'
    have hne : (h.commits.map Commit.sha)[j] ≠ (h.commits.map Commit.sha)[i] :=
      fun heq => (h.nodup.getElem_inj_iff.mp heq).not_lt hj
    simpa using hne
  simp [position, hfind]

theorem getElem_of_position {h : History} {sha : String} {m : ℕ} (hm : position h sha = some m) :
    ∃ i c, m = i + 1 ∧ h.commits[i]? = some c ∧ c.sha = sha := by
  obtain ⟨i, hi, rfl⟩ := Option.map_eq_some_iff.mp hm
  obtain ⟨hlt, heq, -⟩ := List.findIdx?_eq_some_iff_getElem.mp hi
  exact ⟨i, h.commits[i], rfl, List.getElem?_eq_getElem hlt, by simpa using heq⟩

theorem position_le {h : History} {sha : String} {m : ℕ} (hm : position h sha = some m) :
    m ≤ h.commits.length := by
  obtain ⟨i, c, rfl, hc, -⟩ := getElem_of_position hm
  exact (List.getElem?_eq_some_iff.mp hc).1

/-- A commit more leaves the others where they are. -/
theorem position_append {h h' : History} {c : Commit} (hh : h'.commits = h.commits ++ [c])
    {sha : String} {m : ℕ} (hm : position h sha = some m) : position h' sha = some m := by
  obtain ⟨i, d, rfl, hd, rfl⟩ := getElem_of_position hm
  refine position_of_getElem ?_
  rw [hh, List.getElem?_append_left (List.getElem?_eq_some_iff.mp hd).1, hd]

/-! ## One run -/

variable {rev repoPath}

theorem reconcileFromGit_lastSha (repoPath : String) (host : Host) (opts : ReconcileOptions) (s : Records) :
    (reconcileFromGit repoPath host opts s).1.lastSha =
      match (reconcileFromGit repoPath host opts s).2 with
      | .ok _ => (((readCommits repoPath host.git (opts.since.or s.lastSha)).toOption.map
          Prod.fst).bind fun commits => commits.head?.map ParsedCommit.sha).or s.lastSha
      | .error _ => s.lastSha := by
  unfold reconcileFromGit
  cases readCommits repoPath host.git (opts.since.or s.lastSha) with
  | error message => rfl
  | ok read =>
    simp only
    cases (trailers read.1).foldlM (closeTrailer host (opts.now.getD (host.date / 1000 : ℤ)))
      (start s) <;> rfl

theorem reconcileFromGit_reads {host : Host} {opts : ReconcileOptions} {s : Records}
    {result : ReconcileResult} (h : (reconcileFromGit repoPath host opts s).2 = .ok result) :
    (readCommits repoPath host.git (opts.since.or s.lastSha)).toOption.isSome := by
  unfold reconcileFromGit at h
  cases hread : readCommits repoPath host.git (opts.since.or s.lastSha) with
  | error message => simp [hread] at h
  | ok read => rfl

/-- The newest commit of a window is the newest of all. -/
theorem head_window (h : History) (k : ℕ) :
    (((h.commits.drop k).reverse.map Commit.parsed).head?.map ParsedCommit.sha) =
      if k < h.commits.length then h.commits.getLast?.map Commit.sha else none := by
  have hparsed : ParsedCommit.sha ∘ Commit.parsed = Commit.sha := rfl
  rw [List.head?_map, List.head?_reverse, Option.map_map, hparsed, List.getLast?_drop]
  split_ifs <;> first | rfl | omega

variable {s : Checkout} {opts : ReconcileOptions} {fails : List String → Option String}
  {date : ℤ} {clock : ℕ → TaskManager.Clocks} {auditSink : Option (ℕ → Option String)}

/-- A run that comes to its end has a window; its marker is the newest commit, unless the window
is empty. -/
theorem reconcile_ok {result : ReconcileResult}
    (hok : (reconcile rev repoPath s opts fails date clock auditSink).2 = .ok result) :
    ∃ k, windowOf rev repoPath s opts fails = some k ∧
      (reconcile rev repoPath s opts fails date clock auditSink).1.lastSha =
        if k < s.history.commits.length then s.history.commits.getLast?.map Commit.sha
        else s.records.lastSha := by
  have hread := readCommits_git rev s.history fails repoPath (opts.since.or s.records.lastSha)
  have hsome := reconcileFromGit_reads hok
  have hlast := reconcileFromGit_lastSha repoPath
    ⟨git rev s.history fails, date, clock, auditSink⟩ opts s.records
  rw [show (reconcileFromGit repoPath _ opts s.records).2 = .ok result from hok] at hlast
  cases hwindow : windowOf rev repoPath s opts fails with
  | none =>
    rw [windowOf] at hwindow
    rw [hwindow] at hread
    rw [← Option.isSome_map (f := Prod.fst), hread] at hsome
    simp at hsome
  | some k =>
    rw [windowOf] at hwindow
    rw [hwindow] at hread
    refine ⟨k, rfl, hlast.trans ?_⟩
    simp only [hread, Option.map_some, Option.bind_some, head_window]
    split_ifs with hk
    · have hne : s.history.commits ≠ [] := by
        rintro hnil
        simp [hnil] at hk
      rw [List.getLast?_eq_some_getLast hne]
      rfl
    · rfl

theorem reconcile_error {failure : Failure}
    (herror : (reconcile rev repoPath s opts fails date clock auditSink).2 = .error failure) :
    (reconcile rev repoPath s opts fails date clock auditSink).1.lastSha = s.records.lastSha := by
  have hlast := reconcileFromGit_lastSha repoPath
    ⟨git rev s.history fails, date, clock, auditSink⟩ opts s.records
  rw [show (reconcileFromGit repoPath _ opts s.records).2 = .error failure from herror] at hlast
  exact hlast

/-- What a run leaves when it comes to its end with commits read. -/
theorem step_reads {result : ReconcileResult} {k : ℕ}
    (hok : (reconcile rev repoPath s opts fails date clock auditSink).2 = .ok result)
    (hwindow : windowOf rev repoPath s opts fails = some k)
    (hk : k < s.history.commits.length) {t : Checkout}
    (hs : step rev repoPath s (.reconcile opts fails date clock auditSink) = some t) :
    t.history = s.history ∧ t.marker = some s.history.commits.length ∧
      t.scanned = s.scanned ++ (s.history.commits.drop k).map Commit.sha ∧
      t.first = s.first.or (some s.history.commits.length) := by
  obtain ⟨k', hk', hlast⟩ := reconcile_ok hok
  obtain rfl : k = k' := Option.some.inj (hwindow.symm.trans hk')
  rw [if_pos hk] at hlast
  have hnewest : s.history.commits[s.history.commits.length - 1]? =
      s.history.commits.getLast? := List.getLast?_eq_getElem?.symm
  have hmarker : (s.history.commits.getLast?.map Commit.sha).bind (position s.history) =
      some s.history.commits.length := by
    cases hc : s.history.commits.getLast? with
    | none => simp [List.getLast?_eq_none_iff.mp hc] at hk
    | some c =>
      rw [hc] at hnewest
      have hposition := position_of_getElem hnewest
      rw [Nat.sub_add_cancel (by omega)] at hposition
      exact hposition
  cases hs
  refine ⟨rfl, ?_, ?_, ?_⟩
  · simp only [Checkout.marker, hlast, hmarker]
  · simp only [hok, hwindow, Option.map_some, Option.getD_some]
  · simp only [hlast, hmarker]

/-- What a run leaves that fails or reads nothing. -/
theorem step_idle {t : Checkout} (hno : ¬ ∃ result k,
      (reconcile rev repoPath s opts fails date clock auditSink).2 = .ok result ∧
      windowOf rev repoPath s opts fails = some k ∧ k < s.history.commits.length)
    (hs : step rev repoPath s (.reconcile opts fails date clock auditSink) = some t) :
    t.history = s.history ∧ t.records.lastSha = s.records.lastSha ∧ t.scanned = s.scanned ∧
      t.first = s.first.or s.marker := by
  cases hs
  cases hoc : (reconcile rev repoPath s opts fails date clock auditSink).2 with
  | error failure =>
    have hlast := reconcile_error hoc
    simp only [Checkout.marker, hlast, and_self]
  | ok result =>
    obtain ⟨k, hk, hlast⟩ := reconcile_ok hoc
    have hempty : s.history.commits.length ≤ k := by
      by_contra hlt
      exact hno ⟨result, k, hoc, hk, by omega⟩
    rw [if_neg (by omega)] at hlast
    simp only [Checkout.marker, hlast, hk, Option.map_some, Option.getD_some,
      List.drop_eq_nil_of_le hempty, List.map_nil, List.append_nil, and_self]

/-! ## Runs -/

/-- The marker is a commit of the history; nothing past it has been read. -/
structure Inv (s : Checkout) : Prop where
  known : s.records.lastSha.isSome → s.marker.isSome
  first : s.first.isSome ↔ s.marker.isSome
  order : ∀ b m, s.first = some b → s.marker = some m → b ≤ m
  scanned : ∀ sha ∈ s.scanned, ∃ m i c, s.marker = some m ∧ i < m ∧
    s.history.commits[i]? = some c ∧ c.sha = sha

theorem idle_frame {t : Checkout} (hinv : Inv s) (hno : ¬ ∃ result k,
      (reconcile rev repoPath s opts fails date clock auditSink).2 = .ok result ∧
      windowOf rev repoPath s opts fails = some k ∧ k < s.history.commits.length)
    (hs : step rev repoPath s (.reconcile opts fails date clock auditSink) = some t) :
    t.history = s.history ∧ t.marker = s.marker ∧ t.scanned = s.scanned ∧ t.first = s.first := by
  obtain ⟨hhistory, hlast, hscanned, hfirst⟩ := step_idle hno hs
  refine ⟨hhistory, by rw [Checkout.marker, Checkout.marker, hlast, hhistory], hscanned, ?_⟩
  rw [hfirst]
  cases hold : s.first with
  | some b => rfl
  | none =>
    have hmarker : s.marker = none := by
      simpa [hold] using hinv.first
    rw [hmarker]
    rfl

theorem inv_fresh (history : History) (board : Board) : Inv (fresh history board) := by
  constructor <;> simp [fresh, Checkout.marker]

theorem marker_commit {t : Checkout} {c : Commit} (hinv : Inv s)
    (hs : step rev repoPath s (.commit c) = some t) :
    t.history.commits = s.history.commits ++ [c] ∧ t.marker = s.marker ∧
      t.scanned = s.scanned ∧ t.first = s.first ∧ t.records = s.records := by
  simp only [step] at hs
  split_ifs at hs with hfresh
  cases hs
  refine ⟨rfl, ?_, rfl, rfl, rfl⟩
  cases hlast : s.records.lastSha with
  | none => simp [Checkout.marker, hlast]
  | some sha =>
    obtain ⟨m, hm⟩ := Option.isSome_iff_exists.mp (hinv.known (by simp [hlast]))
    have hposition : position s.history sha = some m := by simpa [Checkout.marker, hlast] using hm
    rw [hm]
    simp only [Checkout.marker, hlast, Option.bind_some]
    exact position_append rfl hposition

theorem getElem_commit {l : List Commit} {c d : Commit} {i : ℕ} (h : l[i]? = some d) :
    (l ++ [c])[i]? = some d := by
  rw [List.getElem?_append_left (List.getElem?_eq_some_iff.mp h).1, h]

theorem marker_le {m : ℕ} (h : s.marker = some m) : m ≤ s.history.commits.length := by
  obtain ⟨sha, -, hm⟩ := Option.bind_eq_some_iff.mp h
  exact position_le hm

theorem inv_step {t : Checkout} {a : Action} (hinv : Inv s)
    (hs : step rev repoPath s a = some t) : Inv t := by
  cases a with
  | commit c =>
    obtain ⟨hcommits, hmarker, hscanned, hfirst, hrecords⟩ := marker_commit hinv hs
    refine ⟨by rw [hrecords, hmarker]; exact hinv.known, by rw [hfirst, hmarker]; exact hinv.first,
      by rw [hfirst, hmarker]; exact hinv.order, ?_⟩
    rw [hscanned, hmarker, hcommits]
    intro sha hsha
    obtain ⟨m, i, d, hm, hi, hd, hname⟩ := hinv.scanned sha hsha
    exact ⟨m, i, d, hm, hi, getElem_commit hd, hname⟩
  | reconcile opts fails date clock auditSink =>
    by_cases hread : ∃ result k,
        (reconcile rev repoPath s opts fails date clock auditSink).2 = .ok result ∧
        windowOf rev repoPath s opts fails = some k ∧ k < s.history.commits.length
    · obtain ⟨result, k, hok, hwindow, hk⟩ := hread
      obtain ⟨hhistory, hmarker, hscanned, hfirst⟩ := step_reads hok hwindow hk hs
      refine ⟨by simp [hmarker], by simp [hmarker, hfirst], ?_, ?_⟩
      · intro b m hb hm
        obtain rfl : s.history.commits.length = m := by simpa [hmarker] using hm
        cases hold : s.first with
        | none =>
          rw [hfirst, hold] at hb
          exact (Option.some.inj hb).ge
        | some b' =>
          obtain rfl : b' = b := by simpa [hfirst, hold] using hb
          obtain ⟨m, hm⟩ := Option.isSome_iff_exists.mp (hinv.first.mp (by simp [hold]))
          exact (hinv.order b' m hold hm).trans (marker_le hm)
      · rw [hscanned, hmarker, hhistory]
        intro sha hsha
        rcases List.mem_append.mp hsha with hold | hnew
        · obtain ⟨m, i, d, hm, hi, hd, hname⟩ := hinv.scanned sha hold
          exact ⟨_, i, d, rfl, lt_of_lt_of_le hi (marker_le hm), hd, hname⟩
        · obtain ⟨d, hd, rfl⟩ := List.mem_map.mp hnew
          obtain ⟨i, hi⟩ := List.mem_iff_getElem?.mp (List.mem_of_mem_drop hd)
          exact ⟨_, i, d, rfl, (List.getElem?_eq_some_iff.mp hi).1, hi, rfl⟩
    · obtain ⟨hhistory, hmarker, hscanned, hfirst⟩ := idle_frame hinv hread hs
      obtain ⟨-, hlast, -⟩ := step_idle hread hs
      refine ⟨by rw [hlast, hmarker]; exact hinv.known, by rw [hfirst, hmarker]; exact hinv.first,
        by rw [hfirst, hmarker]; exact hinv.order, ?_⟩
      rw [hscanned, hmarker, hhistory]
      exact hinv.scanned

theorem inv_run {history : History} {board : Board} {as : List Action}
    (h : run (step rev repoPath) (fresh history board) as = some s) : Inv s :=
  run_invariant (fun _ _ _ hinv hs => inv_step hinv hs) (inv_fresh history board) h

theorem covered_step {t : Checkout} {a : Action} (hinv : Inv s) (hcovered : Covered s)
    (hgap : NoGap rev repoPath s a) (hs : step rev repoPath s a = some t) : Covered t := by
  cases a with
  | commit c =>
    obtain ⟨hcommits, hmarker, hscanned, hfirst, -⟩ := marker_commit hinv hs
    intro b m hb hm i d hbi him hd
    rw [hfirst] at hb
    rw [hmarker] at hm
    rw [hscanned]
    refine hcovered b m hb hm i d hbi him ?_
    rwa [hcommits, List.getElem?_append_left (lt_of_lt_of_le him (marker_le hm))] at hd
  | reconcile opts fails date clock auditSink =>
    by_cases hread : ∃ result k,
        (reconcile rev repoPath s opts fails date clock auditSink).2 = .ok result ∧
        windowOf rev repoPath s opts fails = some k ∧ k < s.history.commits.length
    · obtain ⟨result, k, hok, hwindow, hk⟩ := hread
      obtain ⟨hhistory, hmarker, hscanned, hfirst⟩ := step_reads hok hwindow hk hs
      intro b m hb hm i d hbi him hd
      obtain rfl : s.history.commits.length = m := by simpa [hmarker] using hm
      rw [hhistory] at hd
      rw [hscanned, List.mem_append]
      cases hold : s.first with
      | none =>
        have hlen : s.history.commits.length = b := by simpa [hfirst, hold] using hb
        omega
      | some b' =>
        obtain rfl : b' = b := by simpa [hfirst, hold] using hb
        obtain ⟨m, hm⟩ := Option.isSome_iff_exists.mp (hinv.first.mp (by simp [hold]))
        by_cases hbefore : i < m
        · exact Or.inl (hcovered b' m hold hm i d hbi hbefore hd)
        · have hkm := hgap result k m hok hwindow hk hm
          refine Or.inr (List.mem_map_of_mem (List.mem_iff_getElem?.mpr ⟨i - k, ?_⟩))
          rw [List.getElem?_drop, show k + (i - k) = i by omega, hd]
    · obtain ⟨hhistory, hmarker, hscanned, hfirst⟩ := idle_frame hinv hread hs
      intro b m hb hm i d hbi him hd
      rw [hfirst] at hb
      rw [hmarker] at hm
      rw [hhistory] at hd
      rw [hscanned]
      exact hcovered b m hb hm i d hbi him hd

/-- A run that skips commits past the marker leaves them unread for good. -/
theorem noGap_of_covered {t : Checkout} {a : Action} (hinv : Inv s)
    (hs : step rev repoPath s a = some t) (hcovered : Covered t) : NoGap rev repoPath s a := by
  cases a with
  | commit c => trivial
  | reconcile opts fails date clock auditSink =>
    intro result k m hok hwindow hk hm
    by_contra hgap
    obtain ⟨hhistory, hmarker, hscanned, hfirst⟩ := step_reads hok hwindow hk hs
    obtain ⟨b, hb⟩ := Option.isSome_iff_exists.mp (hinv.first.mpr (by simp [hm]))
    have hlt : m < s.history.commits.length := by omega
    have hd : s.history.commits[m]? = some s.history.commits[m] := List.getElem?_eq_getElem hlt
    have hread := hcovered b _ (by rw [hfirst, hb]; rfl) hmarker m _ (hinv.order b m hb hm) hlt
      (by rw [hhistory]; exact hd)
    have hsame : ∀ i c, s.history.commits[i]? = some c → c.sha = s.history.commits[m].sha →
        i = m := by
      intro i c hc hname
      have hposition := position_of_getElem hc
      rw [hname, position_of_getElem hd] at hposition
      exact (Nat.succ.inj (Option.some.inj hposition)).symm
    rw [hscanned, List.mem_append] at hread
    rcases hread with hold | hnew
    · obtain ⟨m', i, c, hm', hi, hc, hname⟩ := hinv.scanned _ hold
      obtain rfl : m = m' := Option.some.inj (hm.symm.trans hm')
      have := hsame i c hc hname
      omega
    · obtain ⟨c, hc, hname⟩ := List.mem_map.mp hnew
      obtain ⟨j, hj⟩ := List.mem_iff_getElem?.mp hc
      rw [List.getElem?_drop] at hj
      have := hsame (k + j) c hj hname
      omega

/-- The marker never stands past a commit that no run has read exactly where each run that
reads commits and comes to its end begins at the marker or before. -/
theorem marker_covers_iff (rev : Revisions) (repoPath : String) (history : History)
    (board : Board) (as : List Action) :
    (∀ pre t, pre <+: as → run (step rev repoPath) (fresh history board) pre = some t →
      Covered t) ↔
    Each (step rev repoPath) (fresh history board) as fun _ s a => NoGap rev repoPath s a := by
  constructor
  · intro hall pre a post s has hs
    cases a with
    | commit c => trivial
    | reconcile opts fails date clock auditSink =>
      have hstep : step rev repoPath s (.reconcile opts fails date clock auditSink) = some _ := rfl
      refine noGap_of_covered (inv_run hs) hstep (hall _ _ ?_ (run_snoc hs hstep))
      exact ⟨post, by simp [has]⟩
  · rintro heach pre t ⟨post, rfl⟩ ht
    have hboth : Inv t ∧ Covered t := by
      refine run_history (I := fun _ u => Inv u ∧ Covered u) ⟨inv_fresh history board, ?_⟩ ?_
        heach.initial ht
      · intro b m hb
        simp [fresh] at hb
      · intro pre' s a u _ hs hgap hu
        exact ⟨inv_step hs.1 hu, covered_step hs.1 hs.2 hgap hu⟩
    exact hboth.2

/-- A run from the marker leaves no gap, as long as `git` knows the marker. -/
theorem noGap_default (hsince : opts.since = none)
    (hrev : ∀ sha, rev s.history sha = position s.history sha)
    (hfails : ∀ args, fails args = none) (hne : s.records.lastSha ≠ some "") :
    NoGap rev repoPath s (.reconcile opts fails date clock auditSink) := by
  intro result k m _ hwindow _ hm
  obtain ⟨sha, hsha, hposition⟩ := Option.bind_eq_some_iff.mp hm
  have hfilter : (some sha).filter (fun ref => ref != "") = some sha := by
    have : sha ≠ "" := fun hnil => hne (hsha.trans (congrArg some hnil))
    simp [this]
  simp only [windowOf, windowStart, hsince, hsha, Option.none_or, hfilter, hfails,
    Option.isNone_none, if_true, hrev, hposition, Option.some_or, Option.some.injEq] at hwindow
  omega

/-! ## A gap -/

def plainCommit (sha body : String) (h₁ : trim sha.toList = sha.toList := by decide)
    (h₂ : sha.toList ≠ [] := by decide) (h₃ : '\x00' ∉ sha.toList := by decide)
    (h₄ : '\x00' ∉ body.toList := by decide) : Commit := ⟨sha, body, h₁, h₂, h₃, h₄⟩

def initialCommit : Commit := plainCommit "a1" "start"
def doneCommit : Commit := plainCommit "b2" "work\n\nTask-done: old"
def lastCommit : Commit := plainCommit "c3" "more"

def manual (since : Option String) : Action :=
  .reconcile { since := since } (fun _ => none) 0 (fun _ => ⟨0, 0⟩) none

/-- The second run is told to begin after the commit that completes the task, and moves the
marker over it. -/
theorem marker_passes_unread :
    ¬ ∀ pre t, pre <+: [manual none, .commit doneCommit, .commit lastCommit, manual (some "b2")] →
      run (step position ".") (fresh ⟨[initialCommit], by decide⟩ TaskManager.lone) pre = some t →
      Covered t := by
  intro h
  have hcovered := h _ _ List.prefix_rfl rfl
  have hread := hcovered 1 3 rfl rfl 1 doneCommit le_rfl (by decide) rfl
  exact absurd hread (by decide)

end TaskReconciler
end Batiste
