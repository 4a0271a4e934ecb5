import Batiste.Transition

/-! The guard that refuses an edit of a file that changed since it was read.
The hash function and path resolution are parameters: `node:crypto` and `node:path` are not
part of the repository.  The disk and what each agent has seen of it stand beside the
snapshots, so that runs can interleave agents, checks and edits from outside. -/
namespace Batiste
namespace EditConcurrencyGuard

open Transition

abbrev Bytes := List UInt8

/-- File contents as the callers hand them over, a string or a buffer. -/
inductive Content
  | text (s : String)
  | buffer (b : Bytes)

def Content.bytes : Content → Bytes
  | .text s => s.toList.flatMap String.utf8EncodeChar
  | .buffer b => b

structure ReadRecord where
  path : String
  shaAtRead : String
  bytesAtRead : ℕ
  ts : String
  agentId : String

structure ConcurrencyCheckResult where
  ok : Bool
  expectedSha : Option String
  actualSha : Option String
  reason : Option String

/-- The map of the guard, keyed by absolute path. -/
abbrev Snapshots := String → Option ReadRecord

/-- Reading a file gives its bytes or the message of the error. -/
abbrev Disk := String → Except String Bytes

variable (sha256 : Bytes → String) (resolve : String → String)

def recordRead (snapshots : Snapshots) (path : String) (content : Content)
    (agentId ts : String) : Snapshots :=
  let absPath := resolve path
  let contentBuf := content.bytes
  Function.update snapshots absPath <| some
    { path := absPath
      shaAtRead := sha256 contentBuf
      bytesAtRead := contentBuf.length
      ts := ts
      agentId := agentId }

def slice12 (sha : String) : String := String.ofList (sha.toList.take 12)

def checkBeforeEdit (snapshots : Snapshots) (readFileSync : Disk) (path : String) :
    ConcurrencyCheckResult :=
  let absPath := resolve path
  match snapshots absPath with
  | none =>
    { ok := false, expectedSha := none, actualSha := none
      reason := some ("no snapshot for this path; agent must Read the file before Edit so " ++
        "the concurrency guard can establish a baseline SHA.") }
  | some snapshot =>
    match readFileSync absPath with
    | .error msg =>
      { ok := false, expectedSha := none, actualSha := none
        reason := some ("cannot re-read file at edit time: " ++ msg) }
    | .ok currentBuf =>
      let currentSha := sha256 currentBuf
      if currentSha ≠ snapshot.shaAtRead then
        { ok := false, expectedSha := some snapshot.shaAtRead, actualSha := some currentSha
          reason := some ("file changed between Read (" ++ snapshot.ts ++ ") and Edit. " ++
            "Expected SHA " ++ slice12 snapshot.shaAtRead ++ " but disk has " ++
            slice12 currentSha ++ ". " ++
            "Re-read the file and re-plan the edit against current content.") }
      else
        { ok := true, expectedSha := some snapshot.shaAtRead, actualSha := some currentSha
          reason := none }

/-- `agentId ?? existing?.agentId ?? 'unknown'` -/
def updateAfterEdit (snapshots : Snapshots) (path : String) (newContent : Content)
    (agentId : Option String) (ts : String) : Snapshots :=
  let existing := snapshots (resolve path)
  recordRead sha256 resolve snapshots path newContent
    ((agentId.or (existing.map (·.agentId))).getD "unknown") ts

def forget (snapshots : Snapshots) (path : String) : Snapshots :=
  Function.update snapshots (resolve path) none

def reset : Snapshots := fun _ => none

/-- A check succeeds exactly where the disk holds something of the recorded hash. -/
theorem checkBeforeEdit_ok_iff (snapshots : Snapshots) (disk : Disk) (path : String) :
    (checkBeforeEdit sha256 resolve snapshots disk path).ok = true ↔
      ∃ snapshot currentBuf, snapshots (resolve path) = some snapshot ∧
        disk (resolve path) = .ok currentBuf ∧ sha256 currentBuf = snapshot.shaAtRead := by
  cases hsnap : snapshots (resolve path) with
  | none => simp [checkBeforeEdit, hsnap]
  | some snapshot =>
    cases hread : disk (resolve path) with
    | error msg => simp [checkBeforeEdit, hsnap, hread]
    | ok currentBuf =>
      by_cases hsha : sha256 currentBuf = snapshot.shaAtRead
      · simp [checkBeforeEdit, hsnap, hread, hsha]
      · simp [checkBeforeEdit, hsnap, hread, hsha]

/-! ## Interleavings -/

/-- The guard, the disk, and the bytes each agent last read or wrote at an absolute path. -/
structure Session where
  snapshots : Snapshots
  disk : Disk
  seen : String → String → Option Bytes

/-- One call or one edit.  The write of a file and the guard's update for it are two steps,
as the caller awaits the first; `outside` is any other change of a file, its removal too. -/
inductive Action
  | recordRead (agent path : String) (content : Content) (ts : String)
  | writeFile (agent path : String) (content : Content)
  | updateAfterEdit (path : String) (content : Content) (agentId : Option String) (ts : String)
  | checkBeforeEdit (agent path : String)
  | outside (absPath : String) (contents : Except String Bytes)
  | forget (path : String)
  | reset

def see (seen : String → String → Option Bytes) (agent absPath : String) (bytes : Bytes) :
    String → String → Option Bytes :=
  Function.update seen agent (Function.update (seen agent) absPath (some bytes))

def step (s : Session) : Action → Option Session
  | .recordRead agent path content ts =>
    some { s with
      snapshots := recordRead sha256 resolve s.snapshots path content agent ts
      seen := see s.seen agent (resolve path) content.bytes }
  | .writeFile agent path content =>
    some { s with
      disk := Function.update s.disk (resolve path) (.ok content.bytes)
      seen := see s.seen agent (resolve path) content.bytes }
  | .updateAfterEdit path content agentId ts =>
    some { s with
      snapshots := updateAfterEdit sha256 resolve s.snapshots path content agentId ts }
  | .checkBeforeEdit _ _ => some s
  | .outside absPath contents =>
    some { s with disk := Function.update s.disk absPath contents }
  | .forget path => some { s with snapshots := forget resolve s.snapshots path }
  | .reset => some { s with snapshots := reset }

/-- A new guard over the files of a disk. -/
def start (disk : Disk) : Session := ⟨reset, disk, fun _ _ => none⟩

/-- The bytes a step brings in. -/
def Action.brings : Action → Bytes → Prop
  | .recordRead _ _ content _, b => b = content.bytes
  | .writeFile _ _ content, b => b = content.bytes
  | .updateAfterEdit _ content _ _, b => b = content.bytes
  | .outside _ contents, b => contents = .ok b
  | .checkBeforeEdit _ _, _ => False
  | .forget _, _ => False
  | .reset, _ => False

/-- All bytes that occur in a run. -/
def occurring (disk : Disk) (as : List Action) : Set Bytes :=
  {b | (∃ path, disk path = .ok b) ∨ ∃ a ∈ as, a.brings b}

/-- Where a check succeeds, the disk holds what the agent itself last read or wrote there. -/
def Protects (s : Session) : Action → Prop
  | .checkBeforeEdit agent path =>
    (checkBeforeEdit sha256 resolve s.snapshots s.disk path).ok = true →
      ∃ b, s.disk (resolve path) = .ok b ∧ s.seen agent (resolve path) = some b
  | _ => True

/-- The snapshot that a check will use is one of what the agent itself last read or wrote. -/
def OwnSnapshot (s : Session) : Action → Prop
  | .checkBeforeEdit agent path =>
    ∀ snapshot, s.snapshots (resolve path) = some snapshot →
      ∃ b, s.seen agent (resolve path) = some b ∧ snapshot.shaAtRead = sha256 b
  | _ => True

/-! ## What a session knows -/

/-- All bytes on the disk and in the agents' sight are from a set, and every snapshot is the
hash of bytes from it. -/
structure Within (known : Set Bytes) (s : Session) : Prop where
  disk : ∀ path b, s.disk path = .ok b → b ∈ known
  seen : ∀ agent path b, s.seen agent path = some b → b ∈ known
  hashed : ∀ absPath snapshot, s.snapshots absPath = some snapshot →
    ∃ b ∈ known, snapshot.shaAtRead = sha256 b

variable {sha256 resolve} {known : Set Bytes}

theorem mem_of_update_disk {disk : Disk} {absPath : String} {contents : Except String Bytes}
    (hdisk : ∀ path b, disk path = .ok b → b ∈ known) (hnew : ∀ b, contents = .ok b → b ∈ known)
    (path : String) (b : Bytes) (hb : Function.update disk absPath contents path = .ok b) :
    b ∈ known := by
  by_cases hpath : path = absPath
  · subst hpath
    exact hnew b (by simpa using hb)
  · exact hdisk path b (by simpa [Function.update_of_ne hpath] using hb)

theorem mem_of_see {seen : String → String → Option Bytes} {agent absPath : String}
    {bytes : Bytes} (hseen : ∀ a path b, seen a path = some b → b ∈ known)
    (hnew : bytes ∈ known) (a path : String) (b : Bytes)
    (hb : see seen agent absPath bytes a path = some b) : b ∈ known := by
  by_cases ha : a = agent
  · subst ha
    by_cases hpath : path = absPath
    · subst hpath
      obtain rfl : bytes = b := by simpa [see] using hb
      exact hnew
    · exact hseen a path b (by simpa [see, Function.update_of_ne hpath] using hb)
  · exact hseen a path b (by simpa [see, Function.update_of_ne ha] using hb)

theorem hashed_of_recordRead {snapshots : Snapshots} {path : String} {content : Content}
    {agentId ts : String}
    (hsnap : ∀ absPath r, snapshots absPath = some r → ∃ b ∈ known, r.shaAtRead = sha256 b)
    (hnew : content.bytes ∈ known) (absPath : String) (r : ReadRecord)
    (hr : recordRead sha256 resolve snapshots path content agentId ts absPath = some r) :
    ∃ b ∈ known, r.shaAtRead = sha256 b := by
  by_cases hpath : absPath = resolve path
  · subst hpath
    simp only [recordRead, Function.update_self, Option.some.injEq] at hr
    subst hr
    exact ⟨content.bytes, hnew, rfl⟩
  · exact hsnap absPath r (by simpa [recordRead, Function.update_of_ne hpath] using hr)

theorem hashed_of_forget {snapshots : Snapshots} {path : String}
    (hsnap : ∀ absPath r, snapshots absPath = some r → ∃ b ∈ known, r.shaAtRead = sha256 b)
    (absPath : String) (r : ReadRecord) (hr : forget resolve snapshots path absPath = some r) :
    ∃ b ∈ known, r.shaAtRead = sha256 b := by
  by_cases hpath : absPath = resolve path
  · simp [forget, hpath] at hr
  · exact hsnap absPath r (by simpa [forget, Function.update_of_ne hpath] using hr)

theorem within_step {s t : Session} {a : Action} (h : Within sha256 known s)
    (ha : ∀ b, a.brings b → b ∈ known) (hs : step sha256 resolve s a = some t) :
    Within sha256 known t := by
  cases a with
  | recordRead agent path content ts =>
    cases hs
    exact ⟨h.disk, mem_of_see h.seen (ha _ rfl), hashed_of_recordRead h.hashed (ha _ rfl)⟩
  | writeFile agent path content =>
    cases hs
    refine ⟨mem_of_update_disk h.disk fun b hb => ha b ?_, mem_of_see h.seen (ha _ rfl),
      h.hashed⟩
    exact (Except.ok.inj hb).symm
  | updateAfterEdit path content agentId ts =>
    cases hs
    exact ⟨h.disk, h.seen, hashed_of_recordRead h.hashed (ha _ rfl)⟩
  | checkBeforeEdit agent path =>
    cases hs
    exact h
  | outside absPath contents =>
    cases hs
    exact ⟨mem_of_update_disk h.disk fun b hb => ha b hb, h.seen, h.hashed⟩
  | forget path =>
    cases hs
    exact ⟨h.disk, h.seen, hashed_of_forget h.hashed⟩
  | reset =>
    cases hs
    exact ⟨h.disk, h.seen, fun absPath r hr => by simp [EditConcurrencyGuard.reset] at hr⟩

theorem within_run {disk : Disk} {as : List Action} {s : Session}
    (h : run (step sha256 resolve) (start disk) as = some s) :
    Within sha256 (occurring disk as) s := by
  have hbrings : Each (step sha256 resolve) (start disk) as
      fun _ _ a => ∀ b, a.brings b → b ∈ occurring disk as := by
    intro pre a post s has _ b hb
    exact Or.inr ⟨a, by simp [has], hb⟩
  refine run_history (I := fun _ t => Within sha256 (occurring disk as) t) ?_ ?_ hbrings h
  · exact ⟨fun path b hb => Or.inl ⟨path, hb⟩, fun agent path b hb => by simp [start] at hb,
      fun absPath r hr => by simp [start, reset] at hr⟩
  · intro pre s a t _ hw ha hs
    exact within_step hw ha hs

theorem occurring_mono {disk : Disk} {pre as : List Action} (h : ∀ a ∈ pre, a ∈ as) :
    occurring disk pre ⊆ occurring disk as := by
  rintro b (hdisk | ⟨a, ha, hb⟩)
  · exact Or.inl hdisk
  · exact Or.inr ⟨a, h a ha, hb⟩

/-! ## Which checks protect -/

theorem protects_of_own {s : Session} {a : Action} (hw : Within sha256 known s)
    (hsha : Set.InjOn sha256 known) (hown : OwnSnapshot sha256 resolve s a) :
    Protects sha256 resolve s a := by
  cases a with
  | checkBeforeEdit agent path =>
    intro hok
    obtain ⟨snapshot, b, hsnap, hdisk, heq⟩ :=
      (checkBeforeEdit_ok_iff sha256 resolve s.snapshots s.disk path).mp hok
    obtain ⟨c, hseen, hc⟩ := hown snapshot hsnap
    have hbc : b = c :=
      hsha (hw.disk _ b hdisk) (hw.seen agent _ c hseen) (heq.trans hc)
    exact ⟨b, hdisk, hbc ▸ hseen⟩
  | _ => trivial

/-- A snapshot that is not the agent's own leaves it open to an edit from outside, one that
brings back what the snapshot is of. -/
theorem own_of_protects {s : Session} {agent path : String} (hw : Within sha256 known s)
    (hall : ∀ contents, Protects sha256 resolve
      { s with disk := Function.update s.disk (resolve path) contents }
      (.checkBeforeEdit agent path)) :
    OwnSnapshot sha256 resolve s (.checkBeforeEdit agent path) := by
  intro snapshot hsnap
  obtain ⟨b, -, hb⟩ := hw.hashed _ snapshot hsnap
  obtain ⟨c, hdisk, hseen⟩ := hall (.ok b) <|
    (checkBeforeEdit_ok_iff sha256 resolve _ _ path).mpr
      ⟨snapshot, b, hsnap, Function.update_self _ _ _, hb.symm⟩
  obtain rfl : b = c := by simpa using hdisk
  exact ⟨b, hseen, hb⟩

/-- In a run whose checks all meet the agent's own snapshot, every check protects. -/
theorem checks_protect {disk : Disk} {as : List Action}
    (hsha : Set.InjOn sha256 (occurring disk as))
    (hown : Each (step sha256 resolve) (start disk) as
      fun _ s a => OwnSnapshot sha256 resolve s a) :
    Each (step sha256 resolve) (start disk) as fun _ s a => Protects sha256 resolve s a := by
  intro pre a post s has hs
  have hsub : occurring disk pre ⊆ occurring disk as :=
    occurring_mono fun b hb => by simp [has, hb]
  exact protects_of_own (within_run hs) (hsha.mono hsub) (hown pre a post s has hs)

/-- A stand-in for the hash that keeps distinct contents apart. -/
def plainSha (b : Bytes) : String := String.ofList (b.map fun x => Char.ofNat x.toNat)

theorem plainSha_injective : Function.Injective plainSha := by
  intro b c h
  have hmap : b.map (fun x => Char.ofNat x.toNat) = c.map fun x => Char.ofNat x.toNat := by
    simpa [plainSha] using congrArg String.toList h
  refine List.map_injective_iff.mpr (fun x y hxy => ?_) hmap
  have hval : ∀ z : UInt8, (Char.ofNat z.toNat).toNat = z.toNat := by
    intro z
    have hz : z.toNat.isValidChar := Or.inl (by have := z.toNat_lt; omega)
    rw [Char.ofNat, dif_pos hz]
    exact UInt32.toNat_ofNatLT
  exact UInt8.toNat_inj.mp (by rw [← hval x, ← hval y, hxy])

def oldNotes : Content := .buffer [118, 49]
def newNotes : Content := .buffer [118, 50]

/-- One agent writes a file it has read, and another reads what it wrote. -/
theorem checks_protect_shared_file :
    Each (step plainSha id) (start fun _ => .ok oldNotes.bytes)
      [.recordRead "a" "/notes" oldNotes "t1", .writeFile "a" "/notes" newNotes,
        .updateAfterEdit "/notes" newNotes none "t2", .recordRead "b" "/notes" newNotes "t3",
        .checkBeforeEdit "a" "/notes"]
      fun _ s a => Protects plainSha id s a := by
  apply checks_protect (plainSha_injective.injOn)
  refine each_cons trivial rfl <| each_cons trivial rfl <| each_cons trivial rfl <|
    each_cons trivial rfl <| each_cons ?_ rfl (each_nil _ _)
  rintro snapshot hsnap
  obtain rfl := Option.some.inj hsnap
  exact ⟨newNotes.bytes, rfl, rfl⟩

/-- The agent `a` has read the old text only, `b` the new one: the check passes for `a`. -/
theorem stale_view_passes :
    ¬ Each (step plainSha id) (start fun _ => .ok oldNotes.bytes)
      [.recordRead "a" "/notes" oldNotes "t1", .outside "/notes" (.ok newNotes.bytes),
        .recordRead "b" "/notes" newNotes "t2", .checkBeforeEdit "a" "/notes"]
      fun _ s a => Protects plainSha id s a := by
  intro h
  obtain ⟨b, hdisk, hseen⟩ := h [.recordRead "a" "/notes" oldNotes "t1",
    .outside "/notes" (.ok newNotes.bytes), .recordRead "b" "/notes" newNotes "t2"]
    (.checkBeforeEdit "a" "/notes") [] _ rfl rfl (by decide)
  obtain rfl : newNotes.bytes = b := Except.ok.inj hdisk
  have hold : oldNotes.bytes = newNotes.bytes := Option.some.inj hseen
  exact absurd hold (by decide)

end EditConcurrencyGuard
end Batiste
