import Batiste.AuditEmitter
import Batiste.FirstWins
import Batiste.JsString

/-! The vault notes of the audit emitter: one note for a deliverable file, under a name made of the
day and a reference to the path. -/
namespace Batiste
namespace AuditNotes

open AuditEmitter (Event)

/-- What the language supplies. -/
structure Runtime where
  toISOString : ℤ → String
  toUpperCase : String → String

/-- What a note says in its front matter and its list. -/
structure AuditNote where
  title : String
  updated : String
  event : String
  actor : String
  file_id : String
  path : String
  mime : String
  size_bytes : ℕ
  detected : String
  deriving DecidableEq, Repr

def AuditNote.body (note : AuditNote) : String :=
  "\n".intercalate
    ["---",
      "title: \"" ++ note.title ++ "\"",
      "axis: audit",
      "updated: " ++ note.updated,
      "status: active",
      "event: \"" ++ note.event ++ "\"",
      "actor: \"" ++ note.actor ++ "\"",
      "file_id: \"" ++ note.file_id ++ "\"",
      "path: \"" ++ note.path ++ "\"",
      "mime: \"" ++ note.mime ++ "\"",
      "tags: [axis/audit, event/file.changed]",
      "---",
      "",
      "# " ++ note.path,
      "",
      "> Auto-emitted by `02_audit_emitter.gs` on detected file change.",
      "",
      "- **Path:** `" ++ note.path ++ "`",
      "- **MIME:** `" ++ note.mime ++ "`",
      "- **Size:** " ++ toString note.size_bytes ++ " bytes",
      "- **Last actor:** `" ++ note.actor ++ "`",
      "- **Detected at:** " ++ note.detected,
      "",
      "Re-verify in the ledger:",
      "",
      "```",
      "grep '" ++ note.file_id ++ "' .audit/document-audit.jsonl",
      "```",
      ""]

/-- A file of the audit folder, with the note that it is if the emitter made it. -/
structure AuditFile where
  name : String
  body : String
  note : Option AuditNote
  deriving DecidableEq, Repr

def separator (c : Char) : Bool := c == '/' || JsString.isSpace c

/-- `.replace(/[\/\s]+/g, "_")`, in a run of separators or outside one -/
def underscored : Bool → List Char → List Char
  | _, [] => []
  | inRun, c :: cs =>
    if separator c then
      if inRun then underscored true cs else '_' :: underscored true cs
    else c :: underscored false cs

/-- `.replace(/\.[a-z0-9]+$/i, "")` -/
def withoutExtension (cs : List Char) : List Char :=
  let extension := cs.rtakeWhile Char.isAlphanum
  let stem := cs.rdropWhile Char.isAlphanum
  if extension ≠ [] ∧ stem.getLast? = some '.' then stem.dropLast else cs

def deliverableExts : List String := ["pdf", "svg", "docx", "pptx", "png", "jpg", "jpeg"]

/-- `deliverableExt.test(path)`, whatever the case of the letters -/
def deliverableExt (path : String) : Bool :=
  deliverableExts.any fun ext => ('.' :: ext.toList).isSuffixOf (path.toList.map Char.toLower)

/-- The files that a note is emitted for. -/
def deliverable (ev : Event) : Bool :=
  deliverableExt ev.path && !"06 Audit/".toList.isPrefixOf ev.path.toList

section Emitter

variable (rt : Runtime)

def refSlug (path : String) : String :=
  rt.toUpperCase (String.ofList (withoutExtension (underscored false path.toList)))

/-- `ev.ts.slice(0, 10)` -/
def day (ev : Event) : List Char := (rt.toISOString ev.ts).toList.take 10

def noteName (ev : Event) : String :=
  String.ofList (day rt ev) ++ "-" ++ refSlug rt ev.path ++ ".md"

def noteOf (ev : Event) : AuditNote where
  title := ev.path
  updated := String.ofList (day rt ev)
  event := ev.event
  actor := ev.actor
  file_id := ev.file_id
  path := ev.path
  mime := ev.mime
  size_bytes := ev.size_bytes
  detected := rt.toISOString ev.ts

def fileOf (ev : Event) : AuditFile :=
  ⟨noteName rt ev, (noteOf rt ev).body, some (noteOf rt ev)⟩

def maybeEmitVaultAuditNote (auditAxis : List AuditFile) (ev : Event) : List AuditFile :=
  if !deliverableExt ev.path then auditAxis
  else if "06 Audit/".toList.isPrefixOf ev.path.toList then auditAxis
  else if auditAxis.any fun file => file.name == noteName rt ev then auditAxis
  else auditAxis ++ [fileOf rt ev]

/-- The notes of one audit pass over its events. -/
def emitNotes (auditAxis : List AuditFile) (events : List Event) : List AuditFile :=
  events.foldl (maybeEmitVaultAuditNote rt) auditAxis

/-- The folder holds a note about the path of the event, under the name of the event. -/
def HasNote (auditAxis : List AuditFile) (ev : Event) : Prop :=
  ∃ file ∈ auditAxis, file.name = noteName rt ev ∧ ∃ note, file.note = some note ∧ note.path = ev.path

/-- Two events of one day whose paths have one reference. -/
def SameReference (e f : Event) : Prop :=
  day rt e = day rt f ∧ refSlug rt e.path = refSlug rt f.path

end Emitter

/-! ## References -/

theorem underscored_append {cs tail : List Char} (h : ∀ c ∈ tail, separator c = false)
    (inRun : Bool) : underscored inRun (cs ++ tail) = underscored inRun cs ++ tail := by
  induction cs generalizing inRun with
  | nil =>
    rw [List.nil_append, underscored, List.nil_append]
    induction tail generalizing inRun with
    | nil => rfl
    | cons c tail ih =>
      rw [underscored, if_neg (by simp [h c List.mem_cons_self]),
        ih (fun d hd => h d (List.mem_cons_of_mem c hd))]
  | cons c cs ih =>
    rw [List.cons_append, underscored, underscored, ih, ih]
    split_ifs <;> rfl

theorem rtakeWhile_extension (stem : List Char) {ext : List Char}
    (h : ∀ c ∈ ext, c.isAlphanum = true) :
    (stem ++ '.' :: ext).rtakeWhile Char.isAlphanum = ext := by
  have hrev : ∀ c ∈ ext.reverse, c.isAlphanum = true := fun c hc => h c (List.mem_reverse.mp hc)
  rw [List.rtakeWhile, List.reverse_append, List.reverse_cons, List.append_assoc,
    List.takeWhile_append_of_pos hrev, List.reverse_append, List.reverse_reverse]
  exact List.nil_append ext

theorem rdropWhile_extension (stem : List Char) {ext : List Char}
    (h : ∀ c ∈ ext, c.isAlphanum = true) :
    (stem ++ '.' :: ext).rdropWhile Char.isAlphanum = stem ++ ['.'] := by
  have hrev : ∀ c ∈ ext.reverse, c.isAlphanum = true := fun c hc => h c (List.mem_reverse.mp hc)
  rw [List.rdropWhile, List.reverse_append, List.reverse_cons, List.append_assoc,
    List.dropWhile_append_of_pos hrev]
  simp [List.dropWhile_cons_of_neg]

theorem withoutExtension_append {stem ext : List Char} (hne : ext ≠ [])
    (h : ∀ c ∈ ext, c.isAlphanum = true) : withoutExtension (stem ++ '.' :: ext) = stem := by
  have hlast : (stem ++ ['.']).getLast? = some '.' := List.getLast?_concat
  simp only [withoutExtension, rtakeWhile_extension stem h, rdropWhile_extension stem h]
  rw [if_pos ⟨hne, hlast⟩, List.dropLast_concat]

/-- A letter or a digit separates nothing. -/
theorem separator_of_alphanum {c : Char} (h : c.isAlphanum = true) : separator c = false := by
  rw [separator, JsString.isSpace_of_alphanum h, Bool.or_false, beq_eq_false_iff_ne]
  rintro rfl
  exact absurd h (by decide)

section References

variable {rt : Runtime}

/-- Files that differ in their extension only have one reference. -/
theorem refSlug_extension {stem ext ext' : List Char} (hne : ext ≠ []) (hne' : ext' ≠ [])
    (h : ∀ c ∈ ext, c.isAlphanum = true) (h' : ∀ c ∈ ext', c.isAlphanum = true) :
    refSlug rt (String.ofList (stem ++ '.' :: ext)) =
      refSlug rt (String.ofList (stem ++ '.' :: ext')) := by
  have hslug : ∀ e : List Char, e ≠ [] → (∀ c ∈ e, c.isAlphanum = true) →
      withoutExtension (underscored false (stem ++ '.' :: e)) = underscored false stem := by
    intro e he hall
    rw [underscored_append, withoutExtension_append he hall]
    intro c hc
    rcases List.mem_cons.mp hc with rfl | hc
    · decide
    · exact separator_of_alphanum (hall c hc)
  rw [refSlug, refSlug, String.toList_ofList, String.toList_ofList, hslug ext hne h,
    hslug ext' hne' h']

/-- A name is that of one day and one reference. -/
theorem noteName_eq_iff (hiso : ∀ ts, 10 ≤ (rt.toISOString ts).toList.length) (e f : Event) :
    noteName rt e = noteName rt f ↔ SameReference rt e f := by
  constructor
  · intro h
    have hlist := congrArg String.toList h
    simp only [noteName, String.toList_append, String.toList_ofList] at hlist
    have hlen : (day rt e).length = (day rt f).length := by
      rw [day, day, List.length_take, List.length_take, Nat.min_eq_left (hiso _),
        Nat.min_eq_left (hiso _)]
    have hslug := List.append_cancel_right hlist
    rw [List.append_assoc, List.append_assoc] at hslug
    obtain ⟨hday, hrest⟩ := List.append_inj hslug hlen
    exact ⟨hday, String.toList_inj.mp (List.append_cancel_left hrest)⟩
  · rintro ⟨hday, hslug⟩
    rw [noteName, noteName, hday, hslug]

/-! ## A pass -/

/-- The path that a file of the folder is a note about. -/
def about (file : AuditFile) : Option String := file.note.map AuditNote.path

theorem emit_eq (auditAxis : List AuditFile) (ev : Event) :
    maybeEmitVaultAuditNote rt auditAxis ev =
      if deliverable ev then FirstWins.accept AuditFile.name auditAxis (fileOf rt ev)
      else auditAxis := by
  have hname : (auditAxis.any fun file => file.name == noteName rt ev) = true ↔
      (fileOf rt ev).name ∈ auditAxis.map AuditFile.name := by
    simp [fileOf]
  rw [maybeEmitVaultAuditNote, deliverable]
  cases deliverableExt ev.path with
  | false => rfl
  | true =>
    cases "06 Audit/".toList.isPrefixOf ev.path.toList with
    | true => rfl
    | false =>
      rw [FirstWins.accept]
      simp only [Bool.not_true, Bool.not_false, Bool.and_self, hname, if_true,
        Bool.false_eq_true, if_false]

theorem emitNotes_eq (auditAxis : List AuditFile) (events : List Event) :
    emitNotes rt auditAxis events =
      FirstWins.acceptAll AuditFile.name auditAxis ((events.filter deliverable).map (fileOf rt)) := by
  induction events generalizing auditAxis with
  | nil => rfl
  | cons ev events ih =>
    have hstep : emitNotes rt auditAxis (ev :: events) =
        emitNotes rt (maybeEmitVaultAuditNote rt auditAxis ev) events := rfl
    rw [hstep, ih, emit_eq]
    by_cases hev : deliverable ev = true
    · rw [if_pos hev, List.filter_cons_of_pos hev, List.map_cons, FirstWins.acceptAll_cons]
    · rw [if_neg hev, List.filter_cons_of_neg hev]

theorem hasNote_iff {auditAxis : List AuditFile} {ev : Event} :
    HasNote rt auditAxis ev ↔ ∃ file ∈ auditAxis, file.name = (fileOf rt ev).name ∧
      about file = about (fileOf rt ev) := by
  simp only [HasNote, about, fileOf, noteOf, Option.map_some, Option.map_eq_some_iff]

/-- Every deliverable event finds a note about its path just when no other path has its reference. -/
theorem all_noted_iff (hiso : ∀ ts, 10 ≤ (rt.toISOString ts).toList.length)
    (auditAxis : List AuditFile) (events : List Event) :
    (∀ e ∈ events, deliverable e = true → HasNote rt (emitNotes rt auditAxis events) e) ↔
      ∀ e ∈ events, deliverable e = true →
        ((∃ file ∈ auditAxis, file.name = noteName rt e) → HasNote rt auditAxis e) ∧
        ((∀ file ∈ auditAxis, file.name ≠ noteName rt e) →
          ∀ f ∈ events, deliverable f = true → SameReference rt f e → f.path = e.path) := by
  have hmap : ∀ P : AuditFile → Prop, (∀ x ∈ (events.filter deliverable).map (fileOf rt), P x) ↔
      ∀ e ∈ events, deliverable e = true → P (fileOf rt e) := by
    intro P
    simp only [List.forall_mem_map, List.mem_filter, and_imp]
  have hleft : (∀ e ∈ events, deliverable e = true → HasNote rt (emitNotes rt auditAxis events) e) ↔
      ∀ x ∈ (events.filter deliverable).map (fileOf rt),
        ∃ file ∈ FirstWins.acceptAll AuditFile.name auditAxis
          ((events.filter deliverable).map (fileOf rt)), file.name = x.name ∧ about file = about x := by
    rw [hmap]
    simp only [hasNote_iff, emitNotes_eq]
  rw [hleft, FirstWins.each_own_iff about, hmap]
  refine forall₃_congr fun e _ _ => and_congr ?_ ?_
  · rw [List.mem_map, hasNote_iff]
    rfl
  · rw [hmap, List.mem_map, not_exists]
    have hnone : (∀ file, ¬(file ∈ auditAxis ∧ file.name = (fileOf rt e).name)) ↔
        ∀ file ∈ auditAxis, file.name ≠ noteName rt e :=
      forall_congr' fun file => not_and
    have hpath : ∀ f : Event, about (fileOf rt f) = about (fileOf rt e) ↔ f.path = e.path :=
      fun f => Option.some_inj
    rw [hnone]
    refine imp_congr_right fun _ => forall₃_congr fun f _ _ => ?_
    rw [hpath, ← noteName_eq_iff hiso]
    rfl

end References

/-! ## Two reports of one day -/

/-- Stand-ins for the language's functions, at the time 0. -/
def asciiRuntime : Runtime where
  toISOString := fun _ => "1970-01-01T00:00:00.000Z"
  toUpperCase := fun text => String.ofList (text.toList.map Char.toUpper)

theorem asciiRuntime_iso (ts : ℤ) : 10 ≤ (asciiRuntime.toISOString ts).toList.length := by
  have hlen : 10 ≤ "1970-01-01T00:00:00.000Z".toList.length := by decide
  exact hlen

def saved (path : List Char) : Event where
  ts := 0
  agency_slug := "agency"
  actor := "gestora"
  path := String.ofList path
  file_id := "id"
  mime := "application/octet-stream"
  size_bytes := 1

def plan : List Char := ['/', 'p', 'l', 'a', 'n']

def inPdf : Event := saved (plan ++ '.' :: ['p', 'd', 'f'])
def inDocx : Event := saved (plan ++ '.' :: ['d', 'o', 'c', 'x'])
def logo : Event := saved ['/', 'l', 'o', 'g', 'o', '.', 'p', 'n', 'g']

theorem plan_logo : refSlug asciiRuntime inPdf.path ≠ refSlug asciiRuntime logo.path ∧
    deliverable inPdf = true ∧ deliverable inDocx = true ∧
    ∀ file ∈ emitNotes asciiRuntime [] [inPdf, inDocx], about file ≠ some inDocx.path := by
  decide +kernel

theorem all_noted_plan_logo :
    HasNote asciiRuntime (emitNotes asciiRuntime [] [inPdf, logo]) inPdf := by
  refine (all_noted_iff asciiRuntime_iso [] [inPdf, logo]).mpr (fun e he _ => ⟨?_, ?_⟩) inPdf
    List.mem_cons_self plan_logo.2.1
  · rintro ⟨file, hfile, -⟩
    cases hfile
  · intro _ f hf _ hsame
    rcases List.mem_pair.mp he with rfl | rfl <;> rcases List.mem_pair.mp hf with rfl | rfl
    · rfl
    · exact absurd hsame.2.symm plan_logo.1
    · exact absurd hsame.2 plan_logo.1
    · rfl

/-- The second of two files that differ in their extension gets no note. -/
theorem second_extension_lost : ¬ ∀ (auditAxis : List AuditFile) (events : List Event),
    ∀ e ∈ events, deliverable e = true →
      HasNote asciiRuntime (emitNotes asciiRuntime auditAxis events) e := by
  intro hall
  obtain ⟨file, hfile, -, note, hnote, hpath⟩ :=
    hall [] [inPdf, inDocx] inDocx (by simp) plan_logo.2.2.1
  exact plan_logo.2.2.2 file hfile (by rw [about, hnote, ← hpath]; rfl)

end AuditNotes
end Batiste
