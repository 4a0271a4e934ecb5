import Batiste.FactIngest

/-! `batiste-fm ingest trello`: the open cards of a board as facts, over a history of snapshots. -/
namespace Batiste
namespace TrelloIngest

open FirmMemory FactIngest

structure TrelloLabel where
  id : String
  name : String

inductive ItemState
  | complete
  | incomplete
deriving DecidableEq, Repr

structure TrelloChecklistItem where
  id : String
  name : String
  state : ItemState
  pos : ℚ

structure TrelloChecklist where
  id : String
  name : String
  checkItems : Option (List TrelloChecklistItem)

structure TrelloCard where
  id : String
  name : String
  desc : Option String
  shortUrl : String
  idList : String
  labels : Option (List TrelloLabel)
  checklists : Option (List TrelloChecklist)
  dateLastActivity : String
  closed : Bool

structure TrelloList where
  id : String
  name : String

structure TrelloBoard where
  id : String
  name : String

structure TrelloBoardSnapshot where
  board : TrelloBoard
  lists : List TrelloList
  cards : List TrelloCard

/-- `lines.join('\n')` -/
def joinLines (lines : List String) : String := "\n".intercalate lines

def renderItem (item : TrelloChecklistItem) : String :=
  "- " ++ (if item.state = .complete then "[x]" else "[ ]") ++ " " ++ item.name

/-- A single checklist as Markdown bullets, in the order of `pos`. -/
def renderChecklist (cl : TrelloChecklist) : String :=
  let items := (cl.checkItems.getD []).insertionSort fun a b => a.pos ≤ b.pos
  joinLines (("### " ++ cl.name) :: items.map renderItem)

def renderChecklists (checklists : Option (List TrelloChecklist)) : String :=
  match checklists.getD [] with
  | [] => ""
  | cls => joinLines ("" :: "## Checklist" :: cls.map renderChecklist)

/-- What a call of `ingest trello` is given, with the clock of the projection and of the puts. -/
structure Ingest where
  snapshot : TrelloBoardSnapshot
  workstream : Option String := none
  now : String
  clock : ℕ → String

variable (runtime : Runtime)

def factId (i : Ingest) (card : TrelloCard) : String :=
  shortHash runtime (i.snapshot.board.id ++ ":" ++ card.id)

/-- `listIndex.get(card.idList)?.name ?? '(unknown-list)'`; of two lists with one id the last. -/
def listName (lists : List TrelloList) (idList : String) : String :=
  ((lists.reverse.find? fun l => l.id == idList).map TrelloList.name).getD "(unknown-list)"

def labelTags (labels : Option (List TrelloLabel)) : List String :=
  (((labels.getD []).map TrelloLabel.name).filter fun n => n != "").map fun n => "palette:" ++ n

def cardBody (card : TrelloCard) : String :=
  let rawBody := trim (card.desc.getD "" ++ renderChecklists card.checklists)
  (scrub runtime (if rawBody = "" then "(empty card: " ++ card.name ++ ")" else rawBody)).text

def cardToFact (i : Ingest) (card : TrelloCard) : FactEntry where
  id := factId runtime i card
  title := card.name
  group := .decision
  body := cardBody runtime card
  sensitivity := .confidential
  tags := ["source:trello", "board:" ++ i.snapshot.board.name,
    "list:" ++ listName i.snapshot.lists card.idList] ++ labelTags card.labels
  rest :=
    { counterparty := none
      workstream := some ((i.workstream.filter fun w => w != "").getD
        (kebabCase runtime i.snapshot.board.name))
      vault_ref := some card.shortUrl
      audit_ref := none }
  created_at := i.now
  updated_at := i.now

/-- One fact per open card. -/
def projectBoardToFacts (i : Ingest) : List FactEntry :=
  (i.snapshot.cards.filter fun card => !card.closed).map (cardToFact runtime i)

structure Tally where
  imported : ℕ := 0
  skipped : ℕ := 0
  lastModified : String := ""
deriving Repr, DecidableEq

variable {Vector : Type}

/-- The firm memory and the checkpoints on disk. -/
structure Memory (Vector : Type) where
  facts : Table FactKind FactRest Vector
  checkpoints : CheckpointMap

variable (engine : Engine Vector) (namespace_ : String)

/-- The activity of the first card of the fact, when it is the latest so far. -/
def laterActivity (i : Ingest) (fact : FactEntry) (lastModified : String) : String :=
  match i.snapshot.cards.find? fun card => factId runtime i card == fact.id with
  | none => lastModified
  | some card =>
    if card.dateLastActivity ≠ "" ∧ lastModified < card.dateLastActivity then card.dateLastActivity
    else lastModified

/-- One round of the loop over the facts. -/
def ingestFact (i : Ingest) (s : Table FactKind FactRest Vector × Tally) (fact : FactEntry) :
    Table FactKind FactRest Vector × Tally :=
  let tally := { s.2 with lastModified := laterActivity runtime i fact s.2.lastModified }
  let facts := offer engine namespace_ s.1 fact (i.clock (tally.imported + tally.skipped))
  if isStored namespace_ s.1 fact then (facts, { tally with skipped := tally.skipped + 1 })
  else (facts, { tally with imported := tally.imported + 1 })

def ingestFacts (i : Ingest) (facts : Table FactKind FactRest Vector) :
    Table FactKind FactRest Vector × Tally :=
  (projectBoardToFacts runtime i).foldl (ingestFact runtime engine namespace_ i) (facts, {})

def ingest (i : Ingest) (memory : Memory Vector) : Memory Vector :=
  let r := ingestFacts runtime engine namespace_ i memory.facts
  { facts := r.1
    checkpoints :=
      if r.2.lastModified = "" then memory.checkpoints
      else setCheckpoint memory.checkpoints "trello" i.snapshot.board.id
        (.text r.2.lastModified) }

def ingestAll (ingests : List Ingest) (memory : Memory Vector) : Memory Vector :=
  ingests.foldl (fun memory i => ingest runtime engine namespace_ i memory) memory

/-- What a fact shows of its card. -/
def face (fact : FactEntry) : String × List String × String := (fact.title, fact.tags, fact.body)

/-- Every open card of the snapshot has a stored fact that shows it. -/
def Converged (i : Ingest) (memory : Memory Vector) : Prop :=
  ∀ card ∈ i.snapshot.cards, card.closed = false →
    ∃ fact, FirmMemory.get namespace_ memory.facts (factId runtime i card) = some fact ∧
      face fact = face (cardToFact runtime i card)

/-- Open cards with one fact id show the same, and so does a fact that is stored under the id
of an open card with the body of that card. -/
def Agrees (i : Ingest) (memory : Memory Vector) : Prop :=
  (∀ card ∈ i.snapshot.cards, card.closed = false → ∀ card' ∈ i.snapshot.cards,
    card'.closed = false → factId runtime i card = factId runtime i card' →
      face (cardToFact runtime i card') = face (cardToFact runtime i card)) ∧
  ∀ card ∈ i.snapshot.cards, card.closed = false → ∀ fact,
    FirmMemory.get namespace_ memory.facts (factId runtime i card) = some fact →
      fact.body = cardBody runtime card → face fact = face (cardToFact runtime i card)

/-- The projection of a snapshot, keyed and without the times. -/
def offers (i : Ingest) : List (String × FactEntry) :=
  (projectBoardToFacts runtime i).map fun fact => (fact.id, undated fact)

theorem mem_offers {i : Ingest} {e : String × FactEntry} :
    e ∈ offers runtime i ↔ ∃ card ∈ i.snapshot.cards, card.closed = false ∧
      e = (factId runtime i card, undated (cardToFact runtime i card)) := by
  simp only [offers, projectBoardToFacts, List.map_map, List.mem_map, List.mem_filter,
    Bool.not_eq_true', and_assoc]
  exact exists_congr fun card => and_congr_right fun _ => and_congr_right fun _ => eq_comm

theorem face_body {v w : FactEntry} (h : face v = face w) : v.body = w.body :=
  congrArg (fun f => f.2.2) h

/-- The loop offers the facts one after another. -/
theorem stored_ingest (i : Ingest) (memory : Memory Vector) :
    stored namespace_ (ingest runtime engine namespace_ i memory).facts =
      KeyedOffer.offerAll Entry.body (stored namespace_ memory.facts) (offers runtime i) := by
  have hstep : ∀ (s : Table FactKind FactRest Vector × Tally) (fact : FactEntry), ∃ now,
      (ingestFact runtime engine namespace_ i s fact).1 =
        offer engine namespace_ s.1 fact now := by
    intro s fact
    unfold ingestFact
    dsimp only
    split
    · exact ⟨_, rfl⟩
    · exact ⟨_, rfl⟩
  exact stored_foldl hstep (projectBoardToFacts runtime i) (memory.facts, {})

/-- A stored fact that shows something, with or without its times. -/
theorem stored_face {table : Table FactKind FactRest Vector} {id : String}
    {f : String × List String × String} :
    (∃ fact, FirmMemory.get namespace_ table id = some fact ∧ face fact = f) ↔
      ∃ w, stored namespace_ table id = some w ∧ face w = f := by
  unfold stored
  cases FirmMemory.get namespace_ table id <;> simp [face, undated]

theorem converged_iff (i : Ingest) (memory : Memory Vector) :
    Converged runtime namespace_ i (ingest runtime engine namespace_ i memory) ↔
      Agrees runtime namespace_ i memory := by
  have hface : ∀ v w : FactEntry, face v = face w → v.body = w.body := fun _ _ h => face_body h
  have hoffers := KeyedOffer.offerAll_iff hface (stored namespace_ memory.facts)
    (offers runtime i)
  have hcard : ∀ card ∈ i.snapshot.cards, card.closed = false →
      (factId runtime i card, undated (cardToFact runtime i card)) ∈ offers runtime i :=
    fun card hcard hopen => (mem_offers runtime).mpr ⟨card, hcard, hopen, rfl⟩
  have hshown : Converged runtime namespace_ i (ingest runtime engine namespace_ i memory) ↔
      ∀ e ∈ offers runtime i, ∃ w, KeyedOffer.offerAll Entry.body
        (stored namespace_ memory.facts) (offers runtime i) e.1 = some w ∧ face w = face e.2 := by
    rw [← stored_ingest runtime engine]
    constructor
    · intro h e he
      obtain ⟨card, hmem, hopen, rfl⟩ := (mem_offers runtime).mp he
      exact (stored_face namespace_).mp (h card hmem hopen)
    · exact fun h card hmem hopen =>
        (stored_face namespace_).mpr (h _ (hcard card hmem hopen))
  rw [hshown]
  refine hoffers.trans (and_congr ?_ ?_)
  · constructor
    · exact fun h card hmem hopen card' hmem' hopen' hid =>
        h _ (hcard card hmem hopen) _ (hcard card' hmem' hopen') hid
    · intro h e he e' he' hid
      obtain ⟨card, hmem, hopen, rfl⟩ := (mem_offers runtime).mp he
      obtain ⟨card', hmem', hopen', rfl⟩ := (mem_offers runtime).mp he'
      exact h card hmem hopen card' hmem' hopen' hid
  · constructor
    · intro h card hmem hopen fact hfact hbody
      refine h _ (hcard card hmem hopen) (undated fact) ?_ hbody
      rw [stored, hfact]
      rfl
    · intro h e he old hold hbody
      obtain ⟨card, hmem, hopen, rfl⟩ := (mem_offers runtime).mp he
      obtain ⟨fact, hfact, rfl⟩ := Option.map_eq_some_iff.mp hold
      exact h card hmem hopen fact hfact hbody

/-- Over a history of snapshots every open card is shown after each ingest, exactly when before
each ingest the stored facts that have the body of an open card show that card already. -/
theorem converges_iff (ingests : List Ingest) (memory : Memory Vector) :
    (∀ before i later, ingests = before ++ i :: later →
      Converged runtime namespace_ i
        (ingestAll runtime engine namespace_ (before ++ [i]) memory)) ↔
    ∀ before i later, ingests = before ++ i :: later →
      Agrees runtime namespace_ i (ingestAll runtime engine namespace_ before memory) := by
  refine forall₄_congr fun before i later _ => ?_
  rw [ingestAll, List.foldl_append]
  exact converged_iff runtime engine namespace_ i _

/-! ## A card that is renamed -/

/-- The runtime on texts that hold no secret; the hash is that of `b:c`. -/
def plainRuntime : Runtime where
  sha256 := fun _ => "333edf7c3ca371622cc3029bd182261a8aa727ffe3dca1adac71efc41bf1545e"
  matchCount := fun _ _ => 0
  replaceAll := fun _ _ text => text
  nfd := id
  toLowerCase := id

/-- A board with one card of the given name. -/
def namedCard (name : String) : Ingest where
  snapshot :=
    { board := ⟨"b", "board"⟩
      lists := []
      cards := [⟨"c", name, some "text", "", "", none, none, "", false⟩] }
  now := "now"
  clock := fun _ => "now"

/-- The new name of the card does not reach its fact. -/
theorem renamed_card_stale :
    ¬ ∀ before i later, [namedCard "old", namedCard "new"] = before ++ i :: later →
      Converged plainRuntime "firm" i
        (ingestAll plainRuntime unitEngine "firm" (before ++ [i]) ⟨⟨[], []⟩, []⟩) := by
  intro h
  obtain ⟨fact, hfact, hface⟩ := h [namedCard "old"] (namedCard "new") [] rfl
    ⟨"c", "new", some "text", "", "", none, none, "", false⟩ (List.mem_singleton.mpr rfl) rfl
  have htitle : (FirmMemory.get "firm" (ingestAll plainRuntime unitEngine "firm"
      [namedCard "old", namedCard "new"] ⟨⟨[], []⟩, []⟩).facts "333edf7c3ca37162").map
      Entry.title = some "old" := by decide +kernel
  have hid : factId plainRuntime (namedCard "new")
      ⟨"c", "new", some "text", "", "", none, none, "", false⟩ = "333edf7c3ca37162" := by
    decide +kernel
  rw [hid, List.singleton_append] at hfact
  rw [hfact] at htitle
  have hnew : fact.title = "new" := congrArg Prod.fst hface
  simp [hnew] at htitle

end TrelloIngest
end Batiste
