import Batiste.Forest
import Batiste.RoseTree
import Batiste.TaskManager
import Batiste.Transition

/-! The tree of tasks that `TaskManager.getTaskTree` builds from the parent ids of the rows. -/
namespace Batiste

namespace Board

def delete (id : String) (b : Board) : Board where
  rows := b.rows.filter fun row => row.id != id
  nodup := b.nodup.sublist (List.filter_sublist.map _)
  parents := fun row hrow => b.parents row (List.mem_filter.mp hrow).1

def getChildren (parentId : String) (b : Board) : List Task :=
  b.rows.filter fun row => row.parentId == some parentId

theorem mem_delete {b : Board} {id : String} {row : Task} :
    row ∈ (b.delete id).rows ↔ row ∈ b.rows ∧ row.id ≠ id := by
  simp [delete]

theorem mem_getChildren {b : Board} {parentId : String} {row : Task} :
    row ∈ b.getChildren parentId ↔ row ∈ b.rows ∧ row.parentId = some parentId := by
  simp [getChildren]

/-- Every parent is stored. -/
def Closed (b : Board) : Prop :=
  ∀ row ∈ b.rows, ∀ parentId, row.parentId = some parentId → parentId ∈ b.rows.map Task.id

end Board

namespace TaskManager

abbrev TaskNode := Rose Task

/-- `childrenMap`: the tasks under each parent id, in the order of the rows. -/
def childrenMap (tasks : List Task) : Dict (List Task) :=
  tasks.foldl (fun children task =>
    match readParent task.parentId with
    | none => children
    | some parentId =>
      children.set parentId ((children.get? parentId).getD [] ++ [task])) []

/-- `childrenMap.get(id) ?? []`. -/
def childrenIn (children : Dict (List Task)) (task : Task) : List Task :=
  (children.get? task.id).getD []

def buildNode (children : Dict (List Task)) : ℕ → Task → Option TaskNode :=
  Rose.unfold (childrenIn children)

/-- The recursion of `buildNode` is followed to a depth. -/
def getTaskTree (depth : ℕ) (b : Board) : Option (List TaskNode) :=
  (b.rows.filter fun task => (readParent task.parentId).isNone).mapM
    (buildNode (childrenMap b.rows) depth)

theorem childrenIn_childrenMap (tasks : List Task) (task : Task) :
    childrenIn (childrenMap tasks) task =
      tasks.filter fun child => readParent child.parentId == some task.id := by
  induction tasks using List.reverseRecOn with
  | nil => rfl
  | append_singleton tasks last ih =>
    unfold childrenIn childrenMap at ih ⊢
    rw [List.foldl_append, List.filter_append, ← ih]
    simp only [List.foldl_cons, List.foldl_nil]
    cases hparent : readParent last.parentId with
    | none => simp [hparent]
    | some parentId =>
      rw [Dict.get?_set]
      by_cases hid : parentId = task.id
      · subst hid
        simp [hparent]
      · simp [hparent, hid, Ne.symm hid]

/-- The tasks whose parent is among some nodes, one node after another. -/
theorem filter_parent_perm (tasks : List Task) {nodes : List Task}
    (hnodup : (nodes.map Task.id).Nodup) :
    (nodes.flatMap fun node => tasks.filter fun child => child.parentId == some node.id).Perm
      (tasks.filter fun child => child.parentId.any fun p => decide (p ∈ nodes.map Task.id)) := by
  induction nodes with
  | nil => simp
  | cons node nodes ih =>
    rw [List.map_cons, List.nodup_cons] at hnodup
    rw [List.flatMap_cons]
    refine ((ih hnodup.2).append_left _).trans ?_
    refine List.Perm.trans ?_ (List.filter_append_perm
      (fun child => child.parentId == some node.id) _)
    rw [List.filter_filter, List.filter_filter]
    refine List.Perm.of_eq (congrArg₂ _ ?_ ?_)
    · refine List.filter_congr fun child _ => ?_
      cases child.parentId <;> simp
      grind
    · refine List.filter_congr fun child _ => ?_
      cases child.parentId <;> simp
      grind

variable {b : Board}

/-- To every sufficient depth the tree is the same, and it has every stored task once. -/
def TreeComplete (b : Board) : Prop :=
  ∃ forest : List TaskNode,
    (∀ depth, b.rows.length ≤ depth → getTaskTree depth b = some forest) ∧
      (forest.flatMap Rose.labels).Perm b.rows

theorem childrenIn_rows (task : Task) :
    childrenIn (childrenMap b.rows) task = b.getChildren task.id := by
  rw [childrenIn_childrenMap]
  exact List.filter_congr fun child hchild => by rw [b.parents child hchild]

theorem roots_rows :
    (b.rows.filter fun task => (readParent task.parentId).isNone) =
      b.rows.filter fun task => task.parentId.isNone :=
  List.filter_congr fun task htask => by rw [b.parents task htask]

/-- Where every parent is stored, a task is a root or the child of one stored task. -/
theorem rows_once (hclosed : b.Closed) :
    ((b.rows.filter fun task => (readParent task.parentId).isNone) ++
      b.rows.flatMap (childrenIn (childrenMap b.rows))).Perm b.rows := by
  have hchildren : b.rows.flatMap (childrenIn (childrenMap b.rows)) =
      b.rows.flatMap fun node => b.rows.filter fun child => child.parentId == some node.id :=
    congrArg (List.flatMap · b.rows) (funext childrenIn_rows)
  rw [hchildren, roots_rows]
  refine ((filter_parent_perm b.rows b.nodup).append_left _).trans ?_
  refine List.Perm.trans (List.Perm.of_eq (congrArg _ ?_))
    (List.filter_append_perm (fun task => task.parentId.isNone) b.rows)
  refine List.filter_congr fun task htask => ?_
  cases hparent : task.parentId with
  | none => rfl
  | some parentId => simpa using hclosed task htask parentId hparent

/-- Where the parents are stored and make no cycle, the tree loses nothing. -/
theorem treeComplete {parent : String → Option String} (hacyclic : Forest.Acyclic parent)
    (hagree : ∀ row ∈ b.rows, parent row.id = row.parentId) (hclosed : b.Closed) :
    TreeComplete b := by
  let rank : Task → ℕ := fun task => Forest.below parent (b.rows.map Task.id) task.id
  have hrank : ∀ a ∈ b.rows, ∀ c ∈ childrenIn (childrenMap b.rows) a, rank c < rank a := by
    intro a _ c hc
    rw [childrenIn_rows] at hc
    obtain ⟨hrow, hparent⟩ := Board.mem_getChildren.mp hc
    exact Forest.below_lt hacyclic (List.mem_map_of_mem hrow) ((hagree c hrow).trans hparent)
  have hbound : ∀ a ∈ b.rows, rank a < b.rows.length := by
    intro a ha
    simpa using Forest.below_lt_length hacyclic (List.mem_map_of_mem (f := Task.id) ha)
  obtain ⟨forest, hforest, hperm⟩ :=
    Rose.forest_perm (rows_once hclosed) hrank hbound le_rfl
  exact ⟨forest, fun depth hdepth => Rose.forest_mono hdepth hforest, hperm⟩

/-- A tree that loses nothing shows that every parent is stored. -/
theorem closed_of_treeComplete (h : TreeComplete b) : b.Closed := by
  obtain ⟨forest, hforest, hperm⟩ := h
  have hlabels := Rose.labels_forest (hforest _ le_rfl)
  intro row hrow parentId hparent
  have hmem := hlabels.subset (hperm.symm.subset hrow)
  rcases List.mem_append.mp hmem with hroot | hchild
  · rw [roots_rows, List.mem_filter, hparent] at hroot
    simp at hroot
  · obtain ⟨above, habove, hrow⟩ := List.mem_flatMap.mp hchild
    rw [childrenIn_rows] at hrow
    have hid := (Board.mem_getChildren.mp hrow).2
    rw [hparent] at hid
    exact Option.some.inj hid ▸ List.mem_map_of_mem (hperm.subset habove)

end TaskManager

/-! Runs of the operations of `TaskManager.ts` next to each other.  An operation is cut where
it awaits the store: what follows is done against the store as it is then. -/

namespace Board

/-- No stored task has this parent. -/
def Childless (b : Board) (id : String) : Prop := ∀ row ∈ b.rows, row.parentId ≠ some id

theorem mem_ids_save {b : Board} {now : ℤ} {task : Task} {id : String} :
    id ∈ (b.save now task).rows.map Task.id ↔ id = task.id ∨ id ∈ b.rows.map Task.id := by
  have hsome : ∀ c : Board, id ∈ c.rows.map Task.id ↔ (c.get id).isSome := by
    intro c
    constructor
    · intro hid
      obtain ⟨row, hrow, rfl⟩ := List.mem_map.mp hid
      simp [get_of_mem hrow]
    · intro hid
      obtain ⟨row, hrow⟩ := Option.isSome_iff_exists.mp hid
      exact get_id hrow ▸ List.mem_map_of_mem (get_mem hrow)
  obtain ⟨createdAt, hget⟩ := b.get_save_any now task
  rw [hsome, hsome, hget]
  by_cases hid : id = task.id <;> simp [hid]

theorem mem_save {b : Board} {now : ℤ} {task row : Task} (h : row ∈ (b.save now task).rows) :
    row ∈ b.rows ∨ ∃ createdAt, row = stored now createdAt task := by
  obtain ⟨createdAt, hget⟩ := b.get_save_any now task
  have hrow := get_of_mem h
  rw [hget] at hrow
  by_cases hid : row.id = task.id
  · rw [if_pos hid] at hrow
    exact Or.inr ⟨createdAt, (Option.some.inj hrow).symm⟩
  · rw [if_neg hid] at hrow
    exact Or.inl (get_mem hrow)

/-- A save of a task whose parent is stored leaves every parent stored. -/
theorem closed_save {b : Board} (hb : b.Closed) {now : ℤ} {task : Task}
    (htask : ∀ p, readParent task.parentId = some p → p ∈ b.rows.map Task.id) :
    (b.save now task).Closed := by
  intro row hrow p hp
  refine mem_ids_save.mpr (Or.inr ?_)
  rcases mem_save hrow with hold | ⟨createdAt, rfl⟩
  · exact hb row hold p hp
  · exact htask p hp

theorem closed_delete {b : Board} (hb : b.Closed) {id : String} (hid : b.Childless id) :
    (b.delete id).Closed := by
  intro row hrow p hp
  have hold := (mem_delete.mp hrow).1
  obtain ⟨above, habove, rfl⟩ := List.mem_map.mp (hb row hold p hp)
  refine List.mem_map_of_mem (mem_delete.mpr ⟨habove, fun heq => ?_⟩)
  exact hid row hold (heq ▸ hp)

end Board

namespace TaskManager
namespace Interleaved

/-- A recursive call of `deleteTask` still to make, or the `store.delete` it ends with. -/
inductive Todo
  | deleteTask (id : String)
  | delete (id : String)

/-- What an operation does when its `await` returns. -/
inductive Pending
  | spawn (parentId label : String)
  | call (call : Call) (copy : Task)
  | cascade (todo : List Todo)

/-- The store, the ids `crypto.randomUUID` has returned and the operations under way. -/
structure TreeState where
  board : Board
  issued : List String
  pending : ℕ → Option Pending

inductive Action
  | createRootGoal (id label : String) (now : ℤ)
  | spawnSubtask (k : ℕ) (parentId label : String)
  | call (k : ℕ) (taskId : String) (call : Call)
  | deleteTask (k : ℕ) (taskId : String) (cascade : Bool)
  | resume (k : ℕ) (id : String) (now : Clocks)

def newTask (id : String) (parentId : Option String) (label : String) : Task :=
  { id, parentId, label, status := .pending
    context := { toolOutputs := some [], metadata := some [] } }

/-- The save of a task under an id that was never returned before. -/
def create (now : ℤ) (task : Task) (s : TreeState) : Option TreeState :=
  if task.id ≠ "" ∧ task.id ∉ s.issued then
    some { s with board := s.board.save now task, issued := task.id :: s.issued }
  else none

/-- The recursion of a cascading delete on one task. -/
def cascade (taskId : String) (b : Board) : List Todo :=
  (b.getChildren taskId).map (fun child => .deleteTask child.id) ++ [.delete taskId]

def suspend (k : ℕ) (p : Option Pending) (s : TreeState) : TreeState :=
  { s with pending := Function.update s.pending k p }

def resume (s : TreeState) (k : ℕ) (id : String) (now : Clocks) : Pending → Option TreeState
  | .spawn parentId label =>
    (create now.database (newTask id (some parentId) label) s).map (suspend k none)
  | .call call copy =>
    some (suspend k none { s with board := s.board.save now.database (call.apply now copy) })
  | .cascade [] => some (suspend k none s)
  | .cascade (.deleteTask taskId :: todo) =>
    some (suspend k (some (.cascade (cascade taskId s.board ++ todo))) s)
  | .cascade (.delete taskId :: todo) =>
    some (suspend k (some (.cascade todo)) { s with board := s.board.delete taskId })

def step (s : TreeState) : Action → Option TreeState
  | .createRootGoal id label now => create now (newTask id none label) s
  | .spawnSubtask k parentId label =>
    if (s.pending k).isNone then
      match s.board.get parentId with
      | none => some s
      | some _ => some (suspend k (some (.spawn parentId label)) s)
    else none
  | .call k taskId call =>
    if (s.pending k).isNone then
      match s.board.get taskId with
      | none => some s
      | some task => some (suspend k (some (.call call task)) s)
    else none
  | .deleteTask k taskId recursive =>
    if (s.pending k).isNone then
      if recursive then some (suspend k (some (.cascade (cascade taskId s.board))) s)
      else some { s with board := s.board.delete taskId }
    else none
  | .resume k id now => (s.pending k).bind (resume s k id now)

def start : TreeState := ⟨Board.empty, [], fun _ => none⟩

/-- The save writes no task whose parent is gone, the delete takes no task with children. -/
def KeepsNext (b : Board) : Option Pending → Prop
  | some (.spawn parentId _) => parentId ∈ b.rows.map Task.id
  | some (.call _ copy) => ∀ p, copy.parentId = some p → p ∈ b.rows.map Task.id
  | some (.cascade (.delete taskId :: _)) => b.Childless taskId
  | _ => True

def Keeps (s : TreeState) : Action → Prop
  | .deleteTask _ taskId false => s.board.Childless taskId
  | .resume k _ _ => KeepsNext s.board (s.pending k)
  | _ => True

/-- The parents of the tasks, of those that are gone too. -/
structure Lineage (parent : String → Option String) (s : TreeState) : Prop where
  acyclic : Forest.Acyclic parent
  named : "" ∉ s.issued
  parents : ∀ a p, parent a = some p → a ∈ s.issued ∧ p ∈ s.issued
  rows : ∀ row ∈ s.board.rows, row.id ∈ s.issued ∧ parent row.id = row.parentId
  copies : ∀ k call copy, s.pending k = some (.call call copy) →
    copy.id ∈ s.issued ∧ parent copy.id = copy.parentId
  spawns : ∀ k p label, s.pending k = some (.spawn p label) → p ∈ s.issued

variable {parent : String → Option String} {s t : TreeState}

theorem lineage_start : Lineage (fun _ => none) start :=
  ⟨Forest.acyclic_none, by simp [start], by simp, by simp [start, Board.empty], by simp [start],
    by simp [start]⟩

theorem Lineage.suspend (h : Lineage parent s) (k : ℕ) {p : Option Pending}
    (hcall : ∀ call copy, p = some (.call call copy) →
      copy.id ∈ s.issued ∧ parent copy.id = copy.parentId)
    (hspawn : ∀ above label, p = some (.spawn above label) → above ∈ s.issued) :
    Lineage parent (suspend k p s) := by
  refine { h with copies := fun j call copy hj => ?_, spawns := fun j above label hj => ?_ }
  · by_cases hjk : j = k
    · subst hjk
      exact hcall call copy (by simpa [Interleaved.suspend] using hj)
    · exact h.copies j call copy (by simpa [Interleaved.suspend, hjk] using hj)
  · by_cases hjk : j = k
    · subst hjk
      exact hspawn above label (by simpa [Interleaved.suspend] using hj)
    · exact h.spawns j above label (by simpa [Interleaved.suspend, hjk] using hj)

theorem Lineage.readParent (h : Lineage parent s) {a : String} :
    Batiste.readParent (parent a) = parent a := by
  cases hp : parent a with
  | none => rfl
  | some p =>
    have hne : p ≠ "" := fun heq => h.named (heq ▸ (h.parents a p hp).2)
    simp [Batiste.readParent, hne]

/-- A save of a known task keeps the parents. -/
theorem Lineage.save (h : Lineage parent s) {now : ℤ} {task : Task}
    (hid : task.id ∈ s.issued) (hparent : parent task.id = task.parentId) :
    Lineage parent { s with board := s.board.save now task } := by
  refine { h with rows := fun row hrow => ?_ }
  rcases Board.mem_save hrow with hold | ⟨createdAt, rfl⟩
  · exact h.rows row hold
  · refine ⟨hid, ?_⟩
    change parent task.id = Batiste.readParent task.parentId
    rw [← hparent, h.readParent]

theorem Lineage.delete (h : Lineage parent s) (id : String) :
    Lineage parent { s with board := s.board.delete id } :=
  { h with rows := fun row hrow => h.rows row (Board.mem_delete.mp hrow).1 }

/-- A new task is a leaf. -/
theorem Lineage.create (h : Lineage parent s) {now : ℤ} {task : Task}
    (habove : ∀ p, task.parentId = some p → p ∈ s.issued) (ht : create now task s = some t) :
    Lineage (Function.update parent task.id task.parentId) t := by
  unfold Interleaved.create at ht
  split_ifs at ht with hnew
  obtain ⟨hname, hnew⟩ := hnew
  cases ht
  have hold : ∀ id ∈ s.issued, Function.update parent task.id task.parentId id = parent id := by
    intro id hid
    have hne : id ≠ task.id := fun heq => hnew (heq ▸ hid)
    exact Function.update_of_ne hne _ _
  have hother : Lineage (Function.update parent task.id task.parentId)
      { s with issued := task.id :: s.issued } := by
    constructor
    case acyclic =>
      refine Forest.acyclic_update h.acyclic (fun a ha => hnew (h.parents a _ ha).2) ?_
      exact fun heq => hnew (habove _ heq)
    case named => simpa [hname.symm] using h.named
    case parents =>
      intro a p hp
      by_cases ha : a = task.id
      · subst ha
        rw [Function.update_self] at hp
        exact ⟨List.mem_cons_self, List.mem_cons_of_mem _ (habove p hp)⟩
      · rw [Function.update_of_ne ha] at hp
        exact ⟨List.mem_cons_of_mem _ (h.parents a p hp).1,
          List.mem_cons_of_mem _ (h.parents a p hp).2⟩
    case rows =>
      intro row hrow
      obtain ⟨hid, hp⟩ := h.rows row hrow
      exact ⟨List.mem_cons_of_mem _ hid, (hold row.id hid).trans hp⟩
    case copies =>
      intro k call copy hk
      obtain ⟨hid, hp⟩ := h.copies k call copy hk
      exact ⟨List.mem_cons_of_mem _ hid, (hold copy.id hid).trans hp⟩
    case spawns => exact fun k p label hk => List.mem_cons_of_mem _ (h.spawns k p label hk)
  exact hother.save List.mem_cons_self (Function.update_self ..)

theorem lineage_step {a : Action} (h : Lineage parent s) (hs : step s a = some t) :
    ∃ parent', Lineage parent' t := by
  cases a with
  | createRootGoal id label now => exact ⟨_, h.create (by simp [newTask]) hs⟩
  | spawnSubtask k parentId label =>
    simp only [step] at hs
    split_ifs at hs
    split at hs
    · cases hs
      exact ⟨parent, h⟩
    · next task htask =>
      cases hs
      refine ⟨parent, h.suspend k (by simp) ?_⟩
      intro above label' heq
      cases heq
      exact Board.get_id htask ▸ (h.rows task (Board.get_mem htask)).1
  | call k taskId call =>
    simp only [step] at hs
    split_ifs at hs
    split at hs
    · cases hs
      exact ⟨parent, h⟩
    · next task htask =>
      cases hs
      refine ⟨parent, h.suspend k ?_ (by simp)⟩
      intro call' copy heq
      cases heq
      exact h.rows task (Board.get_mem htask)
  | deleteTask k taskId recursive =>
    simp only [step] at hs
    split_ifs at hs
    · cases hs
      exact ⟨parent, h.suspend k (by simp) (by simp)⟩
    · cases hs
      exact ⟨parent, h.delete taskId⟩
  | resume k id now =>
    obtain ⟨p, hp, hs⟩ := Option.bind_eq_some_iff.mp hs
    cases p with
    | spawn parentId label =>
      obtain ⟨u, hu, rfl⟩ := Option.map_eq_some_iff.mp hs
      have habove := h.spawns k parentId label hp
      exact ⟨_, (h.create (by simpa [newTask] using habove) hu).suspend k (by simp) (by simp)⟩
    | call call copy =>
      cases hs
      obtain ⟨hid, hparent⟩ := h.copies k call copy hp
      obtain ⟨hid', hparent', -⟩ := apply_fixed now copy call
      exact ⟨parent, (h.save (hid' ▸ hid) (by rw [hid', hparent', hparent])).suspend k
        (by simp) (by simp)⟩
    | cascade todo =>
      match todo with
      | [] =>
        cases hs
        exact ⟨parent, h.suspend k (by simp) (by simp)⟩
      | .deleteTask taskId :: todo =>
        cases hs
        exact ⟨parent, h.suspend k (by simp) (by simp)⟩
      | .delete taskId :: todo =>
        cases hs
        exact ⟨parent, (h.delete taskId).suspend k (by simp) (by simp)⟩

theorem closed_step {a : Action} (hclosed : s.board.Closed) (hkeeps : Keeps s a)
    (hs : step s a = some t) : t.board.Closed := by
  have hcreate : ∀ {now task u}, create now task s = some u →
      (∀ p, task.parentId = some p → p ∈ s.board.rows.map Task.id) → u.board.Closed := by
    intro now task u hu htask
    unfold create at hu
    split_ifs at hu
    cases hu
    refine Board.closed_save hclosed fun p hp => htask p ?_
    exact (Option.filter_eq_some_iff.mp hp).1
  cases a with
  | createRootGoal id label now => exact hcreate hs (by simp [newTask])
  | spawnSubtask k parentId label =>
    simp only [step] at hs
    split_ifs at hs
    split at hs <;> cases hs <;> exact hclosed
  | call k taskId call =>
    simp only [step] at hs
    split_ifs at hs
    split at hs <;> cases hs <;> exact hclosed
  | deleteTask k taskId recursive =>
    simp only [step] at hs
    split_ifs at hs with hfree hrecursive
    · cases hs
      exact hclosed
    · cases hs
      simp only [Keeps, hrecursive] at hkeeps
      exact Board.closed_delete hclosed hkeeps
  | resume k id now =>
    obtain ⟨p, hp, hs⟩ := Option.bind_eq_some_iff.mp hs
    simp only [Keeps, hp] at hkeeps
    cases p with
    | spawn parentId label =>
      obtain ⟨u, hu, rfl⟩ := Option.map_eq_some_iff.mp hs
      change u.board.Closed
      refine hcreate hu fun p hp => ?_
      obtain rfl : parentId = p := Option.some.inj hp
      exact hkeeps
    | call call copy =>
      cases hs
      obtain ⟨-, hparent, -⟩ := apply_fixed now copy call
      refine Board.closed_save hclosed fun p hp => hkeeps p ?_
      rw [hparent] at hp
      exact (Option.filter_eq_some_iff.mp hp).1
    | cascade todo =>
      match todo with
      | [] =>
        cases hs
        exact hclosed
      | .deleteTask taskId :: todo =>
        cases hs
        exact hclosed
      | .delete taskId :: todo =>
        cases hs
        exact Board.closed_delete hclosed hkeeps

/-- In every state the operations reach, the tree has every stored task once just when every
parent is stored; and it does when every step on the way keeps the parents. -/
theorem tree_complete (as : List Action) (s : TreeState)
    (hs : Transition.run step start as = some s) :
    (TreeComplete s.board ↔ s.board.Closed) ∧
      ((Transition.Each step start as fun _ s a => Keeps s a) → TreeComplete s.board) := by
  have hlineage : ∃ parent, Lineage parent s :=
    Transition.run_invariant (I := fun s => ∃ parent, Lineage parent s)
      (fun s a t ⟨_, h⟩ ht => lineage_step h ht) ⟨_, lineage_start⟩ hs
  obtain ⟨parent, hparent⟩ := hlineage
  have hcomplete : s.board.Closed → TreeComplete s.board :=
    treeComplete hparent.acyclic fun row hrow => (hparent.rows row hrow).2
  refine ⟨⟨closed_of_treeComplete, hcomplete⟩, fun hkeeps => hcomplete ?_⟩
  have hrun := Transition.run_history
    (I := fun _ s => (∃ parent, Lineage parent s) ∧ s.board.Closed)
    ⟨⟨_, lineage_start⟩, by simp [start, Board.empty, Board.Closed]⟩
    (fun _ s a t _ ⟨⟨_, h⟩, hclosed⟩ hok ht =>
      ⟨lineage_step h ht, closed_step hclosed hok ht⟩) hkeeps hs
  exact hrun.2

section Alone

/-- The tasks that a recursion still deletes, after those of `seen`, come before their parents. -/
def Covered (b : Board) : List String → List Todo → Prop
  | _, [] => True
  | seen, .deleteTask taskId :: todo => Covered b (taskId :: seen) todo
  | seen, .delete taskId :: todo =>
    (∀ row ∈ b.rows, row.parentId = some taskId → row.id ∈ seen) ∧ Covered b (taskId :: seen) todo

theorem covered_mono {b : Board} {seen seen' : List String} {todo : List Todo}
    (h : Covered b seen todo) (hseen : seen ⊆ seen') : Covered b seen' todo := by
  induction todo generalizing seen seen' with
  | nil => trivial
  | cons item todo ih =>
    cases item with
    | deleteTask taskId => exact ih h (List.cons_subset_cons taskId hseen)
    | delete taskId =>
      exact ⟨fun row hrow hp => hseen (h.1 row hrow hp), ih h.2 (List.cons_subset_cons taskId hseen)⟩

/-- A task that is gone needs no place among the seen ones. -/
theorem covered_delete {b : Board} {id : String} {seen seen' : List String} {todo : List Todo}
    (h : Covered b seen todo) (hseen : seen ⊆ id :: seen') : Covered (b.delete id) seen' todo := by
  have hgrow : ∀ {seen seen' : List String} (taskId : String), seen ⊆ id :: seen' →
      taskId :: seen ⊆ id :: taskId :: seen' := by
    intro seen seen' taskId hseen a ha
    rcases List.mem_cons.mp ha with rfl | ha
    · simp
    · exact (List.mem_cons.mp (hseen ha)).elim (fun h => by simp [h]) fun h => by simp [h]
  induction todo generalizing seen seen' with
  | nil => trivial
  | cons item todo ih =>
    cases item with
    | deleteTask taskId => exact ih h (hgrow taskId hseen)
    | delete taskId =>
      refine ⟨fun row hrow hp => ?_, ih h.2 (hgrow taskId hseen)⟩
      obtain ⟨hold, hne⟩ := Board.mem_delete.mp hrow
      exact (List.mem_cons.mp (hseen (h.1 row hold hp))).resolve_left hne

theorem covered_calls {b : Board} {ids seen : List String} {todo : List Todo}
    (h : Covered b (ids ++ seen) todo) : Covered b seen (ids.map .deleteTask ++ todo) := by
  induction ids generalizing seen with
  | nil => exact h
  | cons id ids ih => exact ih (covered_mono h (by simp))

/-- The recursion on a task deletes its children first. -/
theorem covered_cascade {b : Board} {taskId : String} {seen : List String} {todo : List Todo}
    (h : Covered b (taskId :: seen) todo) : Covered b seen (cascade taskId b ++ todo) := by
  have hcalls : cascade taskId b ++ todo =
      ((b.getChildren taskId).map Task.id).map .deleteTask ++ .delete taskId :: todo := by
    simp [cascade, Function.comp_def]
  rw [hcalls]
  refine covered_calls ⟨fun row hrow hp => List.mem_append_left _ ?_, covered_mono h (by simp)⟩
  exact List.mem_map_of_mem (Board.mem_getChildren.mpr ⟨hrow, hp⟩)

/-- The rest of an operation that nothing ran next to. -/
def Ready (b : Board) : Option Pending → Prop
  | none => True
  | some (.spawn parentId _) => parentId ∈ b.rows.map Task.id
  | some (.call _ copy) => ∀ p, copy.parentId = some p → p ∈ b.rows.map Task.id
  | some (.cascade todo) => Covered b [] todo

theorem ready_cascade (b : Board) (taskId : String) :
    Ready b (some (.cascade (cascade taskId b))) := by
  have hcovered : Covered b [] (cascade taskId b ++ []) := covered_cascade trivial
  rwa [List.append_nil] at hcovered

theorem ready_start {a : Action} (hclosed : s.board.Closed) (hfree : ∀ k, s.pending k = none)
    (hs : step s a = some t) (k : ℕ) : Ready t.board (t.pending k) := by
  have hsuspend : ∀ (j : ℕ) (p : Option Pending), Ready s.board p →
      Ready (suspend j p s).board ((suspend j p s).pending k) := by
    intro j p hp
    by_cases hk : k = j
    · subst hk
      simpa [suspend] using hp
    · simp [suspend, hk, hfree k, Ready]
  cases a with
  | createRootGoal id label now =>
    simp only [step, create] at hs
    split_ifs at hs
    cases hs
    simp [hfree k, Ready]
  | spawnSubtask j parentId label =>
    simp only [step, hfree j, Option.isNone_none, if_true] at hs
    split at hs
    · cases hs
      simp [hfree k, Ready]
    · next task htask =>
      cases hs
      exact hsuspend j _ (Board.get_id htask ▸ List.mem_map_of_mem (Board.get_mem htask))
  | call j taskId call =>
    simp only [step, hfree j, Option.isNone_none, if_true] at hs
    split at hs
    · cases hs
      simp [hfree k, Ready]
    · next task htask =>
      cases hs
      exact hsuspend j _ fun p hp => hclosed task (Board.get_mem htask) p hp
  | deleteTask j taskId recursive =>
    simp only [step, hfree j, Option.isNone_none, if_true] at hs
    split_ifs at hs
    · cases hs
      exact hsuspend j _ (ready_cascade s.board taskId)
    · cases hs
      simp [hfree k, Ready]
  | resume j id now => simp [step, hfree j] at hs

theorem ready_resume {k : ℕ} {id : String} {now : Clocks} (h : Ready s.board (s.pending k))
    (hs : step s (.resume k id now) = some t) : Ready t.board (t.pending k) := by
  obtain ⟨p, hp, hs⟩ := Option.bind_eq_some_iff.mp hs
  rw [hp] at h
  cases p with
  | spawn parentId label =>
    obtain ⟨u, -, rfl⟩ := Option.map_eq_some_iff.mp hs
    simp [suspend, Ready]
  | call call copy =>
    cases hs
    simp [suspend, Ready]
  | cascade todo =>
    match todo with
    | [] =>
      cases hs
      simp [suspend, Ready]
    | .deleteTask taskId :: todo =>
      cases hs
      simpa [suspend, Ready] using covered_cascade h
    | .delete taskId :: todo =>
      cases hs
      simpa [suspend, Ready] using covered_delete h.2 (List.Subset.refl _)

theorem keepsNext_of_ready {b : Board} {p : Option Pending} (h : Ready b p) : KeepsNext b p := by
  cases p with
  | none => trivial
  | some p =>
    cases p with
    | spawn parentId label => exact h
    | call call copy => exact h
    | cascade todo =>
      match todo with
      | [] => trivial
      | .deleteTask taskId :: todo => trivial
      | .delete taskId :: todo => exact fun row hrow hp => List.not_mem_nil (h.1 row hrow hp)

theorem keeps_resumes {k : ℕ} {as : List Action} (hresume : ∀ a ∈ as, ∃ id now, a = .resume k id now)
    (h : Ready s.board (s.pending k)) : Transition.Each step s as fun _ s a => Keeps s a := by
  induction as generalizing s with
  | nil => exact Transition.each_nil _ _
  | cons a as ih =>
    obtain ⟨id, now, rfl⟩ := hresume a List.mem_cons_self
    cases hs : step s (.resume k id now) with
    | none => exact Transition.each_stuck (keepsNext_of_ready h) hs
    | some t =>
      exact Transition.each_cons (keepsNext_of_ready h) hs
        (ih (fun a ha => hresume a (List.mem_cons_of_mem _ ha)) (ready_resume h hs))

/-- An operation that runs alone keeps the parents, a cascading delete among them; only the
delete of one task must find it without children. -/
theorem keeps_alone {a : Action} {k : ℕ} {as : List Action} (hclosed : s.board.Closed)
    (hfree : ∀ k, s.pending k = none) (hresume : ∀ a ∈ as, ∃ id now, a = .resume k id now)
    (hdelete : ∀ j taskId, a = .deleteTask j taskId false → s.board.Childless taskId) :
    Transition.Each step s (a :: as) fun _ s a => Keeps s a := by
  have hkeeps : Keeps s a := by
    cases a with
    | createRootGoal id label now => trivial
    | spawnSubtask k parentId label => trivial
    | call k taskId call => trivial
    | deleteTask j taskId recursive =>
      cases recursive with
      | false => exact hdelete j taskId rfl
      | true => trivial
    | resume j id now => exact keepsNext_of_ready (by simp [hfree j, Ready])
  cases hs : step s a with
  | none => exact Transition.each_stuck hkeeps hs
  | some t =>
    exact Transition.each_cons hkeeps hs (keeps_resumes hresume (ready_start hclosed hfree hs k))

end Alone

/-- A root, a task under it, and the cascading delete of both. -/
def familySchedule : List Action :=
  [.createRootGoal "a" "root" 0, .spawnSubtask 0 "a" "leaf", .resume 0 "b" ⟨0, 0⟩,
    .deleteTask 0 "a" true, .resume 0 "" ⟨0, 0⟩, .resume 0 "" ⟨0, 0⟩]

theorem tree_complete_family :
    ∃ s, Transition.run step start familySchedule = some s ∧
      s.board.rows.map Task.id = ["a"] ∧ TreeComplete s.board := by
  refine ⟨_, rfl, by decide +kernel, (tree_complete familySchedule _ rfl).2 ?_⟩
  refine Transition.each_cons trivial rfl (Transition.each_cons trivial rfl ?_)
  refine Transition.each_cons ?_ rfl (Transition.each_cons trivial rfl ?_)
  · change "a" ∈ [_]
    exact List.mem_singleton.mpr rfl
  · exact keeps_resumes (k := 0) (by simp) (ready_cascade _ "a")

/-- The delete of the root alone leaves the task under it in no tree. -/
theorem tree_loses_orphan :
    ∃ s, Transition.run step start
        [.createRootGoal "a" "root" 0, .spawnSubtask 0 "a" "leaf", .resume 0 "b" ⟨0, 0⟩,
          .deleteTask 0 "a" false] = some s ∧
      s.board.rows.map Task.id = ["b"] ∧
      (∀ depth, getTaskTree depth s.board = some []) ∧ ¬ TreeComplete s.board := by
  have hempty : ∀ depth, ∀ b : Board, (b.rows.filter fun task =>
      (readParent task.parentId).isNone) = [] → getTaskTree depth b = some [] := by
    intro depth b hb
    rw [getTaskTree, hb]
    rfl
  refine ⟨_, rfl, by decide +kernel, fun depth => hempty depth _ rfl, fun h => ?_⟩
  obtain ⟨forest, hforest, hperm⟩ := h
  obtain rfl : [] = forest := Option.some.inj ((hempty _ _ rfl).symm.trans (hforest _ le_rfl))
  have hlength := hperm.length_eq
  revert hlength
  decide +kernel

end Interleaved
end TaskManager
end Batiste
