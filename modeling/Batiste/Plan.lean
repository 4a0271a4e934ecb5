import Batiste.Kahn

/-! Plans of operations: `Plan.add` and the topological sort of `plan.ts`.
A uuid is modelled by the serial number of the `randomUUID` draw that issued it, so a
later draw never repeats an earlier one; a plan keeps its operations in insertion order. -/
namespace Batiste

/-- A thrown or rejected value, by what `err instanceof Error ? err.message : String(err)`
makes of it; `String` itself throws on a value without a primitive conversion. -/
inductive Thrown
  | error (message : String)
  | value (text : String)
  | unprintable
  deriving DecidableEq, Repr

def Thrown.message? : Thrown → Option String
  | .error message => some message
  | .value text => some text
  | .unprintable => none

/-- How the promise returned by an operation's `fn` settles. -/
inductive Settlement (V : Type)
  | resolve (value : V)
  | reject (err : Thrown)
  deriving DecidableEq, Repr

/-- A call of `fn` throws synchronously or returns a promise. -/
inductive FnCall (V : Type)
  | throws (err : Thrown)
  | returns (promise : Settlement V)
  deriving DecidableEq, Repr

structure OperationHandle where
  id : ℕ
  name : String
  deriving DecidableEq, Repr

/-- `ctx.deps`: an entry is `none` where the result map has no value (`undefined`). -/
structure OperationContext (V : Type) where
  deps : List (Option V)
  deriving DecidableEq, Repr

structure Operation (V : Type) where
  id : ℕ
  name : String
  deps : List OperationHandle
  fn : OperationContext V → FnCall V
  tag : Option String

def Operation.depIds {V : Type} (op : Operation V) : List ℕ := op.deps.map OperationHandle.id

structure AddOptions where
  deps : Option (List OperationHandle) := none
  tag : Option String := none

/-- The operations added so far.  Every dependency was issued before its user. -/
structure Plan (V : Type) where
  ops : List (Operation V)
  sorted : (ops.map Operation.id).Pairwise (· < ·)
  issued : ∀ op ∈ ops, ∀ d ∈ op.depIds, d < op.id ∧ d ∈ ops.map Operation.id

inductive AddError
  | fnRequired
  | unknownDep (name : String) (dep : OperationHandle)
  deriving DecidableEq, Repr

def AddError.message : AddError → String
  | .fnRequired => "Plan.add: fn is required"
  | .unknownDep name dep =>
    "Plan.add(" ++ name ++ "): unknown dep " ++ dep.name ++ " (" ++ toString dep.id ++ ")"

structure CycleError where
  source : String
  target : String
  deriving DecidableEq, Repr

def CycleError.message (e : CycleError) : String :=
  "cycle detected involving edge " ++ e.source ++ " -> " ++ e.target

namespace Plan

variable {V : Type}

def empty : Plan V := ⟨[], by simp, by simp⟩

def ids (plan : Plan V) : List ℕ := plan.ops.map Operation.id

def op? (plan : Plan V) (id : ℕ) : Option (Operation V) := plan.ops.find? fun op => op.id == id

/-- The dependency ids an operation declares, repetitions included. -/
def depIds (plan : Plan V) (id : ℕ) : List ℕ :=
  match plan.op? id with
  | some op => op.depIds
  | none => []

/-- A uuid drawn after every one the plan holds. -/
def Fresh (plan : Plan V) (id : ℕ) : Prop := ∀ i ∈ plan.ids, i < id

def add (plan : Plan V) (id : ℕ) (hid : plan.Fresh id) (name : String) (opts : AddOptions)
    (fn : Option (OperationContext V → FnCall V)) : Except AddError (Plan V × OperationHandle) :=
  match fn with
  | none => .error .fnRequired
  | some fn =>
    let op : Operation V := ⟨id, name, opts.deps.getD [], fn, opts.tag⟩
    match h : op.deps.find? fun d => decide (d.id ∉ plan.ids) with
    | some dep => .error (.unknownDep name dep)
    | none => .ok (⟨plan.ops ++ [op], by
        rw [List.map_append, List.pairwise_append]
        exact ⟨plan.sorted, by simp, fun i hi j hj => by
          obtain rfl := List.mem_singleton.mp hj
          exact hid i hi⟩, by
        have hknown : ∀ d ∈ op.depIds, d ∈ plan.ids := by
          intro d hd
          obtain ⟨handle, hh, rfl⟩ := List.mem_map.mp hd
          simpa using List.find?_eq_none.mp h handle hh
        intro o ho d hd
        rw [List.map_append, List.mem_append]
        rcases List.mem_append.mp ho with ho | ho
        · exact ⟨(plan.issued o ho d hd).1, Or.inl (plan.issued o ho d hd).2⟩
        · obtain rfl := List.mem_singleton.mp ho
          exact ⟨hid d (hknown d hd), Or.inl (hknown d hd)⟩⟩, ⟨id, name⟩)

/-- `dependents` as both `toposort` and the executor build it, reading the operations in the
given order. -/
def dependents (plan : Plan V) (order : List ℕ) : ℕ → List ℕ :=
  Countdown.users plan.depIds order

def indegree (plan : Plan V) (id : ℕ) : Option ℤ :=
  (plan.op? id).map fun op => (op.deps.length : ℤ)

/-- Kahn's algorithm, with the edge the error names when some operation is left over. -/
def toposort (plan : Plan V) : Except CycleError (List ℕ) :=
  let ready := plan.ids.filter fun id => decide (plan.indegree id = some 0)
  let r := Countdown.kahn (plan.dependents plan.ids) plan.ops.length plan.indegree ready []
  if r.1.length ≠ plan.ops.length then
    match plan.ops.find? fun op => decide (0 < (r.2 op.id).getD 0) with
    | none => .error ⟨"unknown", "unknown"⟩
    | some op =>
      match (op.deps.find? fun d => decide (d.id ∉ r.1)).or op.deps.head? with
      | none => .error ⟨"unknown", op.name⟩
      | some dep => .error ⟨dep.name, op.name⟩
  else .ok r.1

theorem ids_nodup (plan : Plan V) : plan.ids.Nodup :=
  plan.sorted.imp fun h => h.ne

theorem op?_mem {plan : Plan V} {id : ℕ} {op : Operation V} (h : plan.op? id = some op) :
    op ∈ plan.ops ∧ op.id = id :=
  ⟨List.mem_of_find?_eq_some h, by simpa using List.find?_some h⟩

theorem op?_of_mem {plan : Plan V} {op : Operation V} (h : op ∈ plan.ops) :
    plan.op? op.id = some op := by
  have hsome : (plan.op? op.id).isSome := by
    rw [op?, List.find?_isSome]
    exact ⟨op, h, by simp⟩
  obtain ⟨op', hop⟩ := Option.isSome_iff_exists.mp hsome
  obtain ⟨hmem, hid⟩ := op?_mem hop
  rw [hop, List.inj_on_of_nodup_map plan.ids_nodup hmem h hid]

theorem mem_ids {plan : Plan V} {id : ℕ} : id ∈ plan.ids ↔ ∃ op, plan.op? id = some op := by
  constructor
  · intro h
    obtain ⟨op, hop, rfl⟩ := List.mem_map.mp h
    exact ⟨op, op?_of_mem hop⟩
  · rintro ⟨op, hop⟩
    obtain ⟨hmem, rfl⟩ := op?_mem hop
    exact List.mem_map_of_mem hmem

theorem depIds_of_op? {plan : Plan V} {id : ℕ} {op : Operation V} (h : plan.op? id = some op) :
    plan.depIds id = op.depIds := by
  simp [depIds, h]

theorem dep_lt {plan : Plan V} {id d : ℕ} (h : d ∈ plan.depIds id) : d < id ∧ d ∈ plan.ids := by
  cases hop : plan.op? id with
  | none => simp [depIds, hop] at h
  | some op =>
    rw [depIds_of_op? hop] at h
    obtain ⟨hmem, rfl⟩ := op?_mem hop
    exact plan.issued op hmem d h

theorem dag (plan : Plan V) : Countdown.Dag plan.ids plan.depIds where
  nodup := plan.ids_nodup
  closed _ _ _ hd := (dep_lt hd).2
  ranked := ⟨id, fun _ _ _ hd => (dep_lt hd).1⟩

theorem indegree_eq {plan : Plan V} {id : ℕ} (h : id ∈ plan.ids) :
    plan.indegree id = some ((plan.depIds id).length : ℤ) := by
  obtain ⟨op, hop⟩ := mem_ids.mp h
  simp [indegree, depIds_of_op? hop, hop, Operation.depIds]

/-- The sort of a plan succeeds with all its operations, dependencies first. -/
theorem toposort_order (plan : Plan V) :
    ∃ order, plan.toposort = .ok order ∧ order.Perm plan.ids ∧
      Countdown.DepsBefore plan.depIds order := by
  obtain ⟨hperm, hbefore⟩ := Countdown.kahn_order plan.dag fun x hx => indegree_eq hx
  have hlen : plan.ids.length = plan.ops.length := by simp [ids]
  rw [hlen] at hperm hbefore
  have hsize := hperm.length_eq.trans hlen
  exact ⟨_, if_neg fun h => h hsize, hperm, hbefore⟩

/-- A plan that a sequence of successful `add` calls built, with the handles that they returned. -/
inductive Built : List OperationHandle → Plan V → Prop
  | empty : Built [] empty
  | add {handles : List OperationHandle} {plan plan' : Plan V} {handle : OperationHandle} {id : ℕ}
      {hid : plan.Fresh id} {name : String} {opts : AddOptions}
      {fn : Option (OperationContext V → FnCall V)} :
      Built handles plan → plan.add id hid name opts fn = .ok (plan', handle) →
        Built (handles ++ [handle]) plan'

theorem add_ok {plan plan' : Plan V} {id : ℕ} {hid : plan.Fresh id} {name : String}
    {opts : AddOptions} {fn : Option (OperationContext V → FnCall V)} {handle : OperationHandle}
    (h : plan.add id hid name opts fn = .ok (plan', handle)) :
    ∃ f, fn = some f ∧ handle = ⟨id, name⟩ ∧ (∀ d ∈ opts.deps.getD [], d.id ∈ plan.ids) ∧
      plan'.ops = plan.ops ++ [⟨id, name, opts.deps.getD [], f, opts.tag⟩] := by
  cases fn with
  | none => cases h
  | some f =>
    simp only [add] at h
    split at h
    · cases h
    · next hknown =>
      cases h
      refine ⟨f, rfl, rfl, fun d hd => ?_, rfl⟩
      simpa using List.find?_eq_none.mp hknown d hd

theorem Built.ids {handles : List OperationHandle} {plan : Plan V} (h : Built handles plan) :
    plan.ids = handles.map OperationHandle.id := by
  induction h with
  | empty => rfl
  | add _ hadd ih =>
    obtain ⟨f, -, rfl, -, hops⟩ := add_ok hadd
    rw [Plan.ids, hops, List.map_append, List.map_append, ← ih]
    rfl

/-- Whatever was added, with dependencies named once or many times, the sort succeeds. -/
theorem built_toposort {handles : List OperationHandle} {plan : Plan V}
    (h : Built handles plan) :
    ∃ order, plan.toposort = .ok order ∧ order.Perm (handles.map OperationHandle.id) ∧
      Countdown.DepsBefore plan.depIds order := by
  rw [← h.ids]
  exact plan.toposort_order

/-- The second operation declares the first one twice. -/
theorem built_toposort_twice : ∃ (plan : Plan ℕ) (order : List ℕ),
    Built [⟨0, "load"⟩, ⟨1, "merge"⟩] plan ∧ plan.depIds 1 = [0, 0] ∧
      plan.toposort = .ok order ∧ order.Perm [0, 1] ∧ Countdown.DepsBefore plan.depIds order := by
  have hnone : (empty : Plan ℕ).Fresh 0 := by simp [Fresh, Plan.ids, empty]
  have hload : Built [⟨0, "load"⟩] _ :=
    .add .empty (show empty.add 0 hnone "load" {} (some fun _ => .returns (.resolve 0)) =
      .ok (_, ⟨0, "load"⟩) from rfl)
  have hone : Fresh _ 1 := fun i hi => by
    rw [hload.ids] at hi
    obtain rfl := List.mem_singleton.mp hi
    exact Nat.one_pos
  have hmerge := hload.add (show Plan.add _ 1 hone "merge" ⟨some [⟨0, "load"⟩, ⟨0, "load"⟩], none⟩
    (some fun _ => .returns (.resolve 1)) = .ok (_, ⟨1, "merge"⟩) from rfl)
  obtain ⟨order, hsort, hperm, hbefore⟩ := built_toposort hmerge
  exact ⟨_, order, hmerge, rfl, hsort, hperm, hbefore⟩

/-! What a plan means, without a scheduler: an operation has a value when all its
dependencies have values and its `fn`, called with them, resolves. -/

/-- The big-step meaning of a plan. -/
inductive Value (plan : Plan V) : ℕ → V → Prop
  | call (env : ℕ → Option V) (op : Operation V) (v : V) (hop : plan.op? op.id = some op)
      (hsome : ∀ d ∈ op.depIds, (env d).isSome)
      (henv : ∀ d ∈ op.depIds, ∀ w, env d = some w → Value plan d w)
      (hfn : op.fn ⟨op.depIds.map env⟩ = .returns (.resolve v)) : Value plan op.id v

/-- All dependencies of the operation have values, and `ctx` passes them on in order. -/
def Reached (plan : Plan V) (op : Operation V) (ctx : OperationContext V) : Prop :=
  plan.op? op.id = some op ∧ ∃ env : ℕ → Option V, ctx = ⟨op.depIds.map env⟩ ∧
    (∀ d ∈ op.depIds, (env d).isSome) ∧
    ∀ d ∈ op.depIds, ∀ w, env d = some w → plan.Value d w

/-- The operation is reached, and its `fn` throws or rejects. -/
def Raises (plan : Plan V) (id : ℕ) (err : Thrown) : Prop :=
  ∃ op ctx, plan.Reached op ctx ∧ op.id = id ∧
    (op.fn ctx = .throws err ∨ op.fn ctx = .returns (.reject err))

/-- Every error a reached operation fails with can be turned into a message. -/
def Printable (plan : Plan V) : Prop :=
  ∀ id err, plan.Raises id err → err.message? ≠ none

theorem Value.reached {plan : Plan V} {id : ℕ} {v : V} (h : plan.Value id v) :
    ∃ op ctx, plan.Reached op ctx ∧ op.id = id ∧ op.fn ctx = .returns (.resolve v) := by
  cases h with
  | call env op v hop hsome henv hfn => exact ⟨op, _, ⟨hop, env, rfl, hsome, henv⟩, rfl, hfn⟩

/-- Two environments that give the dependencies their values agree on them. -/
theorem env_unique {deps : List ℕ} {env env' : ℕ → Option V} {P Q : ℕ → V → Prop}
    (hsome : ∀ d ∈ deps, (env d).isSome) (hsome' : ∀ d ∈ deps, (env' d).isSome)
    (henv : ∀ d ∈ deps, ∀ w, env d = some w → P d w)
    (henv' : ∀ d ∈ deps, ∀ w, env' d = some w → Q d w)
    (hPQ : ∀ d ∈ deps, ∀ w w', P d w → Q d w' → w = w') : deps.map env = deps.map env' := by
  apply List.map_congr_left
  intro d hd
  obtain ⟨w, hw⟩ := Option.isSome_iff_exists.mp (hsome d hd)
  obtain ⟨w', hw'⟩ := Option.isSome_iff_exists.mp (hsome' d hd)
  have heq := hPQ d hd w w' (henv d hd w hw) (henv' d hd w' hw')
  rw [hw, hw', heq]

/-- An operation has at most one value. -/
theorem Value.unique {plan : Plan V} {id : ℕ} {v w : V} (hv : plan.Value id v)
    (hw : plan.Value id w) : v = w := by
  induction hv generalizing w with
  | call env op v hop hsome _ hfn ih =>
    obtain ⟨op', ctx, ⟨hop', env', rfl, hsome', henv'⟩, hid, hfn'⟩ := hw.reached
    obtain rfl : op' = op := by
      rw [hid, hop] at hop'
      exact (Option.some.inj hop').symm
    have henv := env_unique hsome hsome' ih henv' fun d _ u u' hu hu' => hu hu'
    rw [henv, hfn'] at hfn
    cases hfn
    rfl

/-- An operation is reached with one context only. -/
theorem Reached.unique {plan : Plan V} {op op' : Operation V} {ctx ctx' : OperationContext V}
    (h : plan.Reached op ctx) (h' : plan.Reached op' ctx') (hid : op.id = op'.id) :
    op = op' ∧ ctx = ctx' := by
  obtain ⟨hop, env, rfl, hsome, henv⟩ := h
  obtain ⟨hop', env', rfl, hsome', henv'⟩ := h'
  rw [hid, hop'] at hop
  obtain rfl := Option.some.inj hop
  have heq := env_unique hsome hsome' henv henv' fun _ _ _ _ hu hu' => Value.unique hu hu'
  rw [heq]
  exact ⟨rfl, rfl⟩

end Plan
end Batiste
