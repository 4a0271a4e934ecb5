import Batiste.ClusterSummary
import Batiste.Designators
import Batiste.RenewWindow

/-! The rules of `tasklog-hygiene` that propose to archive a task or to merge it into another one:
age, copies of one label, and similar tasks. -/
namespace Batiste
namespace TasklogHygiene

open JsonText TaskActions RenewWindow SimilarClusters Designators
open CodeGraph (Collation)

inductive Regra
  | stale | runningOrfa | duplicataAberta | correlatasAbertas
  deriving DecidableEq, Repr

inductive Nivel
  | erro | aviso
  deriving DecidableEq, Repr

structure Violacao where
  regra : Regra
  nivel : Nivel
  taskId : String
  label : String
  idadeDias : Option ℤ := none
  mantem : Option String := none
  copias : Option ℕ := none
  score : Option ℚ := none
  detalhe : String
  sugestao : String
  deriving DecidableEq, Repr

/-- The language, and `localeCompare`; `toNumber` is the number that a value stands for in
arithmetic, if it is one. -/
structure Host where
  rt : Runtime
  toNumber : Json → Option ℚ
  collation : Collation

structure Limites where
  now : ℤ
  staleDays : ℚ := 30
  runningHours : ℚ := 48

section Source

variable (host : Host)

def manageTask (fields : List (String × Json)) : String :=
  "batiste-direct manage_task '" ++ stringify host.rt.numberText (.object fields) ++ "'"

def curto (t : Task) : String :=
  shortId t.id ++ " " ++ String.ofList (t.label.toList.take 90) ++
    if 90 < textLength t.label then "…" else ""

/-! ### Age -/

section Idade

variable (limites : Limites)

/-- `meta(t).progressAt ?? t.updatedAt`, as a number; `none` where it is none. -/
def ultimoProgresso (t : Task) : Option (Option ℚ) :=
  match (Dict.get? (metaOf t) "progressAt").getD .null with
  | .null => t.updatedAt.map fun time => some (time : ℚ)
  | value => some (host.toNumber value)

def idade (t : Task) : Option ℤ :=
  match ultimoProgresso host t with
  | none => some 0
  | some progress => progress.map fun time : ℚ => ⌊((limites.now : ℚ) - time) / DAY⌋

def horas (t : Task) : Option ℚ :=
  t.updatedAt.map fun time => ((limites.now - time : ℤ) : ℚ) / 3600

/-- `horas > runningHours` of a running task -/
def orfa (t : Task) : Bool :=
  t.status == .running && (horas limites t).any fun h => decide (limites.runningHours < h)

/-- `idade(t, now) > staleDays` -/
def parada (t : Task) : Bool :=
  (idade host limites t).any fun days => decide (limites.staleDays < days)

def idadeTexto (t : Task) : String :=
  (idade host limites t).elim "NaN" fun days => host.rt.numberText days

def violacaoOrfa (t : Task) (updatedAt : ℤ) (exp : String) : Violacao where
  regra := .runningOrfa
  nivel := .erro
  taskId := t.id
  label := t.label
  idadeDias := idade host limites t
  detalhe := "running sem update há " ++
    host.rt.numberText ⌊((limites.now - updatedAt : ℤ) : ℚ) / 3600⌋ ++ " h (limite " ++
      host.rt.numberText limites.runningHours ++ " h)" ++ exp
  sugestao := "batiste-direct manage_task '\x7b\"action\":\"archive\",\"taskId\":\"" ++ t.id ++
    "\",\"reason\":\"agente/sessão encerrou sem fechar\"\x7d'  # ou update/close se ainda vale"

def violacaoParada (t : Task) (exp : String) : Violacao where
  regra := .stale
  nivel := .erro
  taskId := t.id
  label := t.label
  idadeDias := idade host limites t
  detalhe := statusName t.status ++ " sem update há " ++ idadeTexto host limites t ++
    " dias (limite " ++ host.rt.numberText limites.staleDays ++ ")" ++ exp
  sugestao := "batiste-direct manage_task '\x7b\"action\":\"archive\",\"taskId\":\"" ++ t.id ++
    "\",\"reason\":\"...\"\x7d'  # ou renew --until +30d com motivo, ou close com proof"

/-- `renovada ? null : renovacaoInvalida(t, now)` -/
def invalidez (renovada : Bool) (t : Task) : Except String (Option String) :=
  if renovada then .ok none else renovacaoInvalida host.rt t limites.now

def violacaoDeIdade (t : Task) : Except String (Option Violacao) :=
  match t.updatedAt with
  | none => .ok none
  | some updatedAt => do
    let renovada ← renovacaoVigente host.rt t limites.now
    let inv ← invalidez host limites renovada t
    let exp := inv.elim "" fun inv =>
      " (renewedUntil inválido: " ++ inv ++ "; expirado ou sem motivo)"
    return if orfa limites t then
        if renovada then none else some (violacaoOrfa host limites t updatedAt exp)
      else if parada host limites t then
        if renovada then none else some (violacaoParada host limites t exp)
      else none

/-- `violacoesDeIdade`, on the open tasks. -/
def violacoesDeIdade : List Task → Except String (List Violacao)
  | [] => .ok []
  | t :: rest => do
    let violacao ← violacaoDeIdade host limites t
    let violacoes ← violacoesDeIdade rest
    return violacao.toList ++ violacoes

end Idade

/-! ### Copies -/

def normLabel (label : String) : String := host.rt.lowerCase (trimText label)

/-- `createdAt`, then `localeCompare` of the ids. -/
def NotYounger (a b : Task) : Prop :=
  a.createdAt.getD 0 < b.createdAt.getD 0 ∨
    a.createdAt.getD 0 = b.createdAt.getD 0 ∧ host.collation.le a.id b.id = true

instance : DecidableRel (NotYounger host) := fun _ _ => inferInstanceAs (Decidable (_ ∨ _ ∧ _))

def duplicata (copias : ℕ) (manter t : Task) : Violacao where
  regra := .duplicataAberta
  nivel := .erro
  taskId := t.id
  label := t.label
  mantem := some manter.id
  copias := some copias
  detalhe := host.rt.numberText copias ++ " tarefas abertas com o mesmo label; a mais antiga é " ++
    shortId manter.id
  sugestao := manageTask host [("action", .string "archive"), ("taskId", .string t.id),
    ("reason", .string ("duplicata de " ++ manter.id))]

/-- The copies of a group, of which the oldest task is kept. -/
def copiasDe (g : List Task) : List Violacao :=
  if g.length < 2 then []
  else
    match g.insertionSort (NotYounger host) with
    | [] => []
    | manter :: copias => copias.map (duplicata host g.length manter)

def violacoesDeDuplicata (abertas : List Task) : List Violacao :=
  (Grouping.groupBy (fun t => normLabel host t.label) abertas).flatMap fun grupo =>
    copiasDe host grupo.2

/-! ### Similar tasks -/

def THRESHOLD_RELATED : ℚ := 5 / 10

section Correlatas

variable (sim : Similarity) (abertas : List Task)

/-- `byId.get(id)` -/
def byId (id : String) : Option Task := abertas.find? fun t => t.id = id

/-- The label is the same after `trim` and `toLowerCase`. -/
def mesmoLabel (a b : String) : Bool :=
  (byId abertas a).map (fun t => normLabel host t.label) ==
    (byId abertas b).map fun t => normLabel host t.label

def pares : List SimPair :=
  (SimilarClusters.allPairs sim abertas THRESHOLD_RELATED).filter fun p =>
    !mesmoLabel host abertas p.a p.b

def fortes : List SimPair :=
  (pares host sim abertas).filter fun p => decide (THRESHOLD_SAME ≤ p.score)

/-- The tasks of a strong pair. -/
def emFortes : List Task :=
  abertas.filter fun t => (fortes host sim abertas).any fun p => p.a = t.id || p.b = t.id

def clusters : List SimCluster :=
  clusterSimilar host.rt.numberText (paired sim) THRESHOLD_SAME (emFortes host sim abertas)

def mesclar (score : ℚ) (o alvo : Task) : Violacao where
  regra := .correlatasAbertas
  nivel := .erro
  taskId := o.id
  label := o.label
  mantem := some alvo.id
  score := some score
  detalhe := "correlata de " ++ curto alvo ++ " (score " ++ host.rt.numberText score ++ " >= " ++
    host.rt.numberText THRESHOLD_SAME ++ ": mesma tarefa; mescle, nao duplique)"
  sugestao := manageTask host [("action", .string "merge"), ("sourceId", .string o.id),
    ("targetId", .string alvo.id)]

def correlata (score : ℚ) (o alvo : Task) : Violacao :=
  { mesclar host score o alvo with
    nivel := .aviso
    detalhe := curto o ++ " ~ " ++ curto alvo ++ " (score " ++ host.rt.numberText score ++
      ": correlata; confira se e a mesma entrega)" }

/-- A merge into a target of the same label is left to the other rule. -/
def erroDe (cl : SimCluster) (m : ProposedMerge) : Option Violacao := do
  let alvo ← byId abertas cl.targetId
  let o ← byId abertas m.sourceId
  if normLabel host o.label = normLabel host alvo.label then none
  else return mesclar host m.score o alvo

def avisoDe (p : SimPair) : Option Violacao := do
  let a ← byId abertas p.a
  let b ← byId abertas p.b
  let alvo ← pickTarget host.rt.numberText [a, b]
  return correlata host p.score (if alvo.id = a.id then b else a) alvo

structure Correlatas where
  erros : List Violacao
  avisos : List Violacao
  semMotor : Option String := none

/-- `violacoesDeCorrelatas`; without the module of the scores the rule does not run. -/
def violacoesDeCorrelatas : Except String Similarity → Correlatas
  | .error erro => ⟨[], [], some erro⟩
  | .ok sim =>
    { erros := (clusters host sim abertas).flatMap fun cl =>
        cl.merges.filterMap (erroDe host abertas cl)
      avisos := ((pares host sim abertas).filter fun p => decide (p.score < THRESHOLD_SAME)).filterMap
        (avisoDe host abertas) }

end Correlatas

structure Resultado where
  erros : List Violacao
  avisos : List Violacao
  semMotor : Option String

/-- `verificar`, as far as it proposes to archive or to merge. -/
def verificar (limites : Limites) (motor : Except String Similarity) (tasks : List Task) :
    Except String Resultado := do
  let abertas := tasks.filter isOpen
  let deIdade ← violacoesDeIdade host limites abertas
  let corr := violacoesDeCorrelatas host abertas motor
  return ⟨deIdade ++ violacoesDeDuplicata host abertas ++ corr.erros, corr.avisos, corr.semMotor⟩

end Source

/-! ## What the rules propose -/

/-- Every suggestion has one task yield to another that is kept, as the relation says. -/
structure Proposes (vs : List Violacao) (yields : Task → Task → Prop) : Prop where
  sound : ∀ v ∈ vs, ∃ t u, yields t u ∧ v.taskId = t.id ∧ v.mantem = some u.id
  complete : ∀ t u, yields t u → ∃ v ∈ vs, v.taskId = t.id ∧ v.mantem = some u.id

theorem Proposes.append {vs ws : List Violacao} {r r' : Task → Task → Prop} (h : Proposes vs r)
    (h' : Proposes ws r') : Proposes (vs ++ ws) fun t u => r t u ∨ r' t u where
  sound v hv := by
    rcases List.mem_append.mp hv with hv | hv
    · obtain ⟨t, u, hr, hids⟩ := h.sound v hv
      exact ⟨t, u, .inl hr, hids⟩
    · obtain ⟨t, u, hr, hids⟩ := h'.sound v hv
      exact ⟨t, u, .inr hr, hids⟩
  complete t u hr := by
    rcases hr with hr | hr
    · obtain ⟨v, hv, hids⟩ := h.complete t u hr
      exact ⟨v, List.mem_append_left ws hv, hids⟩
    · obtain ⟨v, hv, hids⟩ := h'.complete t u hr
      exact ⟨v, List.mem_append_right vs hv, hids⟩

section Relations

variable (host : Host) (limites : Limites) (sim : Similarity) (abertas : List Task)

/-- A task without a renewal that has not moved for too long. -/
def Stalled (t : Task) : Prop :=
  t ∈ abertas ∧ t.updatedAt.isSome = true ∧
    (orfa limites t = true ∨ parada host limites t = true) ∧
      renovacaoVigente host.rt t limites.now = .ok false

/-- One task is older than the other, or as old and in front of it. -/
def Ahead (u t : Task) : Prop :=
  NotYounger host u t ∧ (NotYounger host t u → [u, t].Sublist abertas)

/-- The second task is the oldest one of the label that both have. -/
structure CopyOf (t u : Task) : Prop where
  left : t ∈ abertas
  kept : u ∈ abertas
  ne : t ≠ u
  label : normLabel host t.label = normLabel host u.label
  oldest : ∀ s ∈ abertas, s ≠ u → normLabel host s.label = normLabel host u.label →
    Ahead host abertas u s

/-- The second task is the best one that chains of strong pairs connect with the first, and has
another label. -/
structure MergedInto (t u : Task) : Prop where
  left : t ∈ emFortes host sim abertas
  kept : u ∈ emFortes host sim abertas
  label : normLabel host t.label ≠ normLabel host u.label
  chained : Chained sim THRESHOLD_SAME (emFortes host sim abertas) t.id u.id
  best : ∀ s ∈ emFortes host sim abertas, s ≠ u →
    Chained sim THRESHOLD_SAME (emFortes host sim abertas) s.id u.id →
      Outranks host.rt.numberText (emFortes host sim abertas) u s

/-- The tasks, in their order, score enough to be related and too little to be the same. -/
def Near (a b : Task) : Prop :=
  [a, b].Sublist abertas ∧ THRESHOLD_RELATED ≤ sim.scoreIndexed abertas a.id b.id ∧
    sim.scoreIndexed abertas a.id b.id < THRESHOLD_SAME

/-- The second of two related tasks of different labels is the better one. -/
structure RelatedTo (t u : Task) : Prop where
  near : Near sim abertas t u ∨ Near sim abertas u t
  label : normLabel host t.label ≠ normLabel host u.label
  better : Outranks host.rt.numberText abertas u t

end Relations

section Passes

variable {host : Host} {limites : Limites} {sim : Similarity} {abertas : List Task}

/-! ### Age -/

theorem violacaoDeIdade_ok {t : Task} {violacao : Option Violacao}
    (h : violacaoDeIdade host limites t = .ok violacao) :
    (violacao.isSome = true ↔ t.updatedAt.isSome = true ∧
        (orfa limites t = true ∨ parada host limites t = true) ∧
          renovacaoVigente host.rt t limites.now = .ok false) ∧
      ∀ v ∈ violacao, v.taskId = t.id ∧ v.mantem = none := by
  unfold violacaoDeIdade at h
  cases hupdated : t.updatedAt with
  | none =>
    simp only [hupdated, Except.ok.injEq] at h
    simp [← h]
  | some updatedAt =>
    simp only [hupdated] at h
    cases hrenovada : renovacaoVigente host.rt t limites.now with
    | error e => simp [hrenovada, bind, Except.bind] at h
    | ok renovada =>
      cases hinv : invalidez host limites renovada t with
      | error e => simp [hrenovada, hinv, bind, Except.bind] at h
      | ok inv =>
        simp only [hrenovada, hinv, bind, Except.bind, pure, Except.pure, Except.ok.injEq] at h
        subst h
        split_ifs with horfa hren hparada hren
        · simp [hren]
        · simp [hren, horfa, violacaoOrfa]
        · simp [hren]
        · simp [hren, hparada, violacaoParada]
        · simp [horfa, hparada]

/-- The tasks that the rule of age proposes to archive. -/
theorem mem_violacoesDeIdade {tasks : List Task} {vs : List Violacao}
    (h : violacoesDeIdade host limites tasks = .ok vs) :
    (∀ v ∈ vs, v.mantem = none) ∧
      ∀ id, (∃ v ∈ vs, v.taskId = id) ↔ ∃ t, Stalled host limites tasks t ∧ t.id = id := by
  induction tasks generalizing vs with
  | nil =>
    obtain rfl := Except.ok.inj h
    simp [Stalled]
  | cons t tasks ih =>
    rw [violacoesDeIdade] at h
    cases hviolacao : violacaoDeIdade host limites t with
    | error e => simp [hviolacao, bind, Except.bind] at h
    | ok violacao =>
      cases hrest : violacoesDeIdade host limites tasks with
      | error e => simp [hviolacao, hrest, bind, Except.bind] at h
      | ok rest =>
        simp only [hviolacao, hrest, bind, Except.bind, pure, Except.pure, Except.ok.injEq] at h
        subst h
        obtain ⟨hsome, hfields⟩ := violacaoDeIdade_ok hviolacao
        obtain ⟨hnone, hids⟩ := ih hrest
        constructor
        · intro v hv
          rcases List.mem_append.mp hv with hv | hv
          · exact (hfields v (Option.mem_toList.mp hv)).2
          · exact hnone v hv
        · intro id
          have hhead : (∃ v ∈ violacao.toList, v.taskId = id) ↔ violacao.isSome = true ∧ t.id = id := by
            cases violacao with
            | none => simp
            | some v => simp [(hfields v rfl).1]
          have hsplit : (∃ s, Stalled host limites (t :: tasks) s ∧ s.id = id) ↔
              (violacao.isSome = true ∧ t.id = id) ∨
                ∃ s, Stalled host limites tasks s ∧ s.id = id := by
            rw [hsome]
            simp only [Stalled, List.mem_cons]
            grind
          rw [hsplit, ← hhead, ← hids]
          simp only [List.mem_append]
          grind

/-! ### Copies -/

instance : IsTrans Task (NotYounger host) :=
  ⟨fun a b c => (host.collation.isTrans (fun t : Task => OrderDual.toDual (t.createdAt.getD 0))
    Task.id).trans a b c⟩

instance : Std.Total (NotYounger host) :=
  ⟨fun a b => (host.collation.isTotal (fun t : Task => OrderDual.toDual (t.createdAt.getD 0))
    Task.id).total a b⟩

theorem Ahead.mono {xs : List Task} (hsub : xs.Sublist abertas) {u t : Task}
    (h : Ahead host xs u t) : Ahead host abertas u t :=
  ⟨h.1, fun hback => (h.2 hback).trans hsub⟩

/-- No two tasks are ahead of each other. -/
theorem Ahead.asymm (hids : abertas.Nodup) {u t : Task} (h : Ahead host abertas u t) :
    ¬ Ahead host abertas t u := fun h' =>
  sublist_pair_asymm hids (h.2 h'.1) (h'.2 h.1)

theorem copiasDe_proposes {g : List Task} (hg : g.Nodup) :
    Proposes (copiasDe host g) fun t u =>
      t ∈ g ∧ u ∈ g ∧ t ≠ u ∧ ∀ s ∈ g, s ≠ u → Ahead host g u s := by
  unfold copiasDe
  split_ifs with hlength
  · constructor
    case sound => exact fun v hv => absurd hv List.not_mem_nil
    case complete =>
      rintro t u ⟨ht, hu, hne, -⟩
      have hsub : [t, u] ⊆ g := by simp [ht, hu]
      have hpair := (List.subperm_of_subset (by simpa using hne) hsub).length_le
      exact absurd hpair (by simpa using hlength)
  · have hperm := List.perm_insertionSort (NotYounger host) g
    cases hsort : g.insertionSort (NotYounger host) with
    | nil =>
      rw [hsort] at hperm
      exact absurd hperm.length_eq (by simp; omega)
    | cons manter copias =>
      rw [hsort] at hperm
      obtain ⟨hnot, -⟩ := List.nodup_cons.mp (hperm.nodup_iff.mpr hg)
      have hmanter : manter ∈ g := hperm.mem_iff.mp List.mem_cons_self
      have hcopias : ∀ s ∈ g, s ≠ manter → s ∈ copias := fun s hs hne =>
        (List.mem_cons.mp (hperm.mem_iff.mpr hs)).resolve_left hne
      have hahead : ∀ s ∈ copias, Ahead host g manter s := fun s hs =>
        StableSort.head_insertionSort hg hsort hs
      constructor
      case sound =>
        intro v hv
        obtain ⟨t, ht, rfl⟩ := List.mem_map.mp hv
        have hne : t ≠ manter := fun heq => hnot (heq ▸ ht)
        exact ⟨t, manter, ⟨hperm.mem_iff.mp (List.mem_cons_of_mem _ ht), hmanter, hne,
          fun s hs hs' => hahead s (hcopias s hs hs')⟩, rfl, rfl⟩
      case complete =>
        rintro t u ⟨ht, hu, hne, hfirst⟩
        obtain rfl : u = manter := by
          by_contra hother
          exact (hahead u (hcopias u hu hother)).asymm hg (hfirst manter hmanter (Ne.symm hother))
        exact ⟨_, List.mem_map_of_mem (hcopias t ht hne), rfl, rfl⟩

theorem violacoesDeDuplicata_proposes (hids : abertas.Nodup) :
    Proposes (violacoesDeDuplicata host abertas) (CopyOf host abertas) := by
  have hgrouped := Grouping.grouped (fun t => normLabel host t.label) abertas
  have hsub : ∀ g ∈ Grouping.groupBy (fun t => normLabel host t.label) abertas,
      g.2.Sublist abertas := fun g hg => (hgrouped.items g hg).1 ▸ List.filter_sublist
  constructor
  case sound =>
    intro v hv
    obtain ⟨g, hg, hv⟩ := List.mem_flatMap.mp hv
    obtain ⟨t, u, ⟨ht, hu, hne, hfirst⟩, hvids⟩ :=
      (copiasDe_proposes (hids.sublist (hsub g hg))).sound v hv
    have hkey := ((hgrouped.mem_iff hg).mp hu).2
    refine ⟨t, u, ⟨(hsub g hg).subset ht, (hsub g hg).subset hu, hne, ?_, ?_⟩, hvids⟩
    · exact ((hgrouped.mem_iff hg).mp ht).2.trans hkey.symm
    · intro s hs hsu hlabel
      exact (hfirst s ((hgrouped.mem_iff hg).mpr ⟨hs, hlabel.trans hkey⟩) hsu).mono (hsub g hg)
  case complete =>
    intro t u h
    obtain ⟨g, hg, hkey⟩ := List.mem_map.mp (hgrouped.covers u h.kept)
    have hu := (hgrouped.mem_iff hg).mpr ⟨h.kept, hkey.symm⟩
    have ht := (hgrouped.mem_iff hg).mpr ⟨h.left, h.label.trans hkey.symm⟩
    have hfirst : ∀ s ∈ g.2, s ≠ u → Ahead host g.2 u s := by
      intro s hs hsu
      obtain ⟨hs', hlabel⟩ := (hgrouped.mem_iff hg).mp hs
      have hahead := h.oldest s hs' hsu (hlabel.trans hkey)
      refine ⟨hahead.1, fun hback => ?_⟩
      have hpair := (hahead.2 hback).filter fun s => decide (normLabel host s.label = g.1)
      rw [(hgrouped.items g hg).1]
      simpa [hlabel, hkey] using hpair
    obtain ⟨v, hv, hvids⟩ := (copiasDe_proposes (hids.sublist (hsub g hg))).complete t u
      ⟨ht, hu, h.ne, hfirst⟩
    exact ⟨v, List.mem_flatMap.mpr ⟨g, hg, hv⟩, hvids⟩

/-! ### Similar tasks -/

theorem byId_of_mem (hids : (abertas.map Task.id).Nodup) {t : Task} (ht : t ∈ abertas) :
    byId abertas t.id = some t := by
  cases hfind : byId abertas t.id with
  | none =>
    have hnot := List.find?_eq_none.mp hfind t ht
    simp at hnot
  | some s =>
    have hid : s.id = t.id := by simpa using List.find?_some hfind
    rw [List.inj_on_of_nodup_map hids (List.mem_of_find?_eq_some hfind) ht hid]

theorem emFortes_sublist : (emFortes host sim abertas).Sublist abertas := List.filter_sublist

/-- The error of a merge, by its two tasks. -/
theorem erroDe_eq (hids : (abertas.map Task.id).Nodup) {o alvo : Task} (ho : o ∈ abertas)
    (halvo : alvo ∈ abertas) {cl : SimCluster} {m : ProposedMerge} (hsource : m.sourceId = o.id)
    (htarget : cl.targetId = alvo.id) : erroDe host abertas cl m =
      if normLabel host o.label = normLabel host alvo.label then none
      else some (mesclar host m.score o alvo) := by
  unfold erroDe
  rw [hsource, htarget, byId_of_mem hids ho, byId_of_mem hids halvo]
  rfl

theorem erros_propose (hids : (abertas.map Task.id).Nodup) :
    Proposes ((clusters host sim abertas).flatMap fun cl =>
      cl.merges.filterMap (erroDe host abertas cl)) (MergedInto host sim abertas) := by
  have hsub : (emFortes host sim abertas).Sublist abertas := emFortes_sublist
  have hfortes := hids.sublist (hsub.map Task.id)
  constructor
  case sound =>
    intro v hv
    obtain ⟨cl, hcl, hv⟩ := List.mem_flatMap.mp hv
    obtain ⟨m, hm, hv⟩ := List.mem_filterMap.mp hv
    obtain ⟨members, hcluster⟩ := clusterSimilar_isCluster hcl
    obtain ⟨alvo, halvo, htarget, -, -⟩ := hcluster.chosen
    obtain ⟨⟨o, ho, hne, hsource⟩, -⟩ := (IsCluster.merge_iff hcluster halvo).mp ⟨m, hm, rfl, rfl⟩
    have hcomponent := hcluster.component
    have ho' := hcomponent.sublist.subset ho
    have halvo' := hcomponent.sublist.subset (mem_of_pickTarget halvo)
    rw [erroDe_eq hids (hsub.subset ho') (hsub.subset halvo') hsource.symm htarget] at hv
    split_ifs at hv with hlabel
    obtain rfl := Option.some.inj hv
    refine ⟨o, alvo, ⟨ho', halvo', hlabel, ?_, ?_⟩, rfl, rfl⟩
    · exact (hcomponent.closed o ho alvo halvo').mp (mem_of_pickTarget halvo)
    · intro s hs hother hchained
      have hmember := (hcomponent.closed alvo (mem_of_pickTarget halvo) s hs).mpr (.symm _ _ hchained)
      exact (pickTarget_outranks halvo hmember hother).mono hcomponent.sublist
  case complete =>
    intro t u h
    have hne : t.id ≠ u.id := fun hid => h.label (by
      rw [List.inj_on_of_nodup_map hfortes h.left h.kept hid])
    obtain ⟨cl, hcl, members, hcluster, ht⟩ := exists_cluster host.rt.numberText h.left
      (h.chained.scored hne)
    have hcomponent := hcluster.component
    have hu := (hcomponent.closed t ht u h.kept).mpr h.chained
    obtain ⟨alvo, halvo, htarget, -, -⟩ := hcluster.chosen
    have hmem := mem_of_pickTarget halvo
    obtain rfl : u = alvo := by
      by_contra hother
      have hchained := (hcomponent.closed alvo hmem u h.kept).mp hu
      have hbest := h.best alvo (hcomponent.sublist.subset hmem) (Ne.symm hother) hchained
      exact hbest.asymm (hfortes.of_map _)
        ((pickTarget_outranks halvo hu hother).mono hcomponent.sublist)
    obtain ⟨m, hm, hsource, -⟩ := (IsCluster.merge_iff hcluster halvo).mpr
      ⟨⟨t, ht, hne, rfl⟩, rfl⟩
    refine ⟨mesclar host m.score t u, List.mem_flatMap.mpr ⟨cl, hcl, List.mem_filterMap.mpr
      ⟨m, hm, ?_⟩⟩, rfl, rfl⟩
    rw [erroDe_eq hids (hsub.subset h.left) (hsub.subset h.kept) hsource htarget,
      if_neg h.label]

variable (host) in
/-- The warning about a pair has the worse of its tasks merged into the other one. -/
theorem avisoDe_eq (hids : (abertas.map Task.id).Nodup) {a b : Task}
    (hsub : [a, b].Sublist abertas) (score : ℚ) : ∃ o alvo,
      avisoDe host abertas ⟨a.id, b.id, score⟩ = some (correlata host score o alvo) ∧
        Outranks host.rt.numberText abertas alvo o ∧ (o = a ∧ alvo = b ∨ o = b ∧ alvo = a) := by
  have hpair : (a.id :: [b.id]).Nodup := hids.sublist (hsub.map Task.id)
  have hne : b.id ≠ a.id := fun hid => (List.nodup_cons.mp hpair).1 (hid ▸ List.mem_cons_self)
  obtain ⟨alvo, halvo⟩ := pickTarget_isSome host.rt.numberText (List.cons_ne_nil a [b])
  have hmem := mem_of_pickTarget halvo
  unfold avisoDe
  rw [byId_of_mem hids (hsub.subset (by simp)), byId_of_mem hids (hsub.subset (by simp))]
  rcases List.mem_cons.mp hmem with rfl | hb
  · refine ⟨b, alvo, by simp [halvo], ?_, .inr ⟨rfl, rfl⟩⟩
    have hother : b ≠ alvo := fun heq => hne (congrArg Task.id heq)
    exact (pickTarget_outranks halvo (by simp) hother).mono hsub
  · obtain rfl := List.mem_singleton.mp hb
    refine ⟨a, alvo, by simp [halvo, hne], ?_, .inl ⟨rfl, rfl⟩⟩
    have hother : a ≠ alvo := fun heq => hne (congrArg Task.id heq.symm)
    exact (pickTarget_outranks halvo (by simp) hother).mono hsub

/-- The pairs that are warned about. -/
theorem mem_pares (hids : (abertas.map Task.id).Nodup) {p : SimPair} :
    p ∈ (pares host sim abertas).filter (fun p => decide (p.score < THRESHOLD_SAME)) ↔
      ∃ a b, Near sim abertas a b ∧ normLabel host a.label ≠ normLabel host b.label ∧
        p = ⟨a.id, b.id, sim.scoreIndexed abertas a.id b.id⟩ := by
  have hlabels : ∀ a b, [a, b].Sublist abertas → (mesmoLabel host abertas a.id b.id = false ↔
      normLabel host a.label ≠ normLabel host b.label) := by
    intro a b hsub
    rw [mesmoLabel, byId_of_mem hids (hsub.subset (by simp)),
      byId_of_mem hids (hsub.subset (by simp))]
    simp
  rw [List.mem_filter, pares, List.mem_filter, SimilarClusters.allPairs, List.mem_insertionSort,
    mem_scoredPairs]
  constructor
  · rintro ⟨⟨⟨a, b, hsub, hmin, rfl⟩, hlabel⟩, hbelow⟩
    exact ⟨a, b, ⟨hsub, hmin, by simpa using hbelow⟩,
      (hlabels a b hsub).mp (by simpa using hlabel), rfl⟩
  · rintro ⟨a, b, ⟨hsub, hmin, hbelow⟩, hlabel, rfl⟩
    exact ⟨⟨⟨a, b, hsub, hmin, rfl⟩, by simpa using (hlabels a b hsub).mpr hlabel⟩,
      by simpa using hbelow⟩

theorem avisos_propose (hids : (abertas.map Task.id).Nodup) :
    Proposes (((pares host sim abertas).filter fun p => decide (p.score < THRESHOLD_SAME)).filterMap
      (avisoDe host abertas)) (RelatedTo host sim abertas) := by
  constructor
  case sound =>
    intro v hv
    obtain ⟨p, hp, hv⟩ := List.mem_filterMap.mp hv
    obtain ⟨a, b, hnear, hlabel, rfl⟩ := (mem_pares hids).mp hp
    obtain ⟨o, alvo, haviso, hbetter, htasks⟩ := avisoDe_eq host hids hnear.1
      (sim.scoreIndexed abertas a.id b.id)
    obtain rfl := Option.some.inj (haviso.symm.trans hv)
    refine ⟨o, alvo, ?_, rfl, rfl⟩
    rcases htasks with ⟨rfl, rfl⟩ | ⟨rfl, rfl⟩
    · exact ⟨.inl hnear, hlabel, hbetter⟩
    · exact ⟨.inr hnear, hlabel.symm, hbetter⟩
  case complete =>
    intro t u h
    have hpair : ∀ a b, Near sim abertas a b → (a = t ∧ b = u ∨ a = u ∧ b = t) →
        ∃ v ∈ ((pares host sim abertas).filter fun p => decide (p.score < THRESHOLD_SAME)).filterMap
          (avisoDe host abertas), v.taskId = t.id ∧ v.mantem = some u.id := by
      intro a b hnear htasks
      have hlabel : normLabel host a.label ≠ normLabel host b.label := by
        rcases htasks with ⟨rfl, rfl⟩ | ⟨rfl, rfl⟩
        · exact h.label
        · exact h.label.symm
      obtain ⟨o, alvo, haviso, hbetter, hchosen⟩ := avisoDe_eq host hids hnear.1
        (sim.scoreIndexed abertas a.id b.id)
      have hasymm := hbetter.asymm (hids.of_map _)
      obtain ⟨rfl, rfl⟩ : o = t ∧ alvo = u := by
        rcases htasks with ⟨rfl, rfl⟩ | ⟨rfl, rfl⟩ <;> rcases hchosen with ⟨rfl, rfl⟩ | ⟨rfl, rfl⟩
        · exact ⟨rfl, rfl⟩
        · exact absurd h.better hasymm
        · exact absurd h.better hasymm
        · exact ⟨rfl, rfl⟩
      exact ⟨_, List.mem_filterMap.mpr ⟨_, (mem_pares hids).mpr ⟨a, b, hnear, hlabel, rfl⟩, haviso⟩,
        rfl, rfl⟩
    rcases h.near with hnear | hnear
    · exact hpair t u hnear (.inl ⟨rfl, rfl⟩)
    · exact hpair u t hnear (.inr ⟨rfl, rfl⟩)

end Passes

/-! ## Jointly applicable -/

/-- No task that a suggestion keeps, or has others merged into, is archived or merged away by
another one. -/
def JointlyApplicable (res : Resultado) : Prop :=
  ∀ v ∈ res.erros ++ res.avisos, ∀ w ∈ res.erros ++ res.avisos, v.mantem ≠ some w.taskId

section Run

variable (host : Host) (limites : Limites) (motor : Except String Similarity) (abertas : List Task)

/-- The relations of the rule of similar tasks, which needs its module. -/
def Merged (t u : Task) : Prop := ∃ sim, motor = .ok sim ∧ MergedInto host sim abertas t u

def Related (t u : Task) : Prop := ∃ sim, motor = .ok sim ∧ RelatedTo host sim abertas t u

/-- One task yields to another by some rule. -/
def Yields (t u : Task) : Prop :=
  CopyOf host abertas t u ∨ Merged host motor abertas t u ∨ Related host motor abertas t u

/-- The rules do not contradict each other: a task that others yield to has moved; the oldest task
of a label is not the worse one of similar tasks; the target of strong pairs is neither a copy nor
the worse one of a related pair; and the better one of a related pair yields to none. -/
structure Settled : Prop where
  moved : ∀ t u, Yields host motor abertas t u → ¬ Stalled host limites abertas u
  oldest : ∀ t u v, CopyOf host abertas t u →
    ¬ Merged host motor abertas u v ∧ ¬ Related host motor abertas u v
  target : ∀ t u v, Merged host motor abertas t u →
    ¬ CopyOf host abertas u v ∧ ¬ Related host motor abertas u v
  better : ∀ t u v, Related host motor abertas t u → ¬ CopyOf host abertas u v ∧
    ¬ Merged host motor abertas u v ∧ ¬ Related host motor abertas u v

variable {host limites motor abertas}

theorem Yields.mem {t u : Task} (h : Yields host motor abertas t u) : t ∈ abertas ∧ u ∈ abertas := by
  rcases h with h | ⟨sim, -, h⟩ | ⟨sim, -, h⟩
  · exact ⟨h.left, h.kept⟩
  · exact ⟨emFortes_sublist.subset h.left, emFortes_sublist.subset h.kept⟩
  · rcases h.near with hnear | hnear
    · exact ⟨hnear.1.subset (by simp), hnear.1.subset (by simp)⟩
    · exact ⟨hnear.1.subset (by simp), hnear.1.subset (by simp)⟩

/-- The oldest task of a label is no copy. -/
theorem CopyOf.not_copy (hids : abertas.Nodup) {t u v : Task} (h : CopyOf host abertas t u) :
    ¬ CopyOf host abertas u v := fun h' =>
  (h.oldest v h'.kept h'.ne.symm h'.label.symm).asymm hids
    (h'.oldest u h'.left h'.ne h'.label)

/-- The target of its strong pairs is not merged itself. -/
theorem MergedInto.not_merged {sim : Similarity} (hids : abertas.Nodup) {t u v : Task}
    (h : MergedInto host sim abertas t u) : ¬ MergedInto host sim abertas u v := by
  intro h'
  have hne : u ≠ v := fun heq => h'.label (by rw [heq])
  exact (h.best v h'.kept hne.symm (.symm _ _ h'.chained)).asymm
    (hids.sublist emFortes_sublist) (h'.best u h'.left hne h'.chained)

theorem settled_iff (hids : abertas.Nodup) : Settled host limites motor abertas ↔
    ∀ t u, Yields host motor abertas t u → ¬ Stalled host limites abertas u ∧
      ∀ v, ¬ Yields host motor abertas u v := by
  constructor
  · intro h t u hyields
    refine ⟨h.moved t u hyields, fun v hyields' => ?_⟩
    rcases hyields with hcopy | hmerged | hrelated
    · have hoff := h.oldest t u v hcopy
      rcases hyields' with hcopy' | hmerged' | hrelated'
      · exact hcopy.not_copy hids hcopy'
      · exact hoff.1 hmerged'
      · exact hoff.2 hrelated'
    · have hoff := h.target t u v hmerged
      rcases hyields' with hcopy' | ⟨sim', hsim', hmerged'⟩ | hrelated'
      · exact hoff.1 hcopy'
      · obtain ⟨sim, hsim, hmerged⟩ := hmerged
        obtain rfl := Except.ok.inj (hsim.symm.trans hsim')
        exact hmerged.not_merged hids hmerged'
      · exact hoff.2 hrelated'
    · have hoff := h.better t u v hrelated
      rcases hyields' with hcopy' | hmerged' | hrelated'
      · exact hoff.1 hcopy'
      · exact hoff.2.1 hmerged'
      · exact hoff.2.2 hrelated'
  · intro h
    constructor
    case moved => exact fun t u hyields => (h t u hyields).1
    case oldest =>
      intro t u v hcopy
      have hstays := (h t u (.inl hcopy)).2 v
      exact ⟨fun hmerged => hstays (.inr (.inl hmerged)),
        fun hrelated => hstays (.inr (.inr hrelated))⟩
    case target =>
      intro t u v hmerged
      have hstays := (h t u (.inr (.inl hmerged))).2 v
      exact ⟨fun hcopy => hstays (.inl hcopy), fun hrelated => hstays (.inr (.inr hrelated))⟩
    case better =>
      intro t u v hrelated
      have hstays := (h t u (.inr (.inr hrelated))).2 v
      exact ⟨fun hcopy => hstays (.inl hcopy), fun hmerged => hstays (.inr (.inl hmerged)),
        fun hrelated' => hstays (.inr (.inr hrelated'))⟩

variable (host motor) in
theorem correlatas_propose (hids : (abertas.map Task.id).Nodup) :
    Proposes (violacoesDeCorrelatas host abertas motor).erros (Merged host motor abertas) ∧
      Proposes (violacoesDeCorrelatas host abertas motor).avisos (Related host motor abertas) := by
  cases motor with
  | error erro =>
    have hnone : ∀ {r : Task → Task → Prop}, (∀ t u, ¬ r t u) → Proposes [] r := fun hr =>
      ⟨fun v hv => absurd hv List.not_mem_nil, fun t u h => absurd h (hr t u)⟩
    refine ⟨hnone ?_, hnone ?_⟩
    · rintro t u ⟨sim, heq, -⟩
      cases heq
    · rintro t u ⟨sim, heq, -⟩
      cases heq
  | ok sim =>
    have hmotor : ∀ r : Similarity → Task → Task → Prop,
        (fun t u => ∃ sim', Except.ok sim = (.ok sim' : Except String Similarity) ∧ r sim' t u) =
          r sim := by
      intro r
      funext t u
      simp
    unfold Merged Related
    rw [hmotor (MergedInto host · abertas), hmotor (RelatedTo host · abertas)]
    exact ⟨erros_propose hids, avisos_propose hids⟩

/-- What a run proposes: to archive what is stalled, and the tasks that yield. -/
theorem verificar_ok {tasks : List Task} {res : Resultado}
    (hids : ((tasks.filter isOpen).map Task.id).Nodup)
    (h : verificar host limites motor tasks = .ok res) :
    ∃ deIdade vs, violacoesDeIdade host limites (tasks.filter isOpen) = .ok deIdade ∧
      (∀ v, v ∈ res.erros ++ res.avisos ↔ v ∈ deIdade ∨ v ∈ vs) ∧
        Proposes vs (Yields host motor (tasks.filter isOpen)) := by
  unfold verificar at h
  cases hidade : violacoesDeIdade host limites (tasks.filter isOpen) with
  | error e => simp [hidade, bind, Except.bind] at h
  | ok deIdade =>
    simp only [hidade, bind, Except.bind, pure, Except.pure, Except.ok.injEq] at h
    obtain ⟨hmerged, hrelated⟩ := correlatas_propose host motor hids
    refine ⟨deIdade, _, rfl, fun v => ?_,
      (violacoesDeDuplicata_proposes (hids.of_map _)).append (hmerged.append hrelated)⟩
    rw [← h]
    simp only [List.mem_append, or_assoc]

theorem jointlyApplicable_iff (board : Board) {res : Resultado}
    (h : verificar host limites motor board.rows = .ok res) :
    JointlyApplicable res ↔ Settled host limites motor (board.rows.filter isOpen) := by
  have hids : ((board.rows.filter isOpen).map Task.id).Nodup :=
    board.nodup.sublist (List.filter_sublist.map _)
  obtain ⟨deIdade, vs, hidade, hall, hproposes⟩ := verificar_ok hids h
  obtain ⟨hnone, harchived⟩ := mem_violacoesDeIdade hidade
  rw [settled_iff (hids.of_map _)]
  constructor
  · intro hjoint t u hyields
    obtain ⟨v, hv, -, hkept⟩ := hproposes.complete t u hyields
    have hkeeps := hjoint v ((hall v).mpr (.inr hv))
    constructor
    · intro hstalled
      obtain ⟨w, hw, hid⟩ := (harchived u.id).mpr ⟨u, hstalled, rfl⟩
      exact hkeeps w ((hall w).mpr (.inl hw)) (hid ▸ hkept)
    · intro s hyields'
      obtain ⟨w, hw, hid, -⟩ := hproposes.complete u s hyields'
      exact hkeeps w ((hall w).mpr (.inr hw)) (hid ▸ hkept)
  · intro hstays v hv w hw hkept
    rcases (hall v).mp hv with hv | hv
    · exact absurd ((hnone v hv).symm.trans hkept) (by simp)
    · obtain ⟨t, u, hyields, -, hmantem⟩ := hproposes.sound v hv
      have hid : w.taskId = u.id := Option.some.inj (hkept.symm.trans hmantem)
      have hu := hyields.mem.2
      rcases (hall w).mp hw with hw | hw
      · obtain ⟨s, hstalled, hs⟩ := (harchived w.taskId).mp ⟨w, hw, rfl⟩
        obtain rfl := List.inj_on_of_nodup_map hids hstalled.1 hu (hs.trans hid)
        exact (hstays t s hyields).1 hstalled
      · obtain ⟨s, r, hyields', hs, -⟩ := hproposes.sound w hw
        obtain rfl := List.inj_on_of_nodup_map hids hyields'.mem.1 hu (hs.symm.trans hid)
        exact (hstays t s hyields).2 r hyields'

end Run

/-! ## A copy that is further along -/

/-- Labels in lower case as they are, and no dates. -/
def plainHost : Host where
  rt := { numberText := fun _ => "", lowerCase := id, parseDate := fun _ => none
          isoDay := fun _ => none }
  toNumber := fun _ => none
  collation := CodeGraph.byCodePoint

/-- The labels have the same words. -/
def sameWords : Similarity where
  allPairs := fun _ _ => []
  scoreIndexed := fun _ _ _ => 1
  findSimilar := fun _ _ => []
  obsoleteWord := fun _ => none
  localeLe := fun a b => decide (a ≤ b)

def pageTask (id label phase : String) (createdAt : ℤ) : Task :=
  { id, label, status := .pending, createdAt := some createdAt, updatedAt := some createdAt
    context := { metadata := some [("phase", .string phase)] } }

def copies : List Task :=
  [pageTask "a1" "publicar pagina gateway" "todo" 1, pageTask "a2" "publicar pagina gateway" "built" 2]

def similar : List Task := copies ++ [pageTask "b" "deploy da pagina gateway" "todo" 3]

def hour : Limites := { now := 3600 }

/-- Of each suggestion the task that goes and the one that is kept. -/
def suggested (res : Resultado) : List (String × Option String) :=
  (res.erros ++ res.avisos).map fun v => (v.taskId, v.mantem)

theorem jointlyApplicable_suggested (res : Resultado) :
    JointlyApplicable res ↔ ∀ p ∈ suggested res, ∀ q ∈ suggested res, p.2 ≠ some q.1 := by
  simp only [JointlyApplicable, suggested, List.forall_mem_map]

theorem exists_run {run : Except String Resultado} {pairs : List (String × Option String)}
    (h : run.map suggested = .ok pairs) : ∃ res, run = .ok res ∧ suggested res = pairs := by
  cases run with
  | error e => cases h
  | ok res => exact ⟨res, rfl, Except.ok.inj h⟩

def copiesBoard : Board where
  rows := copies
  nodup := by decide
  parents := by decide

/-- Two copies alone. -/
theorem copies_settled : ∃ res, verificar plainHost hour (.ok sameWords) copiesBoard.rows = .ok res ∧
    Settled plainHost hour (.ok sameWords) (copiesBoard.rows.filter isOpen) := by
  have hrun : (verificar plainHost hour (.ok sameWords) copiesBoard.rows).map suggested =
      .ok [("a2", some "a1")] := by
    decide +kernel
  obtain ⟨res, hres, hpairs⟩ := exists_run hrun
  refine ⟨res, hres, (jointlyApplicable_iff copiesBoard hres).mp ?_⟩
  rw [jointlyApplicable_suggested, hpairs]
  decide

def similarBoard : Board where
  rows := similar
  nodup := by decide
  parents := by decide

/-- The copy is to be archived, and the third task to be merged into it. -/
theorem similar_contradictory : ∃ res,
    verificar plainHost hour (.ok sameWords) similarBoard.rows = .ok res ∧
      suggested res = [("a2", some "a1"), ("b", some "a2")] ∧ ¬ JointlyApplicable res := by
  have hrun : (verificar plainHost hour (.ok sameWords) similarBoard.rows).map suggested =
      .ok [("a2", some "a1"), ("b", some "a2")] := by
    decide +kernel
  obtain ⟨res, hres, hpairs⟩ := exists_run hrun
  refine ⟨res, hres, hpairs, ?_⟩
  rw [jointlyApplicable_suggested, hpairs]
  decide

end TasklogHygiene
end Batiste
