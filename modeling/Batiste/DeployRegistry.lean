import Mathlib.Logic.Relation
import Batiste.Climb
import Batiste.GitLog

/-! The deploys that `DEPLOYMENTS.md` registers, and the commits since the newest of them. -/
namespace Batiste
namespace DeployRegistry

open JsString GitLog

/-- What `git` answers of a history, whatever its shape: `HEAD`, the commits that a text names,
the ancestors, the short names and the log. -/
structure Git (C : Type*) where
  parents : C → List C
  head : C
  commit? : List Char → Option C
  isAncestor : C → C → Bool
  isAncestor_iff : ∀ a b,
    isAncestor a b = true ↔ Relation.ReflTransGen (fun parent c => parent ∈ parents c) a b
  short : C → List Char
  commit?_short : ∀ c, commit? (short c) = some c
  short_ne : ∀ c, short c ≠ []
  short_plain : ∀ c, ∀ x ∈ short c, x.isAlphanum = true
  subject : C → List Char
  subject_line : ∀ c, '\n' ∉ subject c
  log : C → C → List Char → List C
  log_range : ∀ since until_ path, ∀ c ∈ log since until_ path,
    isAncestor c until_ = true ∧ isAncestor c since = false

/-! ## The row of a product -/

def isNameChar (c : Char) : Bool := c.isAlphanum || c == '.' || c == '_' || c == '-'

/-- The first match of `/products\/[A-Za-z0-9._-]+/`. -/
def produtoCitado : List Char → Option (List Char)
  | [] => none
  | c :: cs =>
    match (c :: cs).dropPrefix? "products/".toList with
    | some rest =>
      if rest.takeWhile isNameChar = [] then produtoCitado cs
      else some ("products/".toList ++ rest.takeWhile isNameChar)
    | none => produtoCitado cs

/-- `produto.replace(/\/$/, "")` -/
def alvo (produto : List Char) : List Char :=
  if produto.getLast? = some '/' then produto.dropLast else produto

def linhaDoProduto (registro produto : List Char) : Option (List Char) :=
  (registro.splitOn '\n').find? fun l =>
    decide (l.head? = some '|') &&
      decide (produtoCitado ((((l.splitOn '|').map trim)[3]?).getD []) = some (alvo produto))

/-! ## The deploys cited in a row -/

/-- A match of `(?:commit|HEAD)\s+`([0-9a-f]{7,40})`` in any letter case, at the beginning. -/
def citado (cs : List Char) : Option (List Char) :=
  (afterKey "commit".toList cs <|> afterKey "HEAD".toList cs).bind fun rest =>
    if rest.takeWhile isSpace = [] then none
    else
      match rest.dropWhile isSpace with
      | '`' :: quoted =>
        let sha := quoted.takeWhile isHex
        if 7 ≤ sha.length ∧ sha.length ≤ 40 ∧ (quoted.drop sha.length).head? = some '`' then
          some sha
        else none
      | _ => none

/-- The matches in a text; two of them never overlap, so that each place is tried. -/
def citados (afterWord : Bool) : List Char → List (List Char)
  | [] => []
  | c :: cs =>
    let rest := citados (isWord c) cs
    if afterWord then rest
    else match citado (c :: cs) with
      | some sha => sha :: rest
      | none => rest

section Queries

variable {C : Type*} (G : Git C)

/-- `git merge-base --is-ancestor a b`; it fails where one of the two names no commit. -/
def Git.ancestral (a b : List Char) : Bool :=
  match G.commit? a, G.commit? b with
  | some a, some b => G.isAncestor a b
  | _, _ => false

/-- The commit exists and is an ancestor of `HEAD`. -/
def Git.naLinha (sha : List Char) : Bool :=
  match G.commit? sha with
  | some c => G.isAncestor c G.head
  | none => false

def Git.shas (linha : List Char) : List (List Char) :=
  (citados false linha).eraseDups.filter G.naLinha

/-- `git rev-parse --short`, trimmed -/
def Git.revParseShort (sha : List Char) : Option (List Char) :=
  (G.commit? sha).map fun c => trim (G.short c ++ ['\n'])

def Git.ultimoCommitDeploy (registro produto : List Char) : Option (List Char) :=
  (linhaDoProduto registro produto).bind fun linha =>
    match G.shas linha with
    | [] => none
    | first :: rest => G.revParseShort (Climb.climb G.ancestral first rest)

structure Pendente where
  sha : List Char
  assunto : List Char
  deriving DecidableEq, Repr

/-- `git log --format=%h\t%s <since>..HEAD -- <produto>`; it fails where `since` names no commit. -/
def Git.logText (since produto : List Char) : Option (List Char) :=
  (G.commit? since).map fun c => trim <|
    (G.log c G.head produto).flatMap fun listed =>
      G.short listed ++ '\t' :: G.subject listed ++ ['\n']

def Pendente.ofLine (l : List Char) : Pendente :=
  match l.splitOn '\t' with
  | sha :: r => ⟨sha, ['\t'].intercalate r⟩
  | [] => ⟨[], []⟩

inductive Resposta
  /-- The source returns `null`. -/
  | semRegistro
  | gitFalhou
  | pendentes (lista : List Pendente)
  deriving DecidableEq, Repr

def Git.commitsSemDeploy (produto : List Char) (deployCommit : Option (List Char)) : Resposta :=
  match deployCommit with
  | none => .semRegistro
  | some since =>
    if since = [] then .semRegistro
    else match G.logText since produto with
      | none => .gitFalhou
      | some out => .pendentes (if out = [] then [] else (out.splitOn '\n').map Pendente.ofLine)

end Queries

variable {C : Type*} {G : Git C}

/-! ## What is read back from the output of `git` -/

theorem notMem_short {c : C} {x : Char} (hx : x.isAlphanum = false) : x ∉ G.short c := fun h => by
  rw [G.short_plain c x h] at hx
  cases hx

/-- Where a text ends in no blank, only what follows it is trimmed. -/
theorem rdropWhile_append {word : List Char} (hword : word.rdropWhile isSpace = word)
    (rest : List Char) :
    ∃ tail, tail <+: rest ∧ (word ++ rest).rdropWhile isSpace = word ++ tail := by
  induction rest using List.reverseRecOn with
  | nil => exact ⟨[], List.prefix_refl [], by rw [List.append_nil, hword]⟩
  | append_singleton rest x ih =>
    rw [← List.append_assoc, List.rdropWhile_concat]
    split
    · obtain ⟨tail, htail, heq⟩ := ih
      exact ⟨tail, htail.trans (List.prefix_append rest [x]), heq⟩
    · exact ⟨rest ++ [x], List.prefix_refl _, List.append_assoc word rest [x]⟩

theorem rdropWhile_append_short (before : List Char) (c : C) :
    (before ++ G.short c).rdropWhile isSpace = before ++ G.short c := by
  rw [List.rdropWhile_eq_self_iff]
  intro hw
  rw [List.getLast_append_of_ne_nil _ (G.short_ne c),
    isSpace_of_alphanum (G.short_plain c _ (List.getLast_mem (G.short_ne c)))]
  exact Bool.false_ne_true

theorem dropWhile_short (c : C) (rest : List Char) :
    (G.short c ++ rest).dropWhile isSpace = G.short c ++ rest := by
  obtain ⟨x, word, hshort⟩ := List.exists_cons_of_ne_nil (G.short_ne c)
  have hx : isSpace x = false :=
    isSpace_of_alphanum (G.short_plain c x (hshort ▸ List.mem_cons_self))
  rw [hshort, List.cons_append, List.dropWhile_cons_of_neg (by rw [hx]; exact Bool.false_ne_true)]

theorem trim_short_newline (c : C) : trim (G.short c ++ ['\n']) = G.short c := by
  have hself := rdropWhile_append_short (G := G) [] c
  rw [List.nil_append] at hself
  rw [trim, dropWhile_short, List.rdropWhile_concat_pos _ _ _ (by decide), hself]

theorem ofLine_sha (c : C) {rest : List Char} (hrest : rest.head? = some '\t' ∨ rest = []) :
    (Pendente.ofLine (G.short c ++ rest)).sha = G.short c := by
  have htab : '\t' ∉ G.short c := notMem_short (by decide)
  rcases hrest with hrest | rfl
  · obtain ⟨subject, rfl⟩ : ∃ subject, rest = '\t' :: subject := by
      cases rest with
      | nil => cases hrest
      | cons x subject =>
        rw [List.head?_cons, Option.some.injEq] at hrest
        exact ⟨subject, by rw [hrest]⟩
    rw [Pendente.ofLine, List.splitOn_append_cons_self_of_not_mem htab]
  · rw [List.append_nil, Pendente.ofLine, List.splitOn_eq_singleton htab]

/-- A line of the log, also when its end has been trimmed away. -/
theorem ofLine_logLine {c : C} {tail : List Char} (h : tail <+: '\t' :: G.subject c) :
    (Pendente.ofLine (G.short c ++ tail)).sha = G.short c := by
  apply ofLine_sha
  cases tail with
  | nil => exact .inr rfl
  | cons x tail => exact .inl (by rw [List.head?_cons, (List.cons_prefix_cons.mp h).1])

/-- The trimmed log: its lines, the last one without its end. -/
theorem trim_log (init : List C) (last : C) :
    ∃ tail, tail <+: '\t' :: G.subject last ∧
      trim ((init ++ [last]).flatMap fun c => G.short c ++ '\t' :: G.subject c ++ ['\n']) =
        ((init.map fun c => G.short c ++ '\t' :: G.subject c).flatMap fun line => line ++ ['\n']) ++
          (G.short last ++ tail) := by
  set before := init.flatMap fun c => G.short c ++ '\t' :: G.subject c ++ ['\n'] with hbefore
  have hstart : (before ++ (G.short last ++ '\t' :: G.subject last ++ ['\n'])).dropWhile isSpace =
      before ++ (G.short last ++ '\t' :: G.subject last ++ ['\n']) := by
    cases init with
    | nil =>
      rw [hbefore, List.flatMap_nil, List.nil_append, List.append_assoc]
      exact dropWhile_short last _
    | cons c init =>
      rw [hbefore, List.flatMap_cons]
      simp only [List.append_assoc]
      exact dropWhile_short c _
  obtain ⟨tail, htail, heq⟩ :=
    rdropWhile_append (rdropWhile_append_short before last) ('\t' :: G.subject last)
  refine ⟨tail, htail, ?_⟩
  rw [List.flatMap_append, List.flatMap_singleton, trim, ← hbefore, hstart, ← List.append_assoc,
    ← List.append_assoc, List.rdropWhile_concat_pos _ _ _ (by decide), heq, List.append_assoc,
    List.flatMap_map]

/-- Every entry read from the log has the short name of a commit in it. -/
theorem mem_listed {cs : List C} {item : Pendente} {out : List Char}
    (hout : out = trim (cs.flatMap fun c => G.short c ++ '\t' :: G.subject c ++ ['\n']))
    (h : item ∈ if out = [] then [] else (out.splitOn '\n').map Pendente.ofLine) :
    ∃ c ∈ cs, item.sha = G.short c := by
  rcases List.eq_nil_or_concat cs with rfl | ⟨init, last, rfl⟩
  · rw [hout, List.flatMap_nil, if_pos (by rfl)] at h
    cases h
  · rw [List.concat_eq_append] at hout ⊢
    obtain ⟨tail, htail, heq⟩ := trim_log (G := G) init last
    have hplain : ∀ line ∈ init.map fun c => G.short c ++ '\t' :: G.subject c, '\n' ∉ line := by
      intro line hline
      obtain ⟨c, -, rfl⟩ := List.mem_map.mp hline
      have hsubject := G.subject_line c
      have hshort : '\n' ∉ G.short c := notMem_short (by decide)
      simp [hsubject, hshort]
    have hlast : '\n' ∉ G.short last ++ tail := by
      have hshort : '\n' ∉ G.short last := notMem_short (by decide)
      have hsubject := G.subject_line last
      rw [List.mem_append]
      rintro (h | h)
      · exact hshort h
      · have := htail.subset h
        simp [hsubject] at this
    have hitem : item ∈ (out.splitOn '\n').map Pendente.ofLine := by
      split at h
      · cases h
      · exact h
    rw [hout, heq, splitOn_lines hplain hlast, List.map_append, List.mem_append, List.map_map,
      List.map_singleton, List.mem_singleton] at hitem
    rcases hitem with hitem | rfl
    · obtain ⟨c, hc, rfl⟩ := List.mem_map.mp hitem
      exact ⟨c, List.mem_append_left _ hc, ofLine_logLine (List.prefix_refl _)⟩
    · exact ⟨last, List.mem_append_right init List.mem_cons_self, ofLine_logLine htail⟩

/-! ## The deploy that is chosen -/

theorem ancestral_iff {a b : List Char} : G.ancestral a b = true ↔
    ∃ c d, G.commit? a = some c ∧ G.commit? b = some d ∧ G.isAncestor c d = true := by
  unfold Git.ancestral
  cases ha : G.commit? a with
  | none => simp
  | some c =>
    cases hb : G.commit? b with
    | none => simp
    | some d => simp

theorem isAncestor_trans {c d e : C} (hcd : G.isAncestor c d = true)
    (hde : G.isAncestor d e = true) : G.isAncestor c e = true := by
  rw [G.isAncestor_iff] at *
  exact hcd.trans hde

theorem ancestral_trans (x y z : List Char) (hxy : G.ancestral x y = true)
    (hyz : G.ancestral y z = true) : G.ancestral x z = true := by
  obtain ⟨c, d, hc, hd, hcd⟩ := ancestral_iff.mp hxy
  obtain ⟨d', e, hd', he, hde⟩ := ancestral_iff.mp hyz
  obtain rfl : d = d' := Option.some.inj (hd.symm.trans hd')
  exact ancestral_iff.mpr ⟨c, e, hc, he, isAncestor_trans hcd hde⟩

theorem commit_of_mem_shas {linha sha : List Char} (h : sha ∈ G.shas linha) :
    ∃ c, G.commit? sha = some c := by
  have hvalid := (List.mem_filter.mp h).2
  unfold Git.naLinha at hvalid
  cases hc : G.commit? sha with
  | none =>
    rw [hc] at hvalid
    cases hvalid
  | some c => exact ⟨c, rfl⟩

theorem ancestral_refl {linha : List Char} : ∀ sha ∈ G.shas linha, G.ancestral sha sha = true := by
  intro sha h
  obtain ⟨c, hc⟩ := commit_of_mem_shas h
  exact ancestral_iff.mpr ⟨c, c, hc, hc, (G.isAncestor_iff c c).mpr .refl⟩

theorem ancestral_short {sha x : List Char} {c : C} (hc : G.commit? sha = some c) :
    G.ancestral x (G.short c) = G.ancestral x sha := by
  unfold Git.ancestral
  rw [hc, G.commit?_short]

/-- The chosen deploy is the short name of where the fold over the cited ones ends. -/
theorem ultimoCommitDeploy_eq {registro produto linha first : List Char}
    {rest : List (List Char)} (hlinha : linhaDoProduto registro produto = some linha)
    (hshas : G.shas linha = first :: rest) :
    ∃ c, G.commit? (Climb.climb G.ancestral first rest) = some c ∧
      G.ultimoCommitDeploy registro produto = some (G.short c) := by
  have hmem : Climb.climb G.ancestral first rest ∈ G.shas linha := hshas ▸ Climb.climb_mem
  obtain ⟨c, hc⟩ := commit_of_mem_shas hmem
  refine ⟨c, hc, ?_⟩
  unfold Git.ultimoCommitDeploy
  rw [hlinha, Option.bind_some, hshas]
  simp only [Git.revParseShort, hc, Option.map_some, trim_short_newline]

/-- A listed commit is no ancestor of the deploy since which the log was asked. -/
theorem listed_not_below {produto since : List Char} {lista : List Pendente} {item : Pendente}
    (h : G.commitsSemDeploy produto (some since) = .pendentes lista) (hitem : item ∈ lista) :
    G.ancestral item.sha since = false := by
  unfold Git.commitsSemDeploy at h
  simp only at h
  split at h
  · cases h
  · cases hc : G.commit? since with
    | none =>
      simp only [Git.logText, hc, Option.map_none] at h
      cases h
    | some c =>
      simp only [Git.logText, hc, Option.map_some, Resposta.pendentes.injEq] at h
      obtain ⟨listed, hlisted, hsha⟩ := mem_listed rfl (h ▸ hitem)
      unfold Git.ancestral
      rw [hsha, G.commit?_short, hc]
      exact (G.log_range c G.head produto listed hlisted).2

/-- The chosen deploy stands above all valid ones of the row, and no listed commit below one of
them, just when the cited history has a newest commit. -/
theorem newest_deploy_iff (G : Git C) (registro produto : List Char) :
    (∀ linha, linhaDoProduto registro produto = some linha →
      ∀ newest, G.ultimoCommitDeploy registro produto = some newest →
        ∀ cited ∈ G.shas linha, G.ancestral cited newest = true ∧
          ∀ lista, G.commitsSemDeploy produto (some newest) = .pendentes lista →
            ∀ item ∈ lista, G.ancestral item.sha cited = false) ↔
      ∀ linha, linhaDoProduto registro produto = some linha → G.shas linha ≠ [] →
        ∃ greatest ∈ G.shas linha, ∀ cited ∈ G.shas linha,
          G.ancestral cited greatest = true := by
  refine forall_congr' fun linha => forall_congr' fun hlinha => ?_
  cases hshas : G.shas linha with
  | nil => simp
  | cons first rest =>
    obtain ⟨c, hc, hchosen⟩ := ultimoCommitDeploy_eq hlinha hshas
    have hrefl : ∀ sha ∈ first :: rest, G.ancestral sha sha = true := hshas ▸ ancestral_refl
    have habove := Climb.climb_above_iff ancestral_trans hrefl
    have hshort : ∀ x, G.ancestral x (G.short c) =
        G.ancestral x (Climb.climb G.ancestral first rest) := fun _ => ancestral_short hc
    rw [hchosen]
    simp only [ne_eq, List.cons_ne_nil, not_false_eq_true, forall_const]
    rw [← habove]
    constructor
    · intro h cited hcited
      rw [← hshort]
      exact (h _ rfl cited hcited).1
    · rintro h newest hnewest cited hcited
      obtain rfl := Option.some.inj hnewest
      have hcited := (hshort cited).trans (h cited hcited)
      refine ⟨hcited, fun lista hlista item hitem => ?_⟩
      -- below a cited commit it would be below the chosen one too
      rw [← Bool.not_eq_true]
      intro hbelow
      have hnot := listed_not_below hlista hitem
      rw [ancestral_trans _ _ _ hbelow hcited] at hnot
      cases hnot

/-- A root, two commits beside each other, and their merge. -/
def beside (a b : Fin 4) : Bool := a == b || a == 0 || b == 3

def nome (c : Fin 4) : List Char := [Char.ofNat (48 + c.val), '0', '0', '0', '0', '0', '0']

def merged : Git (Fin 4) where
  parents c := [[], [0], [0], [1, 2]].getD c.val []
  head := 3
  commit? t := [0, 1, 2, 3].find? fun c => nome c == t
  isAncestor := beside
  isAncestor_iff a b := by
    have hstep : ∀ a b c : Fin 4, beside a b = true → b ∈ [[], [0], [0], [1, 2]].getD c.val [] →
        beside a c = true := by decide
    constructor
    · intro h
      have hroot : ∀ c : Fin 4, Relation.ReflTransGen
          (fun parent c : Fin 4 => parent ∈ [[], [0], [0], [1, 2]].getD c.val []) 0 c := by
        intro c
        fin_cases c
        · exact .refl
        · exact .single (by decide)
        · exact .single (by decide)
        · exact .tail (.single (b := 1) (by decide)) (by decide)
      have hhead : ∀ c : Fin 4, Relation.ReflTransGen
          (fun parent c : Fin 4 => parent ∈ [[], [0], [0], [1, 2]].getD c.val []) c 3 := by
        intro c
        fin_cases c
        · exact hroot 3
        · exact .single (by decide)
        · exact .single (by decide)
        · exact .refl
      simp only [beside, Bool.or_eq_true, beq_iff_eq] at h
      rcases h with (rfl | rfl) | rfl
      · exact .refl
      · exact hroot b
      · exact hhead a
    · intro h
      induction h with
      | refl => simp [beside]
      | tail _ hparent ih => exact hstep a _ _ ih hparent
  short := nome
  commit?_short c := by fin_cases c <;> rfl
  short_ne c := List.cons_ne_nil _ _
  short_plain c := List.all_eq_true.mp (by fin_cases c <;> rfl)
  subject _ := ['x']
  subject_line := by decide
  log since until_ _ := [3, 2, 1, 0].filter fun c => beside c until_ && !beside c since
  log_range since until_ path c hc := by
    simpa using (List.mem_filter.mp hc).2

def linhaDemo : List Char :=
  ['|', '|', '|', 'p', 'r', 'o', 'd', 'u', 'c', 't', 's', '/', 'a', '|', 'H', 'E', 'A', 'D', ' ',
    '`', '1', '0', '0', '0', '0', '0', '0', '`', ' ', 'H', 'E', 'A', 'D', ' ', '`', '2', '0', '0',
    '0', '0', '0', '0', '`']

def demo : List Char := ['p', 'r', 'o', 'd', 'u', 'c', 't', 's', '/', 'a']

/-- Where two merged branches were deployed the first one cited is kept, and the other one is
listed as not deployed. -/
theorem merged_cited_listed :
    linhaDoProduto linhaDemo demo = some linhaDemo ∧
      merged.ultimoCommitDeploy linhaDemo demo = some (nome 1) ∧
      nome 2 ∈ merged.shas linhaDemo ∧
        merged.commitsSemDeploy demo (some (nome 1)) =
          .pendentes [⟨nome 3, ['x']⟩, ⟨nome 2, ['x']⟩] := by decide +kernel
end DeployRegistry
end Batiste
