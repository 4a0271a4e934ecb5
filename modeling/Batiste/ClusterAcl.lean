import Batiste.CodeGraph
import Batiste.ScopedHandler

/-! `ClusterAclMatcher`: the paths that a policy allows, and the capabilities that rules about the
clusters of a graph deny on them. -/
namespace Batiste
namespace Scope

open CodeGraph

inductive ClusterCapability
  | read
  | write
  | execute
  deriving DecidableEq, Repr

def ClusterCapability.text : ClusterCapability → String
  | .read => "read"
  | .write => "write"
  | .execute => "execute"

/-- The rule's glob is over the label of a cluster. -/
structure ClusterAclRule where
  cluster : String
  allow : Option (List ClusterCapability) := none
  deny : Option (List ClusterCapability) := none

structure ResolvedCluster where
  id : String
  label : String
  deriving DecidableEq, Repr

inductive Decision
  | allow
  | deny
  | abstain
  deriving DecidableEq, Repr

structure ClusterAclDecision where
  decision : Decision
  reason : Option String := none
  cluster : Option ResolvedCluster

/-- `ClusterAclMatcher`; no rules is the empty list. -/
structure ClusterAclMatcher where
  policy : AccessPolicy
  graph : Option Graph := none
  rules : List ClusterAclRule := []

/-! `isMatch` is `micromatch.isMatch` with `dot: true`, and `isMatchLabel` without it. -/

variable (isMatch : GlobEngine) (isMatchLabel : String → String → Bool)

namespace ClusterAclMatcher

variable (matcher : ClusterAclMatcher)

def isPathAllowed (filePath : String) : Bool := isAllowed isMatch matcher.policy filePath

def resolveCluster (filePath : String) : Option ResolvedCluster := do
  let graph ← matcher.graph
  let node ← graph.findByPath filePath
  let cId ← (graph.clusterOf node.id).filter fun cId => cId ≠ ""
  let c ← graph.cluster cId
  return ⟨c.id, c.label⟩

/-- The rules one after another, with whether one of them has allowed the capability. -/
def checkRules (cluster : ResolvedCluster) (capability : ClusterCapability) :
    List ClusterAclRule → Bool → ClusterAclDecision
  | [], allowed =>
    if allowed then { decision := .allow, cluster := some cluster }
    else { decision := .allow, cluster := some cluster }
  | rule :: rules, allowed =>
    if ¬ isMatchLabel cluster.label rule.cluster then checkRules cluster capability rules allowed
    else if capability ∈ rule.deny.getD [] then
      { decision := .deny
        reason := some ("cluster '" ++ cluster.label ++ "' denies '" ++ capability.text ++
          "' via rule '" ++ rule.cluster ++ "'")
        cluster := some cluster }
    else checkRules cluster capability rules
      (allowed || decide (capability ∈ rule.allow.getD []))

def authorize (filePath : String) (capability : ClusterCapability) : ClusterAclDecision :=
  if ¬ isAllowed isMatch matcher.policy filePath then
    { decision := .deny
      reason := some "path denied by base scope policy"
      cluster := matcher.resolveCluster filePath }
  else
    match matcher.resolveCluster filePath with
    | none => { decision := .allow, cluster := none }
    | some cluster =>
      if matcher.rules.length = 0 then { decision := .allow, cluster := some cluster }
      else checkRules isMatchLabel cluster capability matcher.rules false

def filter (paths : List String) (capability : ClusterCapability) : List String :=
  paths.filter fun p =>
    (matcher.authorize isMatch isMatchLabel p capability).decision = .allow

/-! ## When a decision is to deny -/

/-- A rule about the cluster of the file with this path denies the capability. -/
def Denies (filePath : String) (capability : ClusterCapability) : Prop :=
  ∃ cluster, matcher.resolveCluster filePath = some cluster ∧
    ∃ rule ∈ matcher.rules, isMatchLabel cluster.label rule.cluster = true ∧
      capability ∈ rule.deny.getD []

theorem checkRules_decision (cluster : ResolvedCluster) (capability : ClusterCapability)
    (rules : List ClusterAclRule) (allowed : Bool) :
    (checkRules isMatchLabel cluster capability rules allowed).decision =
      if rules.any fun rule => isMatchLabel cluster.label rule.cluster &&
        decide (capability ∈ rule.deny.getD []) then .deny else .allow := by
  induction rules generalizing allowed with
  | nil => cases allowed <;> rfl
  | cons rule rules ih =>
    rw [checkRules, List.any_cons]
    by_cases hmatch : isMatchLabel cluster.label rule.cluster = true
    · by_cases hdeny : capability ∈ rule.deny.getD []
      · simp [hmatch, hdeny]
      · rw [if_neg (not_not.mpr hmatch), if_neg hdeny, ih]
        simp [hdeny]
    · rw [if_pos hmatch, ih]
      simp [hmatch]

/-- A path that the policy allows is denied exactly when a rule about its cluster denies. -/
theorem authorize_allowed {filePath : String} (capability : ClusterCapability)
    (h : isAllowed isMatch matcher.policy filePath = true) :
    (matcher.authorize isMatch isMatchLabel filePath capability).decision = .deny ↔
      matcher.Denies isMatchLabel filePath capability := by
  rw [authorize, if_neg (not_not.mpr h), Denies]
  cases hcluster : matcher.resolveCluster filePath with
  | none => simp
  | some cluster =>
    dsimp only
    split
    case isTrue hnone =>
      simp [List.length_eq_zero_iff.mp hnone]
    case isFalse =>
      rw [checkRules_decision]
      simp

theorem authorize_denied {filePath : String} (capability : ClusterCapability)
    (h : isAllowed isMatch matcher.policy filePath = false) :
    (matcher.authorize isMatch isMatchLabel filePath capability).decision = .deny := by
  rw [authorize, if_pos (by simp [h])]

/-- The matcher never abstains. -/
theorem authorize_cases (filePath : String) (capability : ClusterCapability) :
    (matcher.authorize isMatch isMatchLabel filePath capability).decision = .allow ∨
      (matcher.authorize isMatch isMatchLabel filePath capability).decision = .deny := by
  unfold authorize
  split
  · exact Or.inr rfl
  · cases matcher.resolveCluster filePath with
    | none => exact Or.inl rfl
    | some cluster =>
      dsimp only
      split
      · exact Or.inl rfl
      · rw [checkRules_decision]
        split
        · exact Or.inr rfl
        · exact Or.inl rfl

/-- Without a graph the matcher decides as its policy does. -/
theorem authorize_no_graph (filePath : String) (capability : ClusterCapability)
    (h : matcher.graph = none) :
    (matcher.authorize isMatch isMatchLabel filePath capability).decision =
      if matcher.isPathAllowed isMatch filePath then .allow else .deny := by
  have hnone : matcher.resolveCluster filePath = none := by rw [resolveCluster, h]; rfl
  rw [authorize, hnone, isPathAllowed]
  cases isAllowed isMatch matcher.policy filePath <;> rfl

/-- What the filter keeps is allowed by the policy and denied by no rule. -/
theorem mem_filter_iff (paths : List String) (capability : ClusterCapability) (p : String) :
    p ∈ matcher.filter isMatch isMatchLabel paths capability ↔
      p ∈ paths ∧ isAllowed isMatch matcher.policy p = true ∧
        ¬ matcher.Denies isMatchLabel p capability := by
  rw [filter, List.mem_filter, decide_eq_true_iff]
  refine and_congr_right fun _ => ?_
  have hcases := matcher.authorize_cases isMatch isMatchLabel p capability
  cases hbase : isAllowed isMatch matcher.policy p with
  | false =>
    rw [matcher.authorize_denied isMatch isMatchLabel capability hbase]
    simp
  | true =>
    rw [← matcher.authorize_allowed isMatch isMatchLabel capability hbase]
    rcases hcases with h | h <;> simp [h]

/-! ## The two spellings of a path -/

/-- Neither empty nor spelled with `./`, and short enough to be spelled so. -/
structure Plain (p : String) : Prop where
  nonempty : utf16Length p ≠ 0
  bare : ['.', '/'].isPrefixOf p.toList = false
  short : utf16Length p + 2 ≤ maxPathLength

theorem utf16Length_dotSlash (p : String) : utf16Length ("./" ++ p) = utf16Length p + 2 := by
  rw [utf16Length, utf16Length, String.toList_append, List.map_append, List.sum_append, add_comm]
  rfl

/-- The policy decides the same on both spellings of a plain path. -/
theorem isAllowed_dotSlash (policy : AccessPolicy) {p : String} (h : Plain p) :
    isAllowed isMatch policy ("./" ++ p) = isAllowed isMatch policy p := by
  have hlist : ("./" ++ p).toList = '.' :: '/' :: p.toList := String.toList_append
  have hlong : ¬ (utf16Length ("./" ++ p) = 0 ∨ utf16Length ("./" ++ p) > maxPathLength) := by
    rw [utf16Length_dotSlash]
    have := h.short
    omega
  have hshort : ¬ (utf16Length p = 0 ∨ utf16Length p > maxPathLength) := by
    have := h.nonempty
    have := h.short
    omega
  have hnul : ('.' :: '/' :: p.toList).contains (Char.ofNat 0) =
      p.toList.contains (Char.ofNat 0) := by
    simp only [List.contains_cons]
    rfl
  have hprefix : ['.', '/'].isPrefixOf ('.' :: '/' :: p.toList) = true := rfl
  unfold isAllowed
  rw [if_neg hlong, if_neg hshort, hlist, hnul, hprefix, h.bare]
  simp only [if_true, List.drop_succ_cons, List.drop_zero, String.ofList_toList,
    Bool.false_eq_true, if_false]

/-- Both spellings are denied the same capabilities: by the rules where the policy allows both,
and all of them where it allows one. -/
def SameDenials (p : String) : Prop :=
  match isAllowed isMatch matcher.policy p, isAllowed isMatch matcher.policy ("./" ++ p) with
  | true, true => ∀ capability,
      matcher.Denies isMatchLabel p capability ↔ matcher.Denies isMatchLabel ("./" ++ p) capability
  | true, false => ∀ capability, matcher.Denies isMatchLabel p capability
  | false, true => ∀ capability, matcher.Denies isMatchLabel ("./" ++ p) capability
  | false, false => True

theorem decision_eq_iff (p q : String) (capability : ClusterCapability) :
    (matcher.authorize isMatch isMatchLabel p capability).decision =
        (matcher.authorize isMatch isMatchLabel q capability).decision ↔
      ((matcher.authorize isMatch isMatchLabel p capability).decision = .deny ↔
        (matcher.authorize isMatch isMatchLabel q capability).decision = .deny) := by
  have hp := matcher.authorize_cases isMatch isMatchLabel p capability
  have hq := matcher.authorize_cases isMatch isMatchLabel q capability
  rcases hp with hp | hp <;> rcases hq with hq | hq <;> simp [hp, hq]

theorem authorize_dotSlash_iff (p : String) :
    (∀ capability, (matcher.authorize isMatch isMatchLabel p capability).decision =
        (matcher.authorize isMatch isMatchLabel ("./" ++ p) capability).decision) ↔
      matcher.SameDenials isMatch isMatchLabel p := by
  simp only [decision_eq_iff, SameDenials]
  have hallow := fun q capability =>
    @authorize_allowed isMatch isMatchLabel matcher q capability
  have hdeny := fun q capability =>
    @authorize_denied isMatch isMatchLabel matcher q capability
  split
  case h_1 hp hq => simp only [hallow _ _ hp, hallow _ _ hq]
  case h_2 hp hq => simp only [hallow _ _ hp, hdeny _ _ hq, iff_true]
  case h_3 hp hq => simp only [hdeny _ _ hp, hallow _ _ hq, true_iff]
  case h_4 hp hq => simp only [hdeny _ _ hp, hdeny _ _ hq, implies_true]

/-- Where the graph knows no file by the second spelling of a plain path, the spellings differ
exactly when a rule denies something to the cluster of the path. -/
theorem sameDenials_iff_undenied {p : String} (hplain : Plain p)
    (hallowed : isAllowed isMatch matcher.policy p = true)
    (hunknown : matcher.resolveCluster ("./" ++ p) = none) :
    matcher.SameDenials isMatch isMatchLabel p ↔
      ∀ capability, ¬ matcher.Denies isMatchLabel p capability := by
  have hnone : ∀ capability, ¬ matcher.Denies isMatchLabel ("./" ++ p) capability := by
    rintro capability ⟨cluster, hcluster, -⟩
    rw [hunknown] at hcluster
    cases hcluster
  simp only [SameDenials, isAllowed_dotSlash isMatch matcher.policy hplain, hallowed, hnone,
    iff_false]

/-- A file of the cluster `auth/`, to which a rule denies writing. -/
def authMatcher : ClusterAclMatcher where
  policy := { name := "p", allowedPaths := ["**"], deniedPaths := [], maxDepth := 5 }
  graph := some
    { g := ⟨[⟨"n", .file, "login.ts", some "auth/login.ts", []⟩], [], by decide,
        CodeGraph.Store.empty.edges_nodup, by decide⟩
      clustersById := [("c", ⟨"c", "auth/", ["n"], none⟩)]
      membership := [("n", "c")]
      sortedNodeIds := ["n"]
      sortedNodeIds_eq := rfl }
  rules := [⟨"auth/**", none, some [.write]⟩]

theorem dotSlash_bypasses :
    (authMatcher.authorize (fun _ patterns => patterns.contains "**")
        (fun label glob => label == "auth/" && glob == "auth/**")
        "auth/login.ts" .write).decision = .deny ∧
      (authMatcher.authorize (fun _ patterns => patterns.contains "**")
        (fun label glob => label == "auth/" && glob == "auth/**")
        ("./" ++ "auth/login.ts") .write).decision = .allow := by
  decide

end ClusterAclMatcher
end Scope
end Batiste
