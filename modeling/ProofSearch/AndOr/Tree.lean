import ProofSearch.AndOr.Id
import ProofSearch.Rule.Index

/-!
# The search tree

An AND/OR tree of goals, rule applications and clusters.  A goal is proven by any one of its rule
applications, an application by all of its clusters together, and a cluster, whose goals share
variables, by any one of its goals.  Nodes are kept in the order in which they were made and refer
to each other by number.
-/

namespace ProofSearch

/-! ## Nodes -/

/-- What is known of a goal. -/
inductive GoalState where
  | unknown
  | provenByRule
  | provenByNorm
  | unprovable
deriving DecidableEq, Repr, Inhabited

namespace GoalState

def isUnknown (s : GoalState) : Bool := s = .unknown

def isProven (s : GoalState) : Bool := s = .provenByRule || s = .provenByNorm

def isUnprovable (s : GoalState) : Bool := s = .unprovable

@[simp] theorem isUnknown_iff {s : GoalState} : s.isUnknown = true ↔ s = .unknown := by
  simp [isUnknown]

@[simp] theorem isUnknown_eq_false {s : GoalState} : s.isUnknown = false ↔ s ≠ .unknown := by
  simp [isUnknown]

theorem isProven_iff {s : GoalState} :
    s.isProven = true ↔ s = .provenByRule ∨ s = .provenByNorm := by
  simp [isProven]

@[simp] theorem isUnprovable_iff {s : GoalState} : s.isUnprovable = true ↔ s = .unprovable := by
  simp [isUnprovable]

end GoalState

/-- What is known of a rule application or a cluster. -/
inductive NodeState where
  | unknown
  | proven
  | unprovable
deriving DecidableEq, Repr, Inhabited

namespace NodeState

def isUnknown (s : NodeState) : Bool := s = .unknown

def isProven (s : NodeState) : Bool := s = .proven

def isUnprovable (s : NodeState) : Bool := s = .unprovable

@[simp] theorem isUnknown_iff {s : NodeState} : s.isUnknown = true ↔ s = .unknown := by
  simp [isUnknown]

@[simp] theorem isUnknown_eq_false {s : NodeState} : s.isUnknown = false ↔ s ≠ .unknown := by
  simp [isUnknown]

@[simp] theorem isProven_iff {s : NodeState} : s.isProven = true ↔ s = .proven := by
  simp [isProven]

@[simp] theorem isUnprovable_iff {s : NodeState} : s.isUnprovable = true ↔ s = .unprovable := by
  simp [isUnprovable]

def text : NodeState → String
  | .unknown => "unknown"
  | .proven => "proven"
  | .unprovable => "unprovable"

end NodeState

/-- How far a goal is normalized. -/
inductive NormState where
  | notNormal
  | normal (goal : Var) (post : Snapshot)
  /-- Normalization closed the goal. -/
  | proven (post : Snapshot)
deriving DecidableEq, Inhabited

/-- Where a goal comes from. -/
inductive GoalOrigin where
  | root
  | subgoal
  /-- A copy of a sibling whose variables were assigned. -/
  | copied (source : GoalId)
deriving DecidableEq, Repr, Inhabited

/-- A rule that waits to be tried on a goal. -/
structure QueuedRule where
  rule : Rule
  locations : List MatchLocation
  probability : Percent
  kind : RuleKind

structure Goal where
  cluster : ClusterId
  /-- The goal's variable before normalization. -/
  var : Var
  norm : NormState
  /-- The open variables that the goal depends on and may share with its siblings. -/
  vars : VarSet
  branch : BranchState
  applications : List ApplicationId
  origin : GoalOrigin
  /-- The number of rule applications above. -/
  depth : Nat
  state : GoalState
  irrelevant : Bool
  /-- The goal was given up before all rules were tried. -/
  forced : Bool
  addedIn : Nat
  /-- The iteration of the latest expansion, 0 before the first. -/
  expandedIn : Nat
  /-- The rules to try are known. -/
  selected : Bool
  queue : List QueuedRule
  failedRules : List String
  probability : Percent
deriving Inhabited

namespace Goal

/-- A goal about which nothing is known yet. -/
def new (cluster : ClusterId) (var : Var) (vars : VarSet) : Goal where
  cluster := cluster
  var := var
  norm := .notNormal
  vars := vars
  branch := .empty
  applications := []
  origin := .subgoal
  depth := 0
  state := .unknown
  irrelevant := false
  forced := false
  addedIn := 0
  expandedIn := 0
  selected := false
  queue := []
  failedRules := []
  probability := .hundred

/-- The goal is still worth expanding. -/
def isActive (g : Goal) : Bool := g.state.isUnknown && !g.irrelevant && !g.forced

/-- No rule is left to try. -/
def isExhausted (g : Goal) : Bool := g.forced || (g.selected && g.queue.isEmpty)

def isNormal (g : Goal) : Bool :=
  match g.norm with
  | .notNormal => false
  | .normal .. | .proven _ => true

def wasExpanded (g : Goal) : Bool := g.selected || !g.applications.isEmpty

/-- The goal's variable after normalization. -/
def normVar? (g : Goal) : Option Var :=
  match g.norm with
  | .normal x _ => some x
  | .notNormal | .proven _ => none

/-- The state after normalization. -/
def normPost? (g : Goal) : Option Snapshot :=
  match g.norm with
  | .normal _ post | .proven post => some post
  | .notNormal => none

end Goal

/-- One application of a rule to a goal. -/
structure Application where
  parent : GoalId
  clusters : List ClusterId
  state : NodeState
  irrelevant : Bool
  rule : AppliedRule
  /-- The state after the rule ran and dependent siblings were copied. -/
  post : Snapshot
  introduced : VarSet
  assigned : VarSet
  probability : Percent

instance : Inhabited Application :=
  ⟨⟨default, [], .unknown, false, ⟨"", .safe⟩, default, ∅, ∅, default⟩⟩

/-- Subgoals coupled through shared variables. -/
structure Cluster where
  /-- The rule application whose subgoals these are; none for the root. -/
  parent : Option ApplicationId
  goals : List GoalId
  state : NodeState
  irrelevant : Bool
deriving Inhabited

/-! ## Trees -/

/-- The nodes of a search, and the state in which it began. -/
structure Tree where
  goals : Array Goal
  applications : Array Application
  clusters : Array Cluster
  rootState : Snapshot
deriving Inhabited

namespace Tree

/-- The tree of a search that has not begun. -/
def ofGoal (goal : Var) (vars : VarSet) (state : Snapshot) : Tree where
  goals := #[{ Goal.new ⟨0⟩ goal vars with origin := .root }]
  applications := #[]
  clusters := #[⟨none, [⟨0⟩], .unknown, false⟩]
  rootState := state

def root : GoalId := ⟨0⟩

def rootCluster : ClusterId := ⟨0⟩

/-! ### Access

Numbers are given out by the tree itself; a number of another tree reads as a blank node. -/

def goal (t : Tree) (g : GoalId) : Goal := t.goals.getD g.index default

def application (t : Tree) (r : ApplicationId) : Application := t.applications.getD r.index default

def cluster (t : Tree) (c : ClusterId) : Cluster := t.clusters.getD c.index default

def modifyGoal (t : Tree) (g : GoalId) (f : Goal → Goal) : Tree :=
  { t with goals := t.goals.modify g.index f }

def modifyApplication (t : Tree) (r : ApplicationId) (f : Application → Application) : Tree :=
  { t with applications := t.applications.modify r.index f }

def modifyCluster (t : Tree) (c : ClusterId) (f : Cluster → Cluster) : Tree :=
  { t with clusters := t.clusters.modify c.index f }

def setGoalState (t : Tree) (g : GoalId) (s : GoalState) : Tree :=
  t.modifyGoal g ({ · with state := s })

def setApplicationState (t : Tree) (r : ApplicationId) (s : NodeState) : Tree :=
  t.modifyApplication r ({ · with state := s })

def setClusterState (t : Tree) (c : ClusterId) (s : NodeState) : Tree :=
  t.modifyCluster c ({ · with state := s })

/-! ### Queries -/

/-- The rule application that made a goal. -/
def parentApplication? (t : Tree) (g : GoalId) : Option ApplicationId :=
  (t.cluster (t.goal g).cluster).parent

/-- The state in which a goal was made. -/
def preState (t : Tree) (g : GoalId) : Snapshot :=
  match t.parentApplication? g with
  | some r => (t.application r).post
  | none => t.rootState

def isActive (t : Tree) (g : GoalId) : Bool := (t.goal g).isActive

def rootIsProven (t : Tree) : Bool := (t.goal root).state.isProven

def rootIsUnprovable (t : Tree) : Bool := (t.goal root).state.isUnprovable

/-- A step on the way from a goal to the root: the goal, its cluster and the application above. -/
structure Level where
  goal : GoalId
  cluster : ClusterId
  application : Option ApplicationId
deriving DecidableEq, Repr

/-- The first `n` levels from a goal towards the root. -/
def levels (t : Tree) : Nat → GoalId → List Level
  | 0, _ => []
  | n + 1, g =>
    let c := (t.goal g).cluster
    match (t.cluster c).parent with
    | none => [⟨g, c, none⟩]
    | some r => ⟨g, c, some r⟩ :: t.levels n (t.application r).parent

/-- The levels from a goal to the root.  A goal's parent was made before it, so there are at most
as many levels as goals made up to this one. -/
def path (t : Tree) (g : GoalId) : List Level := t.levels (g.index + 1) g

end Tree

end ProofSearch
