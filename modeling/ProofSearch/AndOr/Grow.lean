import ProofSearch.AndOr.Cluster
import ProofSearch.AndOr.Settle
import ProofSearch.Error

/-!
# Adding rule applications

A rule application is added below its goal with its subgoals grouped into clusters.  If the rule
assigned variables on which goals elsewhere in the enclosing clusters depend, those goals are
copied: the copy has the instantiated type, the old goal's variable is assigned to the copy, and
the copy becomes a subgoal of the application, so that proving the application still accounts for
it.  An application without subgoals is proven at once.

The tree is changed in place, node by node, and what has been changed stays when a later step fails.
-/

namespace ProofSearch

/-- All that is recorded of a rule application. -/
structure NewApplication where
  parent : GoalId
  rule : AppliedRule
  post : Snapshot
  goals : List Var
  introduced : VarSet
  assigned : VarSet
  probability : Percent
  /-- The branch state of the new subgoals. -/
  branch : BranchState
  iteration : Nat

/-- An added application with its new goals in cluster order, copies included. -/
structure AddedApplication where
  application : ApplicationId
  goals : List GoalId
deriving DecidableEq, Repr

namespace Tree

/-! ## Dependent siblings -/

/-- Whether a goal needs a copy once the variables in `assigned` are assigned in `post`. -/
def needsCopy (post : Context) (assigned : VarSet) (goal : Goal) : Bool :=
  !goal.irrelevant && !goal.state.isProven && !post.isAssigned goal.var
    && !goal.vars.disjoint assigned

/-- The goals beside a path that need a copy, from the start of the path upwards.  A variable is
dropped above the application that introduced it, and the walk ends when none is left. -/
def dependents (t : Tree) (post : Context) : List Level → VarSet → List GoalId
  | [], _ => []
  | ⟨g, c, above⟩ :: path, assigned =>
    if assigned.isEmpty then []
    else
      let here := (t.cluster c).goals.filter fun s =>
        s ≠ g && needsCopy post assigned (t.goal s)
      match above with
      | none => here
      | some r =>
        here ++ t.dependents post path (assigned.filter (· ∉ (t.application r).introduced))

/-- A goal, its variable and the variable of its copy. -/
structure GoalCopy where
  source : GoalId
  old : Var
  copy : Var
deriving DecidableEq, Repr

/-- Copies goals one after the other in the current state. -/
def copyGoals (t : Tree) : List GoalId → SolverM MetavarError (List GoalCopy)
  | [] => return []
  | g :: rest => do
    let old := (t.goal g).var
    let type ← Solver.goalType old
    let hyps ← Solver.goalHyps old
    let copy ← Solver.mkGoal type hyps
    Solver.assign old (.var copy)
    return ⟨g, old, copy⟩ :: (← t.copyGoals rest)

/-- An application with the dependent siblings copied into its post-state. -/
def carrySiblings (t : Tree) (new : NewApplication) :
    SolverM SearchError (NewApplication × List GoalCopy) := do
  let siblings := t.dependents new.post.context (t.path new.parent) new.assigned
  if siblings.isEmpty then
    return (new, [])
  else
    Solver.restore new.post
    let copies ← (t.copyGoals siblings).adapt .metavar
    let post := (← get).state
    return ({ new with
      post
      goals := new.goals ++ copies.map (·.copy)
      introduced := new.introduced.insertMany (copies.map (·.copy))
      assigned := new.assigned.insertMany (copies.map (·.old)) }, copies)

/-- The goal of the tree that a subgoal becomes. -/
def makeGoal (t : Tree) (new : NewApplication) (copies : List GoalCopy) (c : ClusterId)
    (s : Subgoal) : Goal :=
  { Goal.new c s.var s.deps with
    origin := match copies.find? (·.copy = s.var) with
      | some copy => .copied copy.source
      | none => .subgoal
    depth := (t.goal new.parent).depth + 1
    branch := new.branch
    addedIn := new.iteration
    probability := new.probability }

end Tree

/-! ## Changes in place -/

/-- A tree that is worked on, and the solver. -/
structure Site where
  solver : Solver
  tree : Tree

/-- A computation that changes a tree in place and may fail. -/
abbrev SiteM (α : Type) := ExceptT SearchError (StateM Site) α

namespace SiteM

def getTree : SiteM Tree := return (← get).tree

def modifyTree (f : Tree → Tree) : SiteM Unit :=
  modify fun site => { site with tree := f site.tree }

/-- Runs a computation on the solver that may fail. -/
def onSolverM {α : Type} (x : SolverM SearchError α) : SiteM α := fun site =>
  let (result, solver) := x.run.run site.solver
  (result, { site with solver })

/-- Adds an application's cluster, which has no goals yet. -/
def pushCluster (r : ApplicationId) : SiteM ClusterId := do
  let c : ClusterId := ⟨(← getTree).clusters.size⟩
  modifyTree fun t => { t with clusters := t.clusters.push ⟨some r, [], .unknown, false⟩ }
  return c

/-- Adds a goal and lists it in its cluster. -/
def pushGoal (goal : Goal) : SiteM GoalId := do
  let g : GoalId := ⟨(← getTree).goals.size⟩
  modifyTree fun t => { t with goals := t.goals.push goal }
  modifyTree (·.modifyCluster goal.cluster fun c => { c with goals := c.goals ++ [g] })
  return g

/-- Adds an application and lists it below its goal. -/
def pushApplication (node : Application) : SiteM ApplicationId := do
  let r : ApplicationId := ⟨(← getTree).applications.size⟩
  modifyTree fun t => { t with applications := t.applications.push node }
  modifyTree (·.modifyGoal node.parent fun goal =>
    { goal with applications := goal.applications ++ [r] })
  return r

/-- Adds goals one after the other.  A goal's dependencies are looked up when its turn comes. -/
def pushMembers (post : Context) (make : Subgoal → Goal) : List Var → SiteM (List GoalId)
  | [] => return []
  | x :: rest => do
    let deps ← onSolverM ((SolverM.orThrow (post.dependencies x)).adapt .metavar)
    let g ← pushGoal (make ⟨x, deps⟩)
    return g :: (← pushMembers post make rest)

/-- Adds clusters with their goals one after the other. -/
def pushClusters (post : Context) (r : ApplicationId) (make : ClusterId → Subgoal → Goal) :
    List (List Var) → SiteM (List ClusterId × List GoalId)
  | [] => return ([], [])
  | members :: rest => do
    let c ← pushCluster r
    let goals ← pushMembers post (make c) members
    let (clusters, later) ← pushClusters post r make rest
    return (c :: clusters, goals ++ later)

/-- Adds a rule application, with copies of the siblings that depend on what it assigned. -/
def addApplication (new : NewApplication) : SiteM AddedApplication := do
  let t ← getTree
  let (new, copies) ← onSolverM (t.carrySiblings new)
  let post := new.post.context
  let groups ← onSolverM ((SolverM.orThrow (post.clusterGoals new.goals)).adapt .metavar)
  let (clusters, goals) ← pushClusters post ⟨t.applications.size⟩ (t.makeGoal new copies)
    (groups.map fun members => members.map (·.var))
  let r ← pushApplication {
    parent := new.parent
    clusters
    state := .unknown
    irrelevant := false
    rule := new.rule
    post := new.post
    introduced := new.introduced
    assigned := new.assigned
    probability := new.probability }
  if goals.isEmpty then
    modifyTree (·.markApplicationProven r)
  return ⟨r, goals⟩

end SiteM

end ProofSearch
