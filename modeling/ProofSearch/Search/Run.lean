import ProofSearch.AndOr.Grow
import ProofSearch.Rule.Run
import ProofSearch.Search.Queue

/-!
# The state of a search

A search is given by the rules, the simplifier and the options.  While it runs it holds a solver,
the tree, the queue of goals, counters and a journal of the calls made.  All of it is still there
when a search ends with an error.
-/

namespace ProofSearch

/-- What a search is given. -/
structure Search where
  rules : RuleQuery
  simplifier : Simplifier
  options : Options
  /-- The number of steps after which a loop that no option bounds is cut off. -/
  fuel : Nat

/-- What a search holds while it runs. -/
structure Run where
  solver : Solver
  tree : Tree
  queue : GoalQueue
  stats : Stats
  iteration : Nat
  /-- The calls of rule procedures and of the simplifier, latest first. -/
  journal : List Call

/-- A computation on a running search that may end it with an error. -/
abbrev SearchM (α : Type) := ExceptT SearchError (StateM Run) α

namespace SearchM

def orThrow {α : Type} (e : Except SearchError α) : SearchM α := fun run => (e, run)

/-- Runs a computation on the solver. -/
def onSolver {α : Type} (x : StateM Solver α) : SearchM α := do
  let run ← get
  let (a, solver) := x.run run.solver
  set { run with solver }
  return a

/-- Runs a computation on the solver that may fail. -/
def onSolverM {α : Type} (x : SolverM SearchError α) : SearchM α := do
  orThrow (← onSolver x.run)

/-- Runs a computation on the tree and the solver.  What it has changed stays when it fails. -/
def onSite {α : Type} (x : SiteM α) : SearchM α := fun run =>
  let (result, site) := x.run.run ⟨run.solver, run.tree⟩
  (result, { run with solver := site.solver, tree := site.tree })

def getTree : SearchM Tree := return (← get).tree

def modifyTree (f : Tree → Tree) : SearchM Unit := modify fun run => { run with tree := f run.tree }

def modifyGoal (g : GoalId) (f : Goal → Goal) : SearchM Unit := modifyTree (·.modifyGoal g f)

def modifyStats (f : Stats → Stats) : SearchM Unit :=
  modify fun run => { run with stats := f run.stats }

def record (call : Call) : SearchM Unit :=
  modify fun run => { run with journal := call :: run.journal }

def pushGoal (g : GoalId) : SearchM Unit :=
  modify fun run => { run with queue := run.queue.push (.ofGoal g (run.tree.goal g)) }

def pushGoals (gs : List GoalId) : SearchM Unit :=
  modify fun run =>
    { run with queue := run.queue.pushAll (gs.map fun g => .ofGoal g (run.tree.goal g)) }

/-- The current state of the solver. -/
def getState : SearchM Snapshot := return (← get).solver.state

end SearchM

namespace Search

open SearchM

/-- Runs a rule from the state `pre`, records the call and counts it. -/
def runRule (search : Search) (r : Rule) (input : RuleInput) (pre : Snapshot) :
    SearchM RuleOutcome := do
  let result ← onSolver (r.call input pre)
  record (r.record input pre result)
  let outcome ← orThrow (r.examine pre search.options.checkRuleEffects result)
  modifyStats (·.recordRuleRun outcome.isSuccess)
  return outcome

/-- The instantiated type and hypotheses of a goal in the current state. -/
def describeGoal (x : Var) : SearchM (Term × LocalContext) := do
  let target ← onSolverM ((Solver.goalType x).adapt .metavar)
  let hyps ← onSolverM ((Solver.goalHyps x).adapt .metavar)
  return (target, hyps)

end Search

end ProofSearch
