import ProofSearch.Search.Run

/-!
# Normalization

A goal is normalized in rounds: norm rules with negative penalty, the simplifier, the other norm
rules.  Rounds are repeated until one of them changes nothing or closes the goal.  A goal is
normalized once; the result is kept in the tree.
-/

namespace ProofSearch

/-- The result of normalizing a goal. -/
inductive Normalized where
  | proven
  | normal (goal : Var) (state : Snapshot)
deriving DecidableEq

/-- What one phase of a round did. -/
inductive NormStep where
  | unchanged
  | changed (goal : Var)
  | proven
deriving DecidableEq, Repr

/-- The phases of a round. -/
inductive NormPhase where
  /-- Norm rules with negative penalty. -/
  | before
  | simplifier
  /-- Norm rules with penalty zero or more. -/
  | after
deriving DecidableEq, Repr

/-- How far normalization has come. -/
structure NormProgress where
  goal : Var
  branch : BranchState
  /-- The current round has changed the goal. -/
  changed : Bool
  proven : Bool
deriving DecidableEq

def NormProgress.apply (p : NormProgress) : NormStep → NormProgress
  | .unchanged => p
  | .changed x => { p with goal := x, changed := true }
  | .proven => { p with proven := true }

/-- Whether a rule belongs to a phase. -/
def Rule.inPhase (r : Rule) (phase : NormPhase) : Bool :=
  match r.priority, phase with
  | .norm penalty, .before => penalty < 0
  | .norm penalty, .after => 0 ≤ penalty
  | _, _ => false

/-- The one candidate of a norm rule, if the rule keeps to its contract: at most one subgoal, and no
assignment to a variable in `vars`. -/
def Rule.checkNorm (r : Rule) (vars : VarSet) : List Candidate → Except SearchError Candidate
  | [candidate] =>
    if 1 < candidate.goals.length then
      .error (.invalidNormRule r.name (.subgoals candidate.goals.length))
    else if !candidate.assigned.disjoint vars then
      .error (.invalidNormRule r.name .sharedAssignment)
    else .ok candidate
  | candidates => .error (.invalidNormRule r.name (.applications candidates.length))

namespace Search

open SearchM

/-- Tries norm rules on the goal `x` until one replaces or closes it.  A rule that leaves the goal
in place keeps its other effects. -/
def tryNormRules (search : Search) (vars : VarSet) (x : Var) (branch : BranchState) :
    List IndexMatch → SearchM (NormStep × BranchState)
  | [] => return (.unchanged, branch)
  | m :: rest => do
    let pre ← getState
    match ← search.runRule m.rule ⟨x, vars, m.locations, branch.get? m.rule.name⟩ pre with
    | .failed _ => search.tryNormRules vars x branch rest
    | .applied candidates value? =>
      let candidate ← orThrow (m.rule.checkNorm vars candidates)
      let branch := match value? with
        | some value => branch.update m.rule.name value
        | none => branch
      onSolver (Solver.restore candidate.post)
      match candidate.goals with
      | [] => return (.proven, branch)
      | next :: _ =>
        if next ≠ x then return (.changed next, branch)
        else search.tryNormRules vars x branch rest

/-- Runs the simplifier on a goal; a result that changes nothing is taken back. -/
def simplify (search : Search) (x : Var) : SearchM NormStep := do
  if !search.options.enableSimp then
    return .unchanged
  else
    let pre ← getState
    let result ← onSolver (search.simplifier x).run
    record (.simplifier x (pre.target? x) result)
    match result with
    | .error e => throw (.simplifier x e)
    | .ok .solved => return .proven
    | .ok (.simplified next) =>
      if next ≠ x then
        return .changed next
      else
        onSolver (Solver.restore pre)
        return .unchanged
    | .ok .unchanged =>
      onSolver (Solver.restore pre)
      return .unchanged

/-- Runs one phase, unless the goal is closed already. -/
def normPhase (search : Search) (vars : VarSet) (p : NormProgress) (phase : NormPhase) :
    SearchM NormProgress := do
  if p.proven then
    return p
  else if phase = .simplifier then
    return p.apply (← search.simplify p.goal)
  else
    let (target, hyps) ← describeGoal p.goal
    let selected := (search.rules.norm target hyps).filter (·.rule.inPhase phase)
    let (step, branch) ← search.tryNormRules vars p.goal p.branch selected
    return { p with branch }.apply step

/-- Runs rounds until one changes nothing or closes the goal.  If `n` rounds are not enough the
search ends with the error `spent`. -/
def normRounds (search : Search) (vars : VarSet) (spent : Var → SearchError) :
    Nat → NormProgress → SearchM NormProgress
  | 0, p => throw (spent p.goal)
  | n + 1, p => do
    modifyStats fun s => { s with normRounds := s.normRounds + 1 }
    let phases := [NormPhase.before, .simplifier, .after]
    let p ← phases.foldlM (search.normPhase vars) { p with changed := false }
    if p.proven || !p.changed then return p else search.normRounds vars spent n p

/-- The rounds that a goal is given, and the error if they are not enough. -/
def normBudget (search : Search) : Nat × (Var → SearchError) :=
  match search.options.maxNormIterations with
  | 0 => (search.fuel, fun _ => .outOfFuel)
  | limit => (limit, fun x => .normIterationLimit x limit)

/-- Normalizes a goal that is not normal yet. -/
def normalizeAnew (search : Search) (g : GoalId) : SearchM Normalized := do
  let t ← getTree
  let goal := t.goal g
  onSolver (Solver.restore (t.preState g))
  let (rounds, spent) := search.normBudget
  let p ← search.normRounds goal.vars spent rounds ⟨goal.var, goal.branch, false, false⟩
  let post ← getState
  if p.proven then
    modifyGoal g fun goal => { goal with branch := p.branch, norm := .proven post }
    modifyStats fun s => { s with goalsProvenByNorm := s.goalsProvenByNorm + 1 }
    modifyTree (·.markProvenByNorm g)
    return .proven
  else
    modifyGoal g fun goal => { goal with branch := p.branch, norm := .normal p.goal post }
    return .normal p.goal post

/-- Normalizes a goal, or repeats the result that is kept in the tree. -/
def normalizeGoal (search : Search) (g : GoalId) : SearchM Normalized := do
  match ((← getTree).goal g).norm with
  | .normal x post => return .normal x post
  | .proven _ => return .proven
  | .notNormal => search.normalizeAnew g

end Search

end ProofSearch
