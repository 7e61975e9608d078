import ProofSearch.Search.Normalize

/-!
# Expanding goals

An expanded goal is given up if it is too deep, normalized, and then handed to the rules.  The first
safe rule with a single application that leaves the shared variables alone is applied, and no other
rule is tried on the goal.  Safe rules that fail this test are postponed: they are tried later,
together with the tentative rules, one successful rule per expansion.
-/

namespace ProofSearch

/-- The probability under which a postponed safe rule is queued. -/
def postponedProbability : Percent := .ninety

/-- How an eagerly applied rule is recorded. -/
def Rule.eagerKind (r : Rule) : RuleKind :=
  match r.priority with
  | .safe _ .almostSafe => .almostSafe
  | _ => .safe

/-- The probability under which a selected rule is queued. -/
def Rule.queueProbability (r : Rule) : Percent :=
  match r.priority with
  | .tentative probability => probability
  | .norm _ | .safe .. => postponedProbability

namespace QueuedRule

/-- Greater probabilities first, then by name. -/
def le (a b : QueuedRule) : Bool :=
  ((compare b.probability a.probability).then (compare a.rule.name b.rule.name)).isLE

def ofMatch (m : IndexMatch) : QueuedRule :=
  ⟨m.rule, m.locations, m.rule.queueProbability, .tentative⟩

def postponed (m : IndexMatch) : QueuedRule :=
  ⟨m.rule, m.locations, postponedProbability, .postponedSafe⟩

end QueuedRule

namespace Search

open SearchM

/-- Adds a candidate as an application of the goal and queues its new goals. -/
def attach (g : GoalId) (rule : String) (kind : RuleKind) (candidate : Candidate)
    (probability : Percent) (value? : Option BranchValue) : SearchM Unit := do
  let run ← get
  let branch := (run.tree.goal g).branch
  let added ← onSite (SiteM.addApplication {
    parent := g
    rule := ⟨rule, kind⟩
    post := candidate.post
    goals := candidate.goals
    introduced := candidate.introduced
    assigned := candidate.assigned
    probability
    branch := match value? with
      | some value => branch.update rule value
      | none => branch
    iteration := run.iteration })
  pushGoals added.goals

/-- Runs a rule on the goal `g`, whose variable after normalization is `x`. -/
def runOnGoal (search : Search) (g : GoalId) (x : Var) (state : Snapshot) (r : Rule)
    (locations : List MatchLocation) : SearchM RuleOutcome := do
  let goal := (← getTree).goal g
  search.runRule r ⟨x, goal.vars, locations, goal.branch.get? r.name⟩ state

def noteFailedRule (g : GoalId) (r : Rule) : SearchM Unit :=
  modifyGoal g fun goal => { goal with failedRules := goal.failedRules ++ [r.name] }

/-! ## Safe rules -/

/-- The candidate to be applied at once: the only one, if it assigns none of the goal's
variables. -/
def eagerCandidate? (vars : VarSet) : List Candidate → Option Candidate
  | [candidate] => if candidate.assigned.disjoint vars then some candidate else none
  | _ => none

/-- Applies a safe rule, after which no other rule is tried on the goal. -/
def applySafe (g : GoalId) (r : Rule) (candidate : Candidate) (value? : Option BranchValue) :
    SearchM Unit := do
  attach g r.name r.eagerKind candidate ((← getTree).goal g).probability value?
  modifyGoal g fun goal => { goal with selected := true, queue := [] }

/-- Queues a safe rule that was not applied at once. -/
def postponeRule (g : GoalId) (m : IndexMatch) : SearchM Unit := do
  modifyStats fun s => { s with postponedSafeRules := s.postponedSafeRules + 1 }
  modifyGoal g fun goal => { goal with queue := goal.queue ++ [.postponed m] }

/-- Tries safe rules in order until one is applied; tells whether one was. -/
def trySafeRules (search : Search) (g : GoalId) (x : Var) (state : Snapshot) (postpone : Bool) :
    List IndexMatch → SearchM Bool
  | [] => return false
  | m :: rest => do
    match ← search.runOnGoal g x state m.rule m.locations with
    | .failed _ =>
      noteFailedRule g m.rule
      search.trySafeRules g x state postpone rest
    | .applied candidates value? =>
      match eagerCandidate? ((← getTree).goal g).vars candidates with
      | some candidate =>
        applySafe g m.rule candidate value?
        return true
      | none =>
        if postpone then
          postponeRule g m
        search.trySafeRules g x state postpone rest

/-- Tries the safe rules selected for a goal. -/
def runSafeRules (search : Search) (g : GoalId) (x : Var) (state : Snapshot) (postpone : Bool) :
    SearchM Bool := do
  onSolver (Solver.restore state)
  let (target, hyps) ← describeGoal x
  search.trySafeRules g x state postpone (search.rules.safe target hyps)

/-! ## Tentative rules -/

/-- Queues the tentative rules of a goal among the postponed ones. -/
def selectTentative (search : Search) (g : GoalId) (x : Var) (state : Snapshot) :
    SearchM Unit := do
  onSolver (Solver.restore state)
  let (target, hyps) ← describeGoal x
  let entries := (search.rules.tentative target hyps).map .ofMatch
  modifyGoal g fun goal =>
    { goal with queue := sortOrdered QueuedRule.le (goal.queue ++ entries), selected := true }

/-- Adds the candidates of a rule as applications until the goal is decided. -/
def attachAll (g : GoalId) (entry : QueuedRule) (parentProbability : Percent)
    (value? : Option BranchValue) : List Candidate → SearchM Unit
  | [] => return
  | candidate :: rest => do
    if !((← getTree).goal g).state.isUnknown then
      return
    else
      let probability := parentProbability * candidate.probability.getD entry.probability
      attach g entry.rule.name entry.kind candidate probability value?
      attachAll g entry parentProbability value? rest

/-- Tries queued rules until one applies. -/
def tryQueued (search : Search) (g : GoalId) (x : Var) (state : Snapshot) :
    List QueuedRule → SearchM Unit
  | [] => return
  | entry :: rest => do
    modifyGoal g fun goal => { goal with queue := rest }
    match ← search.runOnGoal g x state entry.rule entry.locations with
    | .failed _ =>
      noteFailedRule g entry.rule
      search.tryQueued g x state rest
    | .applied candidates value? =>
      attachAll g entry ((← getTree).goal g).probability value? candidates

/-! ## Expansion -/

/-- Tries the next queued rule and queues the goal again if it has more to try. -/
def expandTentative (search : Search) (g : GoalId) (x : Var) (state : Snapshot) :
    SearchM Unit := do
  search.tryQueued g x state ((← getTree).goal g).queue
  let (unprovable, tree) := (← getTree).checkExhausted g
  modifyTree fun _ => tree
  if !unprovable && tree.isActive g && !(tree.goal g).isExhausted then
    pushGoal g

/-- Hands a normalized goal to the rules: safe rules come first when the goal is seen first. -/
def expandNormal (search : Search) (g : GoalId) (x : Var) (state : Snapshot) : SearchM Unit := do
  if ((← getTree).goal g).selected then
    search.expandTentative g x state
  else if !(← search.runSafeRules g x state true) then
    search.selectTentative g x state
    search.expandTentative g x state

/-- Whether goals at the given depth are given up. -/
def tooDeep (search : Search) (depth : Nat) : Bool :=
  search.options.maxRuleApplicationDepth ≠ 0 && search.options.maxRuleApplicationDepth ≤ depth

def expandGoal (search : Search) (g : GoalId) : SearchM Unit := do
  let run ← get
  modifyGoal g fun goal => { goal with expandedIn := run.iteration }
  if search.tooDeep (run.tree.goal g).depth then
    modifyTree (·.markForcedUnprovable g)
    modifyStats fun s =>
      { s with forcedUnprovable := s.forcedUnprovable + 1, depthLimitReached := true }
  else
    match ← search.normalizeGoal g with
    | .proven => return
    | .normal x state => search.expandNormal g x state

end Search

end ProofSearch
