import ProofSearch.Answer.SafePrefix
import ProofSearch.Search.Expand

/-!
# Searching

The search expands one goal after the other until the root is decided or a limit is reached.  A
proven root is turned into a proof.  Otherwise the safe prefix is expanded a little further and
returned, unless the search had to succeed.
-/

namespace ProofSearch

/-- A search that ended in an orderly way. -/
inductive SearchResult where
  | proved (proof : Proof) (stats : Stats)
  /-- No proof was found; the safe prefix is what safe rules achieved. -/
  | failed (safePrefix : SafePrefix) (reason : FailureReason) (message : String) (stats : Stats)

/-- A search that ended with an error, and its tree at that time. -/
structure SearchFailure where
  error : SearchError
  tree : Tree
  stats : Stats

/-- The outcome of a search with the solver afterwards and the calls in the order they were made. -/
structure Report where
  result : Except SearchFailure SearchResult
  solver : Solver
  journal : List Call

namespace Search

open SearchM

/-! ## The loop -/

/-- How a search in its current state has ended, if it has: with a proof or for a reason. -/
def verdict? (search : Search) (t : Tree) : Option (Option FailureReason) :=
  let o := search.options
  if t.rootIsProven then some none
  else if t.rootIsUnprovable then some (some .unprovable)
  else if o.maxGoals ≠ 0 ∧ o.maxGoals ≤ t.goals.size then some (some .maxGoals)
  else if o.maxRuleApplications ≠ 0 ∧ o.maxRuleApplications ≤ t.applications.size then
    some (some .maxRuleApplications)
  else none

/-- The first active goal of a queue and the entries behind it. -/
def firstActive? (t : Tree) : List QueueEntry → Option GoalId × List QueueEntry
  | [] => (none, [])
  | e :: rest => if t.isActive e.goal then (some e.goal, rest) else firstActive? t rest

/-- Takes the next active goal off the queue. -/
def nextActiveGoal? : SearchM (Option GoalId) := do
  let run ← get
  let (next, rest) := firstActive? run.tree run.queue.pending
  set { run with queue := { run.queue with pending := rest } }
  return next

/-- Expands at most `n` goals; if that does not decide the search it ends with the error `spent`. -/
def loop (search : Search) (spent : SearchError) : Nat → SearchM (Option FailureReason)
  | 0 => throw spent
  | n + 1 => do
    match search.verdict? (← getTree) with
    | some verdict => return verdict
    | none =>
      match ← nextActiveGoal? with
      | none => return some .exhausted
      | some g =>
        modify fun run => { run with
          iteration := run.iteration + 1
          stats := { run.stats with iterations := run.stats.iterations + 1 } }
        search.expandGoal g
        search.loop spent n

/-- The iterations that a search is given, and the error if they are not enough. -/
def loopBudget (search : Search) : Nat × SearchError :=
  match search.options.maxRecursionDepth with
  | 0 => (search.fuel, .outOfFuel)
  | limit => (limit, .recursionLimit limit)

/-! ## Expanding the safe prefix -/

/-- Applies safe rules to goals of the safe prefix that no rule was applied to, in tree order, until
`limit` applications are added. -/
def expandPrefix (search : Search) (limit : Nat) : Nat → Nat → List GoalId → SearchM Unit
  | _, _, [] => return
  | 0, _, _ :: _ => throw .outOfFuel
  | fuel + 1, applied, g :: rest => do
    let t ← getTree
    let goal := t.goal g
    if goal.forced || goal.state.isProven then
      search.expandPrefix limit fuel applied rest
    else
      match t.safeApplication? g with
      | some r => search.expandPrefix limit fuel applied (t.subgoalIds r ++ rest)
      | none =>
        if goal.wasExpanded then
          search.expandPrefix limit fuel applied rest
        else if limit ≤ applied then
          return
        else
          match ← search.normalizeGoal g with
          | .proven => search.expandPrefix limit fuel applied rest
          | .normal x state =>
            if ← search.runSafeRules g x state false then
              modifyStats fun s =>
                { s with safePrefixRuleApplications := s.safePrefixRuleApplications + 1 }
              let t ← getTree
              let new := match (t.goal g).applications.getLast? with
                | some r => t.subgoalIds r
                | none => []
              search.expandPrefix limit fuel (applied + 1) (new ++ rest)
            else
              search.expandPrefix limit fuel applied rest

/-- Expands the safe prefix from the root, unless that is switched off. -/
def expandSafePrefix (search : Search) : SearchM Unit :=
  match search.options.maxSafePrefixRuleApplications with
  | 0 => return
  | limit => search.expandPrefix limit search.fuel 0 [Tree.root]

/-! ## Results -/

/-- The counters with the size of the tree filled in. -/
def finalStats (run : Run) : Stats :=
  { run.stats with goals := run.tree.goals.size, ruleApplications := run.tree.applications.size }

/-- Turns the verdict of the loop into a result. -/
def finish (search : Search) : Option FailureReason → SearchM SearchResult
  | none => do
    let proof ← onSolverM ((← getTree).extractProof search.options.maxRecursionDepth)
    return .proved proof (finalStats (← get))
  | some reason => do
    let message := reason.message search.options (← get).stats
    if search.options.terminal then
      throw (.nonTerminal reason message)
    else
      search.expandSafePrefix
      let safePrefix ← onSolverM ((← getTree).extractSafePrefix search.options.maxRecursionDepth)
      return .failed safePrefix reason message (finalStats (← get))

/-- A search from beginning to end. -/
def runAll (search : Search) : SearchM SearchResult := do
  let (iterations, spent) := search.loopBudget
  search.finish (← search.loop spent iterations)

/-- A search that is about to begin. -/
def start (search : Search) (s : Solver) (tree : Tree) : Run where
  solver := s
  tree := tree
  queue := (GoalQueue.empty search.options.strategy).push (.ofGoal Tree.root (tree.goal Tree.root))
  stats := {}
  iteration := 0
  journal := []

/-- Searches for a proof of `goal`.  Afterwards the solver is in a state in which the goal has its
proof, or in the state of the safe prefix. -/
def run (search : Search) (s : Solver) (goal : Var) : Report :=
  match s.context.dependencies goal with
  | .error e =>
    { result := .error ⟨.metavar e, .ofGoal goal ∅ s.state, {}⟩, solver := s, journal := [] }
  | .ok vars =>
    let (result, final) := search.runAll.run (search.start s (.ofGoal goal vars s.state))
    { result := result.mapError fun e => ⟨e, final.tree, finalStats final⟩
      solver := final.solver
      journal := final.journal.reverse }

end Search

end ProofSearch
