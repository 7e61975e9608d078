import ProofSearch.Rule.Basic

/-!
# Closing goals by hypotheses

A goal is closed by a hypothesis whose type unifies with the goal's type.  The latest hypothesis
comes first.
-/

namespace ProofSearch

namespace Assumption

/-- The proposals of the given hypotheses, each made from the state `pre`: all of them, or the first
one only. -/
def proposals (goal : Var) (target : Term) (pre : Snapshot) (all : Bool) :
    List Hypothesis → SolverM RuleError (List Proposal)
  | [] => return []
  | h :: rest => do
    Solver.restore pre
    if ← Solver.unify target h.type then
      (Solver.assign goal (.hyp h.name)).adapt .metavar
      let found := Proposal.capture pre (← get) []
      if all then
        return found :: (← proposals goal target pre all rest)
      else
        return [found]
    else
      proposals goal target pre all rest

/-- Closes a goal by the latest matching hypothesis, or proposes every matching one. -/
def procedure (all : Bool) : Procedure := fun input => do
  let target ← (Solver.goalType input.goal).adapt .metavar
  let hyps ← (Solver.goalHyps input.goal).adapt .metavar
  let pre := (← get).state
  let found ← proposals input.goal target pre all hyps.reverse
  Solver.restore pre
  if found.isEmpty then
    throw (.noHypothesis target)
  return { proposals := found }

end Assumption

end ProofSearch
