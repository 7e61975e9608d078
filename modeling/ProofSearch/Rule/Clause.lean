import ProofSearch.Rule.Basic

/-!
# Applying schematic lemmas

A clause is a lemma with parameters, premises and a conclusion.  Its types refer to parameters as to
hypotheses.  Applying it to a goal makes a fresh variable for each parameter, unifies the conclusion
with the goal's type and leaves the premises, and the parameters that stayed open, as subgoals.
-/

namespace ProofSearch

structure Clause where
  name : String
  params : List (String × Term)
  premises : List Term
  conclusion : Term
deriving DecidableEq, Repr

namespace Clause

/-- Replaces references to parameters by their variables; `bound` lists the latest parameter
first. -/
def instantiateParams (bound : List (String × Var)) (t : Term) : Term :=
  t.substHyps fun name => (bound.find? (·.1 = name)).map (.var ·.2)

/-- Makes a variable for each parameter, in order; the type of a parameter may refer to earlier
parameters.  The result lists the latest parameter first. -/
def makeParams (hyps : LocalContext) (bound : List (String × Var)) :
    List (String × Term) → StateM Solver (List (String × Var))
  | [] => return bound
  | (name, type) :: rest => do
    let x ← Solver.mkGoal (instantiateParams bound type) hyps
    makeParams hyps ((name, x) :: bound) rest

def procedure (c : Clause) : Procedure := fun input => do
  let target ← (Solver.goalType input.goal).adapt .metavar
  let hyps ← (Solver.goalHyps input.goal).adapt .metavar
  let pre := (← get).state
  let bound ← makeParams hyps [] c.params
  let conclusion := instantiateParams bound c.conclusion
  if ← Solver.unify conclusion target then
    let premises ← c.premises.mapM fun premise =>
      Solver.mkGoal (instantiateParams bound premise) hyps
    let params := (bound.map (·.2)).reverse
    (Solver.assign input.goal (.apply c.name ((params ++ premises).map .var))).adapt .metavar
    let s ← get
    let goals := premises ++ params.filter fun x => !s.isAssigned x
    return { proposals := [Proposal.capture pre s goals] }
  else
    Solver.restore pre
    throw (.noUnifier c.name conclusion target)

end Clause

end ProofSearch
