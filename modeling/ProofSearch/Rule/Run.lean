import ProofSearch.Error

/-!
# Running rules

A rule is run from a given state, which the solver is in again afterwards whatever the rule did.
The effects that a rule reports are compared with what it really introduced and assigned; a
difference is a fatal error, while a failing rule is not.
-/

namespace ProofSearch

/-- A checked proposal, ready to become a node of the search tree. -/
structure Candidate where
  /-- The subgoals that are still open in the post-state, in the rule's order. -/
  goals : List Var
  post : Snapshot
  probability : Option Percent
  introduced : VarSet
  assigned : VarSet
deriving DecidableEq

/-- What running a rule came to. -/
inductive RuleOutcome where
  | failed (error : RuleError)
  | applied (candidates : List Candidate) (branch : Option BranchValue)
deriving DecidableEq

def RuleOutcome.isSuccess : RuleOutcome → Bool
  | .failed _ => false
  | .applied .. => true

/-- Compares a reported effect with the observed one. -/
def checkEffect (rule : String) (effect : Effect) (reported observed : VarSet) :
    Except SearchError Unit :=
  if reported = observed then .ok () else .error (.effectMismatch rule effect reported observed)

/-- The candidate that a proposal amounts to. -/
def Proposal.check (rule : String) (pre : Snapshot) (checkEffects : Bool) (p : Proposal) :
    Except SearchError Candidate := do
  let introduced := p.post.context.declaredSince pre.context
  let assigned := p.post.context.assignedSince pre.context
  if checkEffects then
    checkEffect rule .introduced p.introduced introduced
    checkEffect rule .assigned p.assigned assigned
  return {
    goals := p.goals.filter fun x => !p.post.context.isAssigned x
    post := p.post
    probability := p.probability
    introduced
    assigned }

namespace Rule

/-- Runs the procedure from `pre` and returns to `pre`. -/
def call (r : Rule) (input : RuleInput) (pre : Snapshot) :
    StateM Solver (Except RuleError RuleOutput) := do
  Solver.restore pre
  let result ← (r.procedure input).run
  Solver.restore pre
  return result

/-- The outcome of a finished run. -/
def examine (r : Rule) (pre : Snapshot) (checkEffects : Bool) :
    Except RuleError RuleOutput → Except SearchError RuleOutcome
  | .error e => .ok (.failed e)
  | .ok ⟨[], _⟩ => .ok (.failed .noApplications)
  | .ok ⟨proposals, branch⟩ => do
    let candidates ← proposals.mapM (·.check r.name pre checkEffects)
    return .applied candidates branch

end Rule

/-! ## Simplifiers -/

/-- What the simplifier did to a goal. -/
inductive SimpResult where
  /-- The goal is assigned. -/
  | solved
  /-- The goal is assigned in terms of a new goal. -/
  | simplified (goal : Var)
  | unchanged
deriving DecidableEq, Repr

/-- The simplifying pass in the middle of a normalization round. -/
abbrev Simplifier := Var → SolverM RuleError SimpResult

/-- Leaves every goal as it is. -/
def Simplifier.none : Simplifier := fun _ => return .unchanged

/-! ## The journal -/

/-- A record of one call of a rule procedure or of the simplifier.  The target is the instantiated
type of the goal when the call was made. -/
inductive Call where
  | rule (name : String) (input : RuleInput) (target : Option Term)
    (result : Except RuleError (List (List Var)))
  | simplifier (goal : Var) (target : Option Term) (result : Except RuleError SimpResult)

/-- The type of a goal in a state in which it may be unknown. -/
def Snapshot.target? (s : Snapshot) (goal : Var) : Option Term := (s.context.goalType goal).toOption

/-- The record of a call of `r` from the state `pre`. -/
def Rule.record (r : Rule) (input : RuleInput) (pre : Snapshot)
    (result : Except RuleError RuleOutput) : Call :=
  .rule r.name input (pre.target? input.goal) (result.map fun out => out.proposals.map (·.goals))

end ProofSearch
