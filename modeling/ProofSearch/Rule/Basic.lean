import ProofSearch.Metavar.Solver
import ProofSearch.Percent
import ProofSearch.Rule.Branch

/-!
# Rules

A rule is a named procedure with a priority and index keys.  Run on a goal, a procedure proposes
ways of discharging it: post-states with the subgoals that are left.  Norm rules bring a goal into
normal form, safe rules are applied at once and never taken back, and tentative rules are tried
one after the other.
-/

namespace ProofSearch

/-! ## Priorities and index keys -/

/-- Almost safe rules are applied like safe ones but do not belong to the safe prefix. -/
inductive Safety where
  | safe
  | almostSafe
deriving DecidableEq, Repr

/-- When a rule is tried. -/
inductive Priority where
  /-- Negative penalties run before the simplifier, the others after it. -/
  | norm (penalty : Int)
  | safe (penalty : Int) (safety : Safety)
  | tentative (probability : Percent)
deriving DecidableEq, Repr

/-- A head symbol under which a rule is found.  A rule without keys is found for every goal. -/
inductive IndexKey where
  | target (head : String)
  | hyp (head : String)
deriving DecidableEq, Repr

/-- Where the index matched a goal. -/
inductive MatchLocation where
  | target
  | hyp (name : String)
deriving DecidableEq, Repr

/-! ## Procedures -/

/-- Why a rule does not apply.  The search goes on. -/
inductive RuleError where
  | metavar (error : MetavarError)
  | noHypothesis (target : Term)
  | noUnifier (rule : String) (conclusion target : Term)
  | noApplications
  /-- A procedure's own complaint. -/
  | custom (message : String)
deriving DecidableEq, Repr

def RuleError.message : RuleError → String
  | .metavar error => error.message
  | .noHypothesis target => "no hypothesis matches " ++ target.text
  | .noUnifier rule conclusion target =>
    rule ++ ": " ++ conclusion.text ++ " does not unify with " ++ target.text
  | .noApplications => "rule produced no applications"
  | .custom message => message

/-- What a procedure is run on. -/
structure RuleInput where
  goal : Var
  /-- The open variables of the goal, which sibling goals may share. -/
  vars : VarSet
  locations : List MatchLocation
  branch : Option BranchValue
deriving DecidableEq

/-- One way of discharging a goal, with the procedure's own report of the variables it introduced
and assigned. -/
structure Proposal where
  goals : List Var
  post : Snapshot
  probability : Option Percent
  introduced : VarSet
  assigned : VarSet
deriving DecidableEq

/-- The current state as a proposal, reporting what has changed since `pre`. -/
def Proposal.capture (pre : Snapshot) (s : Solver) (goals : List Var) : Proposal where
  goals := goals
  post := s.state
  probability := none
  introduced := s.context.declaredSince pre.context
  assigned := s.context.assignedSince pre.context

structure RuleOutput where
  proposals : List Proposal
  /-- What the rule remembers in the new goals. -/
  branch : Option BranchValue := none
deriving DecidableEq

/-- A rule procedure may change the solver freely: the state is restored around every run. -/
abbrev Procedure := RuleInput → SolverM RuleError RuleOutput

structure Rule where
  name : String
  priority : Priority
  index : List IndexKey
  procedure : Procedure

/-! ## Applied rules -/

/-- How a rule was run when it was applied. -/
inductive RuleKind where
  | safe
  | almostSafe
  | tentative
  /-- A safe rule that could not be applied at once and was tried later. -/
  | postponedSafe
deriving DecidableEq, Repr

namespace RuleKind

/-- Only these applications belong to the safe prefix. -/
def isSafe : RuleKind → Bool
  | .safe => true
  | .almostSafe | .tentative | .postponedSafe => false

def text : RuleKind → String
  | .safe => "safe"
  | .almostSafe => "almost safe"
  | .tentative => "unsafe"
  | .postponedSafe => "postponed safe"

end RuleKind

structure AppliedRule where
  name : String
  kind : RuleKind
deriving DecidableEq, Repr

def AppliedRule.text (r : AppliedRule) : String := r.name ++ " (" ++ r.kind.text ++ ")"

/-! ## Descriptions -/

def Safety.describe : Safety → String
  | .safe => "Safe"
  | .almostSafe => "AlmostSafe"

def Priority.describe : Priority → String
  | .norm penalty => "Norm \x7b penalty: " ++ toString penalty ++ " \x7d"
  | .safe penalty safety =>
    "Safe \x7b penalty: " ++ toString penalty ++ ", safety: " ++ safety.describe ++ " \x7d"
  | .tentative probability =>
    "Unsafe \x7b success_probability: " ++ probability.text ++ " \x7d"

def IndexKey.describe : IndexKey → String
  | .target head => "Target(`" ++ head ++ "`)"
  | .hyp head => "Hyp(`" ++ head ++ "`)"

/-- The parts of a rule other than its procedure, on one line. -/
def Rule.describe (r : Rule) : String :=
  "Rule \x7b name: `" ++ r.name ++ "`, priority: " ++ r.priority.describe ++ ", index: [" ++
    ", ".intercalate (r.index.map IndexKey.describe) ++ "], .. \x7d"

end ProofSearch
