import ProofSearch.AndOr.Id
import ProofSearch.Rule.Basic
import ProofSearch.Search.Failure

/-!
# Fatal errors

A failing rule is no error: the search goes on.  The errors here end a search, because a rule or the
simplifier broke its contract, a limit was reached or a search that had to succeed did not.
-/

namespace ProofSearch

/-- The two kinds of effects that a rule reports. -/
inductive Effect where
  | introduced
  | assigned
deriving DecidableEq, Repr

def Effect.text : Effect → String
  | .introduced => "introduced"
  | .assigned => "assigned"

/-- What a norm rule must not do. -/
inductive NormFault where
  | applications (count : Nat)
  | subgoals (count : Nat)
  | sharedAssignment
deriving DecidableEq, Repr

def NormFault.message : NormFault → String
  | .applications count => "expected one application, got " ++ count.repr
  | .subgoals count => "expected at most one subgoal, got " ++ count.repr
  | .sharedAssignment => "assigned metavariables shared with other goals"

/-- Why no proof can be put together from a tree. -/
inductive ExtractionFault where
  | undeclared (x : Var)
  | neverNormalized (goal : GoalId)
  | noProvenApplication (goal : GoalId)
  | unprovenCluster (application : ApplicationId) (cluster : ClusterId)
  | openTerm (term : Term) (first : Var) (count : Nat)
deriving DecidableEq, Repr

def ExtractionFault.message : ExtractionFault → String
  | .undeclared x => "metavariable " ++ x.text ++ " is not declared in the recorded state"
  | .neverNormalized goal => "goal " ++ goal.text ++ " is proven but was never normalized"
  | .noProvenApplication goal =>
    "proven goal " ++ goal.text ++ " has no proven rule application"
  | .unprovenCluster application cluster =>
    "proven rapp " ++ application.text ++ " has unproven cluster " ++ cluster.text
  | .openTerm term first count =>
    "proof term " ++ term.text ++ " still mentions " ++ first.text ++ " (" ++ count.repr ++
      " unassigned)"

/-- Why a search ends with an error. -/
inductive SearchError where
  | effectMismatch (rule : String) (effect : Effect) (reported observed : VarSet)
  | invalidNormRule (rule : String) (fault : NormFault)
  | normIterationLimit (goal : Var) (limit : Nat)
  | recursionLimit (limit : Nat)
  | simplifier (goal : Var) (error : RuleError)
  | extraction (fault : ExtractionFault)
  | metavar (error : MetavarError)
  /-- No proof was found although the search had to find one. -/
  | nonTerminal (reason : FailureReason) (message : String)
  /-- A loop that no option bounds was cut off before it ended. -/
  | outOfFuel
deriving DecidableEq

/-- The members of a set between braces. -/
def VarSet.describe (s : VarSet) : String :=
  "\x7b" ++ ", ".intercalate (s.toList.map fun x => "MVarId(" ++ x.index.repr ++ ")") ++ "\x7d"

def SearchError.message : SearchError → String
  | .effectMismatch rule effect reported observed =>
    "rule " ++ rule ++ " reported " ++ effect.text ++ " metavariables " ++ reported.describe ++
      " but " ++ observed.describe ++ " were " ++ effect.text
  | .invalidNormRule rule fault => "norm rule " ++ rule ++ ": " ++ fault.message
  | .normIterationLimit goal limit =>
    "failed to normalize goal " ++ goal.text ++ " after " ++ limit.repr ++
      " rounds; a norm rule or the simplifier likely does not terminate"
  | .recursionLimit limit => "maximum recursion depth " ++ limit.repr ++ " reached"
  | .simplifier goal error => "simplifier failed on goal " ++ goal.text ++ ": " ++ error.message
  | .extraction fault => "proof extraction failed: " ++ fault.message
  | .metavar error => error.message
  | .nonTerminal _ message => message
  | .outOfFuel => "out of fuel"

/-! ## Nesting -/

/-- How deep a computation is nested and how deep it may be; a limit of 0 means no limit. -/
structure DepthGuard where
  depth : Nat
  limit : Nat
deriving DecidableEq, Repr

namespace DepthGuard

def ofLimit (limit : Nat) : DepthGuard := ⟨0, limit⟩

/-- One level deeper. -/
def enter (g : DepthGuard) : Except SearchError DepthGuard :=
  if g.limit ≠ 0 ∧ g.limit ≤ g.depth then .error (.recursionLimit g.limit)
  else .ok { g with depth := g.depth + 1 }

/-- One level less deep, if there is one. -/
def leave (g : DepthGuard) : DepthGuard := { g with depth := g.depth - 1 }

end DepthGuard

end ProofSearch
